import Mathlib.Data.List.Forall2
import TieredCache.Proofs.Shelf

/-! One order of use inside another. A shelf with nothing pinned is a list, most recent first. Every
entry of the smaller list is in the larger one, under its key and with its value, and those of both
come in the same order; in between the larger list may hold others. What keeps it so when both are cut
to size is that the larger list is longer by no more than its capacity is. -/
namespace TieredCache
open Keyed (Apart find)
variable {K V : Type} [BEq K]

def Nested (small large : List (K × V)) : Prop :=
  List.SublistForall₂ (fun a b => (a.1 == b.1) = true ∧ a.2 = b.2) small large

namespace Nested
variable {xs ys : List (K × V)}

theorem length (nested : Nested xs ys) : xs.length ≤ ys.length := by
  induction nested with
  | nil => exact Nat.zero_le _
  | cons _ _ ih => exact Nat.succ_le_succ ih
  | cons_right _ ih => exact Nat.le_succ_of_le ih

/- An entry only the larger list holds takes one place more there, and there is one more to take. -/
theorem take (nested : Nested xs ys) (few most : Nat) (room : ys.length + few ≤ xs.length + most) :
    Nested (xs.take few) (ys.take most) := by
  induction nested generalizing few most with
  | nil =>
    rw [List.take_nil]
    exact .nil
  | cons same rest ih =>
    have fewer := length rest
    simp only [List.length_cons] at room
    cases few with
    | zero => exact .nil
    | succ few =>
      obtain ⟨most, rfl⟩ : ∃ n, most = n + 1 := ⟨most - 1, by omega⟩
      exact .cons same (ih few most (by omega))
  | cons_right rest ih =>
    have fewer := length rest
    rw [List.length_cons] at room
    obtain ⟨most, rfl⟩ : ∃ n, most = n + 1 := ⟨most - 1, by omega⟩
    exact .cons_right (ih few most (by omega))

theorem takeSmall (nested : Nested xs ys) (few : Nat) : Nested (xs.take few) ys := by
  have cut := nested.take few (ys.length + few) (by omega)
  rwa [List.take_of_length_le (Nat.le_add_right _ _)] at cut

theorem mem (nested : Nested xs ys) {a : K × V} (mem : a ∈ xs) :
    ∃ b ∈ ys, (a.1 == b.1) = true ∧ a.2 = b.2 := by
  induction nested with
  | nil => simp at mem
  | @cons c d xs ys same rest ih =>
    rcases List.mem_cons.mp mem with rfl | mem
    · exact ⟨d, by simp, same⟩
    · obtain ⟨b, held, at_a⟩ := ih mem
      exact ⟨b, by simp [held], at_a⟩
  | cons_right rest ih =>
    obtain ⟨b, held, at_a⟩ := ih mem
    exact ⟨b, by simp [held], at_a⟩

variable [EquivBEq K]

theorem found (nested : Nested xs ys) (apart : Apart Prod.fst ys) {k : K} {a : K × V}
    (found : find Prod.fst xs k = some a) :
    ∃ b, find Prod.fst ys k = some b ∧ (a.1 == b.1) = true ∧ a.2 = b.2 := by
  obtain ⟨held, at_k⟩ := Keyed.findMem found
  obtain ⟨b, also, same, value⟩ := nested.mem held
  exact ⟨b, Keyed.findOf apart also (BEq.trans (BEq.symm same) at_k), same, value⟩

theorem without (nested : Nested xs ys) (k : K) :
    Nested (Keyed.without Prod.fst xs k) (Keyed.without Prod.fst ys k) := by
  induction nested with
  | nil => exact .nil
  | @cons a b xs ys same rest ih =>
    rw [Keyed.withoutCons, Keyed.withoutCons, BEq.congr_left same.1]
    cases b.1 == k with
    | true => exact ih
    | false => exact .cons same ih
  | @cons_right b xs ys rest ih =>
    rw [Keyed.withoutCons]
    cases b.1 == k with
    | true => exact ih
    | false => exact .cons_right ih

end Nested

namespace Shelf
open Keyed (without)
variable {s t : Shelf K V}

structure Ordered (s : Shelf K V) : Prop where
  byUse : s.byUse = true
  bare : s.pinned = []
  apart : Apart Prod.fst s.recent
  fits : ∀ most, s.capacity = some most → s.recent.length ≤ most

structure Inside (s t : Shelf K V) : Prop where
  nested : Nested s.recent t.recent
  room : ∀ most, t.capacity = some most →
    ∃ few, s.capacity = some few ∧ t.recent.length + few ≤ s.recent.length + most

theorem Inside.moved (inside : s.Inside t) {s' t' : Shelf K V} (nested : Nested s'.recent t'.recent)
    (few : s'.capacity = s.capacity) (most : t'.capacity = t.capacity)
    (length : t'.recent.length + s.recent.length ≤ t.recent.length + s'.recent.length) :
    s'.Inside t' := by
  refine ⟨nested, fun n capped => ?_⟩
  obtain ⟨m, fewer, room⟩ := inside.room n (most.symm.trans capped)
  exact ⟨m, few.trans fewer, by omega⟩

theorem Inside.fitted (inside : s.Inside t) : s.fitted.Inside t.fitted := by
  obtain ⟨nested, room⟩ := inside
  unfold Shelf.fitted
  cases large : t.capacity with
  | none =>
    refine ⟨?_, fun most capped => absurd (large.symm.trans capped) (by simp)⟩
    cases s.capacity with
    | none => exact nested
    | some few => exact nested.takeSmall few
  | some most =>
    obtain ⟨few, small, room⟩ := room most large
    rw [small]
    refine ⟨nested.take few most room, fun n capped => ⟨few, rfl, ?_⟩⟩
    obtain rfl : most = n := Option.some.inj capped
    have fewer := nested.length
    simp only [List.length_take]
    omega

/-- A put of a key, when nothing that leaves the shelf can come back. -/
def put (s : Shelf K V) (k : K) (v : V) : Shelf K V :=
  match s.find? k with
  | some _ => (s.replace k v).touch k
  | none => (s.enter k v false).fitted

theorem findRevalued (k : K) (v : V) (entries : List (K × V)) :
    find Prod.fst (revalued k v entries) k = (find Prod.fst entries k).map (fun e => (e.1, v)) := by
  induction entries with
  | nil => rfl
  | cons e rest ih =>
    unfold revalued find at ih ⊢
    rw [List.map_cons, List.find?_cons, List.find?_cons]
    cases at_k : e.1 == k with
    | true => simp [at_k]
    | false => simpa [at_k] using ih

theorem withoutRevalued (k : K) (v : V) (entries : List (K × V)) :
    without Prod.fst (revalued k v entries) k = without Prod.fst entries k := by
  induction entries with
  | nil => rfl
  | cons e rest ih =>
    unfold revalued at ih ⊢
    rw [List.map_cons, Keyed.withoutCons, Keyed.withoutCons, ih]
    cases at_k : e.1 == k <;> simp [at_k]

theorem findBare (bare : s.pinned = []) (k : K) : s.find? k = (find Prod.fst s.recent k).map Prod.snd := by
  unfold Shelf.find?
  rw [bare]
  simp [find]

namespace Ordered

theorem fitted (byUse : s.byUse = true) (bare : s.pinned = []) (apart : Apart Prod.fst s.recent) :
    s.fitted.Ordered := by
  unfold Shelf.fitted
  cases capped : s.capacity with
  | none => exact ⟨byUse, bare, apart, fun most some => absurd (capped.symm.trans some) (by simp)⟩
  | some most =>
    refine ⟨byUse, bare, Keyed.apartSublist apart (List.take_sublist _ _), fun n same => ?_⟩
    obtain rfl : most = n := Option.some.inj same
    exact List.length_take_le _ _

theorem cleared (ordered : s.Ordered) : ({ s with recent := [], pinned := [] } : Shelf K V).Ordered :=
  ⟨ordered.byUse, rfl, List.Pairwise.nil, fun _ _ => Nat.zero_le _⟩

theorem remove (ordered : s.Ordered) (k : K) : (s.remove k).Ordered where
  byUse := ordered.byUse
  bare := by simp [Shelf.remove, ordered.bare, without]
  apart := Keyed.apartWithout ordered.apart k
  fits := fun most capped => Nat.le_trans (List.length_filter_le _ _) (ordered.fits most capped)

theorem touched (ordered : s.Ordered) (k : K) : s.touch k =
    { s with recent := (find Prod.fst s.recent k).toList ++ without Prod.fst s.recent k } := by
  unfold Shelf.touch
  rw [if_pos ordered.byUse]

theorem touchAbsent (ordered : s.Ordered) {k : K} (absent : s.find? k = none) : s.touch k = s := by
  obtain ⟨none, _⟩ := findAbsent.mp absent
  rw [ordered.touched, none, Keyed.withoutNone (Keyed.findNone.mp none)]
  rfl

variable [EquivBEq K]

theorem touch (ordered : s.Ordered) (k : K) : (s.touch k).Ordered := by
  have perm := Keyed.foundFirst ordered.apart k
  rw [ordered.touched]
  refine ⟨ordered.byUse, ordered.bare, (Keyed.apartPerm perm).mpr ordered.apart, fun most capped => ?_⟩
  exact Nat.le_trans (Nat.le_of_eq perm.length_eq) (ordered.fits most capped)

/- However the entry is spelled and whether the key was there or not, a put is the same: what was kept
under the key goes, the entry comes first, and what does not fit falls off the end. -/
theorem putForm (ordered : s.Ordered) (k : K) (v : V) : ∃ j, (j == k) = true ∧
    s.put k v = Shelf.fitted { s with recent := (j, v) :: without Prod.fst s.recent k } := by
  unfold put
  rw [findBare ordered.bare]
  cases found : find Prod.fst s.recent k with
  | none =>
    rw [Keyed.withoutNone (Keyed.findNone.mp found)]
    exact ⟨k, BEq.refl k, rfl⟩
  | some e =>
    refine ⟨e.1, (Keyed.findMem found).2, ?_⟩
    have replaced : (s.replace k v).touch k =
        { s with recent := (e.1, v) :: without Prod.fst s.recent k } := by
      unfold Shelf.touch Shelf.replace
      rw [if_pos ordered.byUse, findRevalued, withoutRevalued, found, ordered.bare]
      rfl
    have length := Keyed.withoutLength ordered.apart k
    rw [found] at length
    show (s.replace k v).touch k = _
    rw [replaced]
    -- The put makes the list no longer, and it did fit.
    refine (fitsSurplus (fun most capped => ?_)).1.symm
    exact Nat.le_trans (Nat.le_of_eq length) (ordered.fits most capped)

theorem put (ordered : s.Ordered) (k : K) (v : V) : (s.put k v).Ordered := by
  obtain ⟨j, at_k, form⟩ := ordered.putForm k v
  have others : ∀ e ∈ without Prod.fst s.recent k, (e.1 == j) = false := by
    intro e mem
    rw [BEq.congr_right at_k]
    exact (Keyed.withoutMem.mp mem).2
  rw [form]
  exact fitted ordered.byUse ordered.bare (Keyed.apartCons.mpr ⟨others, Keyed.apartWithout ordered.apart k⟩)

end Ordered

namespace Inside
variable [EquivBEq K]

theorem find (inside : s.Inside t) (small : s.Ordered) (large : t.Ordered) {k : K} {v : V}
    (found : s.find? k = some v) : t.find? k = some v := by
  rw [findBare small.bare, Option.map_eq_some_iff] at found
  obtain ⟨a, found, rfl⟩ := found
  obtain ⟨b, also, _, value⟩ := inside.nested.found large.apart found
  rw [findBare large.bare, also, value]
  rfl

theorem touch (inside : s.Inside t) (small : s.Ordered) (large : t.Ordered) (k : K) :
    (s.touch k).Inside (t.touch k) := by
  have few := (Keyed.foundFirst small.apart k).length_eq
  have most := (Keyed.foundFirst large.apart k).length_eq
  have rest := inside.nested.without k
  rw [small.touched, large.touched]
  refine inside.moved ?_ rfl rfl (by dsimp only; omega)
  cases found : Keyed.find Prod.fst s.recent k with
  | some a =>
    obtain ⟨b, also, same⟩ := inside.nested.found large.apart found
    rw [also]
    exact .cons same rest
  | none =>
    cases Keyed.find Prod.fst t.recent k with
    | none => exact rest
    | some b => exact .cons_right rest

theorem remove (inside : s.Inside t) (small : s.Ordered) (large : t.Ordered) (k : K) :
    (s.remove k).Inside (t.remove k) := by
  have few := Keyed.withoutLength small.apart k
  have most := Keyed.withoutLength large.apart k
  refine inside.moved (inside.nested.without k) rfl rfl ?_
  show (without Prod.fst t.recent k).length + _ ≤ _ + (without Prod.fst s.recent k).length
  cases found : Keyed.find Prod.fst s.recent k with
  | none =>
    rw [found] at few
    simp only [Option.isSome_none, Bool.false_eq_true, if_false] at few
    omega
  | some a =>
    obtain ⟨b, also, _⟩ := inside.nested.found large.apart found
    rw [found] at few
    rw [also] at most
    simp only [Option.isSome_some, if_true] at few most
    omega

theorem put (inside : s.Inside t) (small : s.Ordered) (large : t.Ordered) (k : K) (v : V) :
    (s.put k v).Inside (t.put k v) := by
  obtain ⟨i, at_i, few⟩ := small.putForm k v
  obtain ⟨j, at_j, most⟩ := large.putForm k v
  have same : (i == j) = true := BEq.trans at_i (BEq.symm at_j)
  have removed := inside.remove small large k
  rw [few, most]
  refine fitted (removed.moved (.cons ⟨same, rfl⟩ removed.nested) rfl rfl ?_)
  show (t.remove k).recent.length + 1 + (s.remove k).recent.length ≤
    (t.remove k).recent.length + ((s.remove k).recent.length + 1)
  omega

end Inside
end Shelf
end TieredCache
