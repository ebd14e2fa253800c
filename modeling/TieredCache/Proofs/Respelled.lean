import Mathlib.Data.List.Perm.Basic
import TieredCache.Proofs.Plain

/-! Lists that hold the same under other spellings of the keys. Two shelves, and two lines, are
respelled when they hold the same values in the same order under keys that are equal one by one. What
is found under equal keys is then the same, and what leaves the one leaves the other. -/
namespace TieredCache
open Keyed (find without)
variable {E F K V : Type}

/-- The two lists correspond one by one once the first is put in another order. -/
def Reordered (R : E → F → Prop) (xs : List E) (ys : List F) : Prop :=
  ∃ zs, xs.Perm zs ∧ List.Forall₂ R zs ys

namespace Reordered
variable {R : E → F → Prop} {xs us : List E} {ys vs : List F}

theorem same (along : List.Forall₂ R xs ys) : Reordered R xs ys := ⟨xs, List.Perm.refl _, along⟩

theorem perm (first : us.Perm xs) (reordered : Reordered R xs ys) (second : vs.Perm ys) :
    Reordered R us vs := by
  obtain ⟨zs, moved, along⟩ := reordered
  have exchanged : Relation.Comp (List.Forall₂ R) List.Perm zs vs := ⟨ys, along, second.symm⟩
  rw [List.forall₂_comp_perm_eq_perm_comp_forall₂] at exchanged
  obtain ⟨ws, also, last⟩ := exchanged
  exact ⟨ws, (first.trans moved).trans also, last⟩

end Reordered

theorem frontAlong {R : E → F → Prop} {p : E → Bool} {q : F → Bool} {xs : List E} {ys : List F}
    (along : List.Forall₂ R xs ys) (alike : ∀ a b, R a b → p a = q b) :
    List.Forall₂ R (xs.takeWhile p) (ys.takeWhile q) ∧ List.Forall₂ R (xs.dropWhile p) (ys.dropWhile q) := by
  induction along with
  | nil => exact ⟨.nil, .nil⟩
  | @cons a b xs ys related rest ih =>
    simp only [List.takeWhile_cons, List.dropWhile_cons, alike a b related]
    cases q b with
    | true => exact ⟨.cons related ih.1, ih.2⟩
    | false => exact ⟨.nil, .cons related rest⟩

theorem filterAlong {R : E → F → Prop} {p : E → Bool} {q : F → Bool} {xs : List E} {ys : List F}
    (along : List.Forall₂ R xs ys) (alike : ∀ a b, R a b → p a = q b) :
    List.Forall₂ R (xs.filter p) (ys.filter q) :=
  List.rel_filter (fun a b related => iff_of_eq (congrArg (· = true) (alike a b related))) along

variable [BEq K]

abbrev SameKey (j k : K) : Prop := (j == k) = true

/-- The same value under equal keys. -/
abbrev SameEntry (a b : K × V) : Prop := SameKey a.1 b.1 ∧ a.2 = b.2

structure Admission.Respelled (a b : Admission K V) : Prop where
  key : SameKey a.key b.key
  value : a.value = b.value
  time : a.time = b.time

theorem Admission.Respelled.expired {a b : Admission K V} (respelled : a.Respelled b) (lifetime : Option Nat)
    (now : Nat) : a.expired lifetime now = b.expired lifetime now := by
  unfold Admission.expired
  rw [respelled.time]

structure Shelf.Respelled (s t : Shelf K V) : Prop where
  recent : List.Forall₂ SameEntry s.recent t.recent
  pinned : List.Forall₂ SameEntry s.pinned t.pinned
  capacity : s.capacity = t.capacity
  byUse : s.byUse = t.byUse

structure Line.Respelled (l m : Line K V) : Prop where
  waiting : List.Forall₂ Admission.Respelled l.waiting m.waiting
  bound : l.bound = m.bound
  lifetime : l.lifetime = m.lifetime

namespace Keyed
variable [EquivBEq K] {R : E → F → Prop} {key : E → K} {other : F → K} {xs : List E} {ys : List F} {j k : K}

theorem equalAlike {i l : K} (one : SameKey i l) (two : SameKey j k) : (i == j) = (l == k) :=
  (BEq.congr_left one).trans (BEq.congr_right two)

theorem findAlong (along : List.Forall₂ R xs ys) (keyed : ∀ a b, R a b → SameKey (key a) (other b))
    (same : SameKey j k) : (find key xs j = none ∧ find other ys k = none) ∨
      ∃ a b, find key xs j = some a ∧ find other ys k = some b ∧ R a b := by
  induction along with
  | nil => exact .inl ⟨rfl, rfl⟩
  | @cons a b xs ys related rest ih =>
    unfold find at ih ⊢
    rw [List.find?_cons, List.find?_cons, equalAlike (keyed a b related) same]
    cases other b == k with
    | true => exact .inr ⟨a, b, rfl, rfl, related⟩
    | false => exact ih

theorem foundAlong (along : List.Forall₂ R xs ys) (keyed : ∀ a b, R a b → SameKey (key a) (other b))
    (same : SameKey j k) : List.Forall₂ R (find key xs j).toList (find other ys k).toList := by
  rcases findAlong along keyed same with ⟨one, two⟩ | ⟨a, b, one, two, related⟩
  · rw [one, two]
    exact .nil
  · rw [one, two]
    exact .cons related .nil

theorem withoutAlong (along : List.Forall₂ R xs ys) (keyed : ∀ a b, R a b → SameKey (key a) (other b))
    (same : SameKey j k) : List.Forall₂ R (without key xs j) (without other ys k) :=
  filterAlong along (fun a b related => congrArg not (equalAlike (keyed a b related) same))

theorem anyAlong (along : List.Forall₂ R xs ys) (keyed : ∀ a b, R a b → SameKey (key a) (other b))
    (same : SameKey j k) : xs.any (key · == j) = ys.any (other · == k) := by
  induction along with
  | nil => rfl
  | @cons a b xs ys related rest ih =>
    rw [List.any_cons, List.any_cons, ih, equalAlike (keyed a b related) same]

end Keyed

namespace Shelf.Respelled
variable {s t : Shelf K V}

theorem entryKeys (a b : K × V) (same : SameEntry a b) : SameKey a.1 b.1 := same.1

theorem surplus (respelled : s.Respelled t) : List.Forall₂ SameEntry s.surplus t.surplus := by
  unfold Shelf.surplus
  rw [respelled.capacity]
  cases t.capacity with
  | none => exact .nil
  | some most => exact List.rel_reverse (List.forall₂_drop most respelled.recent)

theorem fitted (respelled : s.Respelled t) : s.fitted.Respelled t.fitted := by
  have same := respelled.capacity
  unfold Shelf.fitted
  rw [same]
  cases capped : t.capacity with
  | none => exact respelled
  | some most => exact ⟨List.forall₂_take most respelled.recent, respelled.pinned, rfl, respelled.byUse⟩

variable [EquivBEq K] {j k : K}

theorem find? (respelled : s.Respelled t) (same : SameKey j k) : s.find? j = t.find? k := by
  unfold Shelf.find?
  have recent := Keyed.findAlong respelled.recent entryKeys same
  have pinned := Keyed.findAlong respelled.pinned entryKeys same
  rcases recent with ⟨one, two⟩ | ⟨a, b, one, two, related⟩
  · rw [one, two, Option.none_or, Option.none_or]
    rcases pinned with ⟨one, two⟩ | ⟨a, b, one, two, related⟩
    · rw [one, two]
    · rw [one, two]
      exact congrArg some related.2
  · rw [one, two]
    exact congrArg some related.2

theorem touch (respelled : s.Respelled t) (same : SameKey j k) : (s.touch j).Respelled (t.touch k) := by
  have moved := List.rel_append (Keyed.foundAlong respelled.recent entryKeys same)
    (Keyed.withoutAlong respelled.recent entryKeys same)
  unfold Shelf.touch
  rw [respelled.byUse]
  split
  · exact ⟨moved, respelled.pinned, respelled.capacity, rfl⟩
  · exact respelled

theorem revalued {xs ys : List (K × V)} (along : List.Forall₂ SameEntry xs ys) (same : SameKey j k) (v : V) :
    List.Forall₂ SameEntry (Shelf.revalued j v xs) (Shelf.revalued k v ys) := by
  refine List.rel_map (fun a b related => ?_) along
  rw [Keyed.equalAlike related.1 same]
  split
  · exact ⟨related.1, rfl⟩
  · exact related

theorem replace (respelled : s.Respelled t) (same : SameKey j k) (v : V) :
    (s.replace j v).Respelled (t.replace k v) :=
  ⟨revalued respelled.recent same v, revalued respelled.pinned same v, respelled.capacity, respelled.byUse⟩

omit [EquivBEq K] in
theorem enter (respelled : s.Respelled t) (same : SameKey j k) (v : V) (pinned : Bool) :
    (s.enter j v pinned).Respelled (t.enter k v pinned) := by
  unfold Shelf.enter
  split
  · exact { respelled with pinned := .cons ⟨same, rfl⟩ respelled.pinned }
  · exact { respelled with recent := .cons ⟨same, rfl⟩ respelled.recent }

theorem remove (respelled : s.Respelled t) (same : SameKey j k) : (s.remove j).Respelled (t.remove k) :=
  ⟨Keyed.withoutAlong respelled.recent entryKeys same, Keyed.withoutAlong respelled.pinned entryKeys same,
    respelled.capacity, respelled.byUse⟩

theorem pin (respelled : s.Respelled t) (same : SameKey j k) : (s.pin j).Respelled (t.pin k) where
  recent := Keyed.withoutAlong respelled.recent entryKeys same
  pinned := List.rel_append (Keyed.foundAlong respelled.recent entryKeys same) respelled.pinned
  capacity := respelled.capacity
  byUse := respelled.byUse

theorem unpin (respelled : s.Respelled t) (same : SameKey j k) : (s.unpin j).Respelled (t.unpin k) where
  recent := List.rel_append (Keyed.foundAlong respelled.pinned entryKeys same) respelled.recent
  pinned := Keyed.withoutAlong respelled.pinned entryKeys same
  capacity := respelled.capacity
  byUse := respelled.byUse

end Shelf.Respelled

namespace Line.Respelled
variable {l m : Line K V}

theorem admissionKeys (a b : Admission K V) (respelled : a.Respelled b) : SameKey a.key b.key := respelled.key

theorem expiredAlike (respelled : l.Respelled m) (now : Nat) (a b : Admission K V) (same : a.Respelled b) :
    a.expired l.lifetime now = b.expired m.lifetime now :=
  (same.expired l.lifetime now).trans (congrArg (b.expired · now) respelled.lifetime)

theorem live (respelled : l.Respelled m) (now : Nat) :
    List.Forall₂ Admission.Respelled (l.live now) (m.live now) :=
  filterAlong respelled.waiting (fun a b same => congrArg not (respelled.expiredAlike now a b same))

theorem fit (respelled : l.Respelled m) :
    List.Forall₂ SameKey (l.fit).1 (m.fit).1 ∧ (l.fit).2.Respelled (m.fit).2 := by
  have excess : l.excess = m.excess := by
    unfold Line.excess
    rw [respelled.bound, respelled.waiting.length_eq]
  unfold Line.fit
  rw [excess]
  constructor
  · exact List.rel_map admissionKeys (List.forall₂_take _ respelled.waiting)
  · exact { respelled with waiting := List.forall₂_drop _ respelled.waiting }

theorem enqueue (respelled : l.Respelled m) (now : Nat) {j k : K} (same : SameKey j k) (v : V) :
    List.Forall₂ SameKey (l.enqueue now j v).1 (m.enqueue now k v).1 ∧
    (l.enqueue now j v).2.Respelled (m.enqueue now k v).2 := by
  obtain ⟨gone, kept⟩ := frontAlong respelled.waiting (respelled.expiredAlike now)
  have joined : Line.Respelled
      { l with waiting := l.waiting.dropWhile (fun a => a.expired l.lifetime now) ++ [⟨j, v, now⟩] }
      { m with waiting := m.waiting.dropWhile (fun a => a.expired m.lifetime now) ++ [⟨k, v, now⟩] } :=
    ⟨List.rel_append kept (.cons ⟨same, rfl, rfl⟩ .nil), respelled.bound, respelled.lifetime⟩
  obtain ⟨dropped, left⟩ := joined.fit
  exact ⟨List.rel_append (List.rel_map admissionKeys gone) dropped, left⟩

theorem offer (respelled : l.Respelled m) {filter : Filter K V}
    (blind : ∀ i j v, SameKey i j → filter i v = filter j v) (now : Nat) {j k : K} (same : SameKey j k) (v : V) :
    List.Forall₂ SameKey (l.offer filter now j v).1 (m.offer filter now k v).1 ∧
    (l.offer filter now j v).2.Respelled (m.offer filter now k v).2 := by
  unfold Line.offer
  rw [blind j k v same, respelled.bound]
  split
  · exact respelled.enqueue now same v
  · exact ⟨.cons same .nil, respelled⟩

theorem receive {filter : Filter K V} (blind : ∀ i j v, SameKey i j → filter i v = filter j v) (now : Nat)
    {xs ys : List (K × V)} (victims : List.Forall₂ SameEntry xs ys) (respelled : l.Respelled m) :
    List.Forall₂ SameKey (l.receive filter now xs).1 (m.receive filter now ys).1 ∧
    (l.receive filter now xs).2.Respelled (m.receive filter now ys).2 := by
  induction victims generalizing l m with
  | nil => exact ⟨.nil, respelled⟩
  | @cons d e xs ys same rest ih =>
    obtain ⟨first, offered⟩ := respelled.offer blind now same.1 d.2
    obtain ⟨others, received⟩ := ih offered
    obtain ⟨i, v⟩ := e
    obtain rfl : d.2 = v := same.2
    exact ⟨List.rel_append first others, received⟩

theorem purge (respelled : l.Respelled m) (now : Nat) :
    List.Forall₂ SameKey (l.purge now).1 (m.purge now).1 ∧ (l.purge now).2.Respelled (m.purge now).2 := by
  have gone := filterAlong respelled.waiting (respelled.expiredAlike now)
  exact ⟨List.rel_map admissionKeys gone, { respelled with waiting := respelled.live now }⟩

variable [EquivBEq K] {j k : K}

theorem find (respelled : l.Respelled m) (same : SameKey j k) :
    (find Admission.key l.waiting j = none ∧ find Admission.key m.waiting k = none) ∨
    ∃ a b, find Admission.key l.waiting j = some a ∧ find Admission.key m.waiting k = some b ∧
      a.Respelled b := Keyed.findAlong respelled.waiting admissionKeys same

theorem lookup (respelled : l.Respelled m) (now : Nat) (same : SameKey j k) :
    l.lookup now j = m.lookup now k := by
  unfold Line.lookup
  rcases Keyed.findAlong (respelled.live now) admissionKeys same with ⟨one, two⟩ | ⟨a, b, one, two, related⟩
  · rw [one, two]
  · rw [one, two]
    exact congrArg some related.value

theorem remove (respelled : l.Respelled m) (same : SameKey j k) : (l.remove j).Respelled (m.remove k) :=
  { respelled with waiting := Keyed.withoutAlong respelled.waiting admissionKeys same }

end Line.Respelled
end TieredCache
