import TieredCache.Proofs.Contents
import TieredCache.Proofs.Stock

/-! A shelf on which a key has rivals. Only an entry that is used comes to stand before others: before that
of the key there are never more than those of its rivals, each once. While these are fewer than there is
room for, the entry does not leave, whatever is pinned, removed or brought in meanwhile. -/
namespace TieredCache
open Keyed (Apart find without)
variable {K V : Type} [BEq K]

theorem Keyed.distinctCovers [EquivBEq K] {keys : List K} {j : K} (mem : j ∈ keys) :
    keys.eraseDups.any (· == j) = true := by
  induction keys with
  | nil => cases mem
  | cons k rest ih =>
    rw [distinctCons, List.any_cons]
    cases at_j : k == j with
    | true => rfl
    | false =>
      have later : j ∈ rest := (List.mem_cons.mp mem).resolve_left (fun same => by simp [same] at at_j)
      obtain ⟨i, kept, same⟩ := List.any_eq_true.mp (ih later)
      have other : (i == k) = false := (BEq.congr_left same).trans (unequalSymm at_j)
      exact List.any_eq_true.mpr ⟨i, withoutMem.mpr ⟨kept, other⟩, same⟩

/-- The key itself or one of its rivals. -/
def Named (rivals : List K) (k j : K) : Prop := (j == k) = true ∨ rivals.any (· == j) = true

theorem Named.congr [EquivBEq K] {rivals : List K} {k i j : K} (named : Named rivals k j)
    (same : (i == j) = true) : Named rivals k i := by
  rcases named with at_k | rival
  · exact .inl (BEq.trans same at_k)
  · obtain ⟨r, mem, at_j⟩ := List.any_eq_true.mp rival
    exact .inr (List.any_eq_true.mpr ⟨r, mem, BEq.trans at_j (BEq.symm same)⟩)

/-- An entry of the key stands on the list, and those before it are of rivals. -/
inductive Behind (rivals : List K) (k : K) : List (K × V) → Prop where
  | after (front : List (K × V)) {e : K × V} (rest : List (K × V)) (at_k : (e.1 == k) = true)
      (ahead : ∀ d ∈ front, rivals.any (· == d.1) = true) : Behind rivals k (front ++ e :: rest)

namespace Behind
variable {rivals : List K} {k : K} {entries : List (K × V)}

theorem first {e : K × V} (at_k : (e.1 == k) = true) (rest : List (K × V)) : Behind rivals k (e :: rest) :=
  .after [] rest at_k nofun

theorem next {e : K × V} (behind : Behind rivals k entries) (named : Named rivals k e.1) :
    Behind rivals k (e :: entries) := by
  rcases named with at_k | rival
  · exact first at_k entries
  · obtain ⟨front, rest, at_k, ahead⟩ := behind
    refine .after (e :: front) rest at_k (fun d mem => ?_)
    rcases List.mem_cons.mp mem with rfl | mem
    · exact rival
    · exact ahead d mem

theorem held (behind : Behind rivals k entries) : ∃ e ∈ entries, (e.1 == k) = true := by
  obtain ⟨front, rest, at_k, _⟩ := behind
  exact ⟨_, by simp, at_k⟩

theorem revalued (behind : Behind rivals k entries) (j : K) (v : V) :
    Behind rivals k (Shelf.revalued j v entries) := by
  have keys (d : K × V) : (if d.1 == j then (d.1, v) else d).1 = d.1 := by split <;> rfl
  obtain ⟨front, rest, at_k, ahead⟩ := behind
  unfold Shelf.revalued
  rw [List.map_append, List.map_cons]
  refine .after _ _ ((congrArg (· == k) (keys _)).trans at_k) (fun d mem => ?_)
  obtain ⟨d, held, rfl⟩ := List.mem_map.mp mem
  rw [keys]
  exact ahead d held

variable [EquivBEq K]

theorem without (behind : Behind rivals k entries) {j : K} (other : (j == k) = false) :
    Behind rivals k (without Prod.fst entries j) := by
  obtain ⟨front, rest, at_k, ahead⟩ := behind
  have stays := (BEq.congr_left at_k).trans (Keyed.unequalSymm other)
  rw [Keyed.withoutAppend, Keyed.withoutCons, stays]
  exact .after _ _ at_k (fun d mem => ahead d (Keyed.withoutMem.mp mem).1)

/- No two entries are of one rival, so there are no more of them than rivals. -/
theorem take (behind : Behind rivals k entries) (apart : Apart Prod.fst entries) {most : Nat}
    (few : rivals.length < most) : Behind rivals k (entries.take most) := by
  obtain ⟨front, rest, at_k, ahead⟩ := behind
  have shorter : front.length ≤ rivals.length :=
    Keyed.apartLength (Keyed.apartAppend.mp apart).1 rivals ahead
  obtain ⟨more, room⟩ : ∃ more, most - front.length = more + 1 := ⟨most - front.length - 1, by omega⟩
  rw [List.take_append, room, List.take_succ_cons, List.take_of_length_le (by omega)]
  exact .after _ _ at_k ahead

end Behind

namespace Shelf

/-- The second shelf comes of the first while only certain keys are used: what can be done to it. Others
may be pinned and removed. The entries evicted are listed in order. -/
inductive Passes (rivals : List K) (k : K) (s : Shelf K V) : List (K × V) → Shelf K V → Prop where
  | none : Passes rivals k s [] s
  | touched {gone t} (earlier : Passes rivals k s gone t) {j : K} (named : Named rivals k j) :
      Passes rivals k s gone (t.touch j)
  | replaced {gone t} (earlier : Passes rivals k s gone t) (j : K) (v : V) :
      Passes rivals k s gone (t.replace j v)
  | entered {gone t} (earlier : Passes rivals k s gone t) {j : K} (v : V) (pinned : Bool)
      (absent : t.find? j = .none) (named : pinned = true ∨ Named rivals k j) :
      Passes rivals k s gone (t.enter j v pinned)
  | pinned {gone t} (earlier : Passes rivals k s gone t) (j : K) : Passes rivals k s gone (t.pin j)
  | unpinned {gone t} (earlier : Passes rivals k s gone t) {j : K} (named : Named rivals k j) :
      Passes rivals k s gone (t.unpin j)
  | removed {gone t} (earlier : Passes rivals k s gone t) {j : K} (other : (j == k) = false) :
      Passes rivals k s gone (t.remove j)
  | fitted {gone t} (earlier : Passes rivals k s gone t) : Passes rivals k s (gone ++ t.surplus) t.fitted

/-- The key is on the shelf, and if it is not among the pinned entries, only rivals stand before it. -/
structure Retains (rivals : List K) (k : K) (s : Shelf K V) : Prop where
  apart : Apart Prod.fst s.entries
  spare : ∀ most, s.capacity = some most → rivals.length < most
  placed : (∃ e ∈ s.pinned, (e.1 == k) = true) ∨ Behind rivals k s.recent

namespace Retains
variable {rivals : List K} {k : K} {s : Shelf K V}

theorem recent (retains : Retains rivals k s) : Apart Prod.fst s.recent :=
  (Keyed.apartAppend.mp retains.apart).1

theorem held (retains : Retains rivals k s) : ∃ e ∈ s.entries, (e.1 == k) = true := by
  rcases retains.placed with ⟨e, mem, at_k⟩ | behind
  · exact ⟨e, entriesMem.mpr (.inr mem), at_k⟩
  · obtain ⟨e, mem, at_k⟩ := behind.held
    exact ⟨e, entriesMem.mpr (.inl mem), at_k⟩

theorem replace (retains : Retains rivals k s) (j : K) (v : V) : Retains rivals k (s.replace j v) where
  apart := by
    have keys := keysRevalued j v s.entries
    have apart := (Keyed.apartMapped id Prod.fst s.entries).mpr retains.apart
    rw [replaceEntries]
    exact (Keyed.apartMapped id Prod.fst _).mp (keys ▸ apart)
  spare := retains.spare
  placed := by
    rcases retains.placed with ⟨e, mem, at_k⟩ | behind
    · refine .inl ⟨_, List.mem_map_of_mem mem, ?_⟩
      split <;> exact at_k
    · exact .inr (behind.revalued j v)

variable [EquivBEq K]

theorem touch (retains : Retains rivals k s) {j : K} (named : Named rivals k j) :
    Retains rivals k (s.touch j) := by
  refine ⟨(Keyed.apartPerm (touchEntries retains.recent j)).mpr retains.apart, ?_, ?_⟩
  · unfold Shelf.touch
    split <;> exact retains.spare
  · unfold Shelf.touch
    split
    · refine retains.placed.imp id (fun behind => ?_)
      cases found : find Prod.fst s.recent j with
      | none =>
        rw [Keyed.withoutNone (Keyed.findNone.mp found)]
        exact behind
      | some e =>
        have at_j := (Keyed.findMem found).2
        cases at_k : j == k with
        | true => exact Behind.first (BEq.trans at_j at_k) _
        | false => exact (behind.without at_k).next (named.congr at_j)
    · exact retains.placed

theorem enter (retains : Retains rivals k s) {j : K} (v : V) {pinned : Bool} (absent : s.find? j = none)
    (named : pinned = true ∨ Named rivals k j) : Retains rivals k (s.enter j v pinned) := by
  refine ⟨?_, ?_, ?_⟩
  · rw [findEntries, Option.map_eq_none_iff] at absent
    exact (Keyed.apartPerm (s.enterEntries j v pinned)).mpr
      (Keyed.apartCons.mpr ⟨Keyed.findNone.mp absent, retains.apart⟩)
  · unfold Shelf.enter
    split <;> exact retains.spare
  · cases pinned with
    | true => exact retains.placed.imp (fun ⟨e, mem, at_k⟩ => ⟨e, List.mem_cons_of_mem _ mem, at_k⟩) id
    | false => exact retains.placed.imp id (fun behind => behind.next (named.resolve_left nofun))

theorem pin (retains : Retains rivals k s) (j : K) : Retains rivals k (s.pin j) := by
  refine ⟨(Keyed.apartPerm (pinEntries retains.recent j)).mpr retains.apart, retains.spare, ?_⟩
  rcases retains.placed with ⟨e, mem, at_k⟩ | behind
  · exact .inl ⟨e, List.mem_append_right _ mem, at_k⟩
  · cases at_k : j == k with
    | false => exact .inr (behind.without at_k)
    | true =>
      obtain ⟨e, mem, same⟩ := behind.held
      have at_j := BEq.trans same (BEq.symm at_k)
      have found := Keyed.findOf retains.recent mem at_j
      refine .inl ⟨e, List.mem_append_left _ ?_, same⟩
      rw [found]
      exact List.mem_singleton_self e

theorem unpin (retains : Retains rivals k s) {j : K} (named : Named rivals k j) :
    Retains rivals k (s.unpin j) := by
  have pinned := (Keyed.apartAppend.mp retains.apart).2.1
  refine ⟨(Keyed.apartPerm (unpinEntries pinned j)).mpr retains.apart, retains.spare, ?_⟩
  unfold Shelf.unpin
  cases found : find Prod.fst s.pinned j with
  | none =>
    rw [Keyed.withoutNone (Keyed.findNone.mp found)]
    exact retains.placed
  | some d =>
    have at_j := (Keyed.findMem found).2
    cases at_k : j == k with
    | true => exact .inr (Behind.first (BEq.trans at_j at_k) _)
    | false =>
      refine retains.placed.imp (fun ⟨e, mem, same⟩ => ⟨e, Keyed.withoutMem.mpr ⟨mem, ?_⟩, same⟩)
        (fun behind => behind.next (named.congr at_j))
      exact (BEq.congr_left same).trans (Keyed.unequalSymm at_k)

theorem remove (retains : Retains rivals k s) {j : K} (other : (j == k) = false) :
    Retains rivals k (s.remove j) := by
  refine ⟨?_, retains.spare, ?_⟩
  · rw [removeEntries]
    exact Keyed.apartWithout retains.apart j
  · refine retains.placed.imp (fun ⟨e, mem, at_k⟩ => ⟨e, Keyed.withoutMem.mpr ⟨mem, ?_⟩, at_k⟩)
      (fun behind => behind.without other)
    exact (BEq.congr_left at_k).trans (Keyed.unequalSymm other)

theorem fit (retains : Retains rivals k s) :
    Retains rivals k s.fitted ∧ ∀ e ∈ s.surplus, (e.1 == k) = false := by
  have apart : Apart Prod.fst (s.fitted.entries ++ s.surplus) :=
    (Keyed.apartPerm s.fittedEntries).mpr retains.apart
  obtain ⟨stay, _, parted⟩ := Keyed.apartAppend.mp apart
  have fitted : Retains rivals k s.fitted := by
    refine ⟨stay, ?_, ?_⟩
    · unfold Shelf.fitted
      split <;> exact retains.spare
    · unfold Shelf.fitted
      cases capped : s.capacity with
      | none => exact retains.placed
      | some most =>
        exact retains.placed.imp id (fun behind => behind.take retains.recent (retains.spare most capped))
  refine ⟨fitted, fun e leaves => ?_⟩
  -- The key's own entry stays, and there is no other of the key.
  obtain ⟨d, stays, at_k⟩ := fitted.held
  have other := parted d stays e leaves
  exact Keyed.unequalSymm ((BEq.congr_left at_k).symm.trans other)

theorem passes {gone : List (K × V)} {t : Shelf K V} (retains : Retains rivals k s)
    (passes : s.Passes rivals k gone t) : Retains rivals k t ∧ ∀ e ∈ gone, (e.1 == k) = false := by
  induction passes with
  | none => exact ⟨retains, nofun⟩
  | touched earlier named ih => exact ⟨ih.1.touch named, ih.2⟩
  | replaced earlier j v ih => exact ⟨ih.1.replace j v, ih.2⟩
  | entered earlier v pinned absent named ih => exact ⟨ih.1.enter v absent named, ih.2⟩
  | pinned earlier j ih => exact ⟨ih.1.pin j, ih.2⟩
  | unpinned earlier named ih => exact ⟨ih.1.unpin named, ih.2⟩
  | removed earlier other ih => exact ⟨ih.1.remove other, ih.2⟩
  | fitted earlier ih =>
    obtain ⟨fitted, spared⟩ := ih.1.fit
    refine ⟨fitted, fun e mem => ?_⟩
    rcases List.mem_append.mp mem with mem | mem
    · exact ih.2 e mem
    · exact spared e mem

end Retains

theorem Passes.capacity {rivals : List K} {k : K} {s t : Shelf K V} {gone : List (K × V)}
    (passes : s.Passes rivals k gone t) : t.capacity = s.capacity := by
  induction passes with
  | none => rfl
  | touched earlier named ih =>
    unfold Shelf.touch
    split <;> exact ih
  | entered earlier v pinned absent named ih =>
    unfold Shelf.enter
    split <;> exact ih
  | fitted earlier ih =>
    unfold Shelf.fitted
    split <;> exact ih
  | _ => assumption

theorem Passes.still {rivals : List K} {k : K} {s t : Shelf K V} {gone : List (K × V)}
    (passes : s.Passes rivals k gone t) : s.Passes rivals k (gone ++ []) t := by
  rw [List.append_nil]
  exact passes

end Shelf

end TieredCache
