import TieredCache.Proofs.Plain

/-! How many entries of a key the plain cache holds, expired ones included, and how often the key is
heard reclaimed. What leaves the shelf is offered to the line, what the line does not take or drops
is reported: no entry is lost in silence and none is reported that was not there. -/
namespace TieredCache
open Keyed (Apart find without copies)
variable {K V : Type} [BEq K]

def Event.loses (k : K) : Event K V → Bool
  | .reclaimed j => j == k
  | .evicted _ _ => false

def heard (k : K) (events : List (Event K V)) : Nat := events.countP (Event.loses k)

theorem heardAppend (k : K) (first second : List (Event K V)) :
    heard k (first ++ second) = heard k first + heard k second := by
  simp [heard]

theorem heardReclaimed (k : K) (keys : List K) :
    heard k (keys.map .reclaimed : List (Event K V)) = copies id keys k := by
  simp [heard, copies, List.countP_map, Function.comp_def, Event.loses]

theorem heardEvicted (k : K) (victims : List (K × V)) :
    heard k (victims.map (fun e => .evicted e.1 e.2)) = 0 := by
  simp [heard, Event.loses]

namespace Shelf

def stock (s : Shelf K V) (k : K) : Nat := copies Prod.fst s.entries k

theorem stockEnter (s : Shelf K V) (k : K) (v : V) (pinned : Bool) (j : K) :
    (s.enter k v pinned).stock j = s.stock j + if k == j then 1 else 0 :=
  (Keyed.copiesPerm Prod.fst (s.enterEntries k v pinned) j).trans (Keyed.copiesCons _ _ _ _)

theorem stockFitted (s : Shelf K V) (j : K) :
    s.fitted.stock j + copies Prod.fst s.surplus j = s.stock j :=
  (Keyed.copiesAppend _ _ _ _).symm.trans (Keyed.copiesPerm Prod.fst s.fittedEntries j)

theorem keysRevalued (k : K) (v : V) (entries : List (K × V)) :
    (revalued k v entries).map Prod.fst = entries.map Prod.fst := by
  unfold revalued
  rw [List.map_map]
  refine List.map_congr_left (fun e _ => ?_)
  simp only [Function.comp_apply]
  split <;> rfl

theorem stockReplace (s : Shelf K V) (k : K) (v : V) (j : K) : (s.replace k v).stock j = s.stock j := by
  have keys := congrArg (fun keys => copies id keys j) (keysRevalued k v s.entries)
  simp only [Keyed.copiesKeys] at keys
  rw [stock, replaceEntries, keys, stock]

theorem foundStock (s : Shelf K V) (k : K) : (s.find? k).isSome = (0 < s.stock k) := by
  have none : copies Prod.fst s.entries k = 0 ↔ find Prod.fst s.entries k = none := Keyed.copiesNone
  rw [findEntries, Option.isSome_map, Nat.pos_iff_ne_zero, stock, Ne, none]
  cases find Prod.fst s.entries k <;> simp

theorem stockRemove [EquivBEq K] (s : Shelf K V) (apart : Apart Prod.fst s.entries) (k j : K) :
    (s.remove k).stock j + (if (s.find? k).isSome && k == j then 1 else 0) = s.stock j := by
  rw [findEntries, Option.isSome_map, stock, removeEntries]
  exact Keyed.copiesWithout apart k j

end Shelf

namespace Line

def stock (l : Line K V) (k : K) : Nat := copies Admission.key l.waiting k

theorem stockFit (l : Line K V) (j : K) : (l.fit).2.stock j + copies id (l.fit).1 j = l.stock j :=
  l.fitCounted (· == j)

theorem stockReceive (filter : Filter K V) (now : Nat) (victims : List (K × V)) (l : Line K V) (j : K) :
    (l.receive filter now victims).2.stock j + copies id (l.receive filter now victims).1 j =
      l.stock j + copies Prod.fst victims j :=
  l.receiveCounted (· == j) filter now victims

theorem stockPurge (l : Line K V) (now : Nat) (j : K) :
    (l.purge now).2.stock j + copies id (l.purge now).1 j = l.stock j :=
  l.purgeCounted (· == j) now

end Line

namespace Plain

def stock (p : Plain K V) (k : K) : Nat := p.shelf.stock k + p.line.stock k

def Single (p : Plain K V) : Prop := ∀ k, p.stock k ≤ 1

theorem heardLose (p : Plain K V) (keys : List K) (j : K) :
    heard j (p.lose keys).events = copies id keys j := heardReclaimed j keys

theorem stockSettle (filter : Filter K V) (now : Nat) (p : Plain K V) (j : K) :
    (p.settle filter now).plain.stock j + heard j (p.settle filter now).events = p.stock j := by
  have kept := p.shelf.stockFitted j
  have received := Line.stockReceive filter now p.shelf.surplus p.line j
  unfold settle
  rw [heardAppend, heardEvicted, heardLose]
  show p.shelf.fitted.stock j + (p.line.receive filter now p.shelf.surplus).2.stock j + _ =
    p.shelf.stock j + p.line.stock j
  omega

theorem stockEnter (p : Plain K V) (k : K) (v : V) (j : K) :
    (p.enter k v).stock j = p.stock j + if k == j then 1 else 0 := by
  have entered := p.shelf.stockEnter k v (p.isPinned k) j
  show (p.shelf.enter k v (p.isPinned k)).stock j + p.line.stock j = _
  rw [entered, stock, Nat.add_right_comm]

theorem stockMark (p : Plain K V) (k j : K) : (p.mark k).stock j = p.stock j := by
  unfold mark
  split <;> rfl

theorem pinnedCongr [EquivBEq K] (p : Plain K V) {k j : K} (same : (k == j) = true) :
    p.isPinned k = p.isPinned j := by
  unfold isPinned
  congr 1
  funext i
  exact BEq.congr_right same

theorem stockCongr [EquivBEq K] (p : Plain K V) {k j : K} (same : (k == j) = true) :
    p.stock k = p.stock j := by
  unfold stock Shelf.stock Line.stock
  rw [Keyed.copiesCongr same, Keyed.copiesCongr same]

theorem markPinned [EquivBEq K] (p : Plain K V) (k j : K) :
    (p.mark k).isPinned j = (p.isPinned j || k == j) := by
  unfold mark
  split
  · rename_i marked
    cases same : k == j with
    | false => rw [Bool.or_false]
    | true => rw [p.pinnedCongr same] at marked; rw [marked]; rfl
  · simp [isPinned]

theorem markKeeps (p : Plain K V) (k : K) : (p.mark k).shelf = p.shelf ∧ (p.mark k).line = p.line := by
  unfold mark
  split <;> exact ⟨rfl, rfl⟩

theorem unmarked [EquivBEq K] (p : Plain K V) (k j : K) :
    (without id p.pins k).any (· == j) = (p.isPinned j && !(k == j)) := by
  have each : ∀ i, (!(i == k) && i == j) = (i == j && !(k == j)) := by
    intro i
    cases at_j : i == j with
    | false => simp
    | true => rw [BEq.congr_left at_j, BEq.comm, Bool.and_true, Bool.true_and]
  unfold without isPinned
  simp only [id, List.any_filter, each]
  cases k == j <;> simp

theorem enterMarked [EquivBEq K] (p : Plain K V) (k : K) (v : V) :
    Plain.mark { p with shelf := p.shelf.enter k v true } k = (p.mark k).enter k v := by
  have fixed := p.markPinned k k
  rw [BEq.refl, Bool.or_true] at fixed
  unfold Plain.enter
  rw [fixed]
  unfold mark
  change (if p.isPinned k then _ else _) = _
  split <;> rfl

variable {p : Plain K V}

theorem stockNone {k : K} : p.stock k = 0 ↔
    (∀ e ∈ p.shelf.entries, (e.1 == k) = false) ∧
      ∀ a ∈ p.line.waiting, (a.key == k) = false := by
  unfold stock Shelf.stock Line.stock
  rw [Nat.add_eq_zero_iff, Keyed.copiesNone, Keyed.copiesNone, Keyed.findNone,
    Keyed.findNone]

theorem Single.either (single : p.Single) {k : K} (found : (p.shelf.find? k).isSome) :
    find Admission.key p.line.waiting k = none := by
  rw [p.shelf.foundStock k] at found
  have few := single k
  unfold stock at few
  exact Keyed.copiesNone.mp (show p.line.stock k = 0 by omega)

variable [EquivBEq K]

theorem Single.apart (single : p.Single) :
    Apart Prod.fst p.shelf.entries ∧ Apart Admission.key p.line.waiting := by
  constructor
  · exact Keyed.apartCopies.mpr (fun k => Nat.le_trans (Nat.le_add_right _ _) (single k))
  · exact Keyed.apartCopies.mpr (fun k => Nat.le_trans (Nat.le_add_left _ _) (single k))

theorem Single.recent (single : p.Single) : Apart Prod.fst p.shelf.recent :=
  (Keyed.apartAppend.mp single.apart.1).1

theorem Single.pinned (single : p.Single) : Apart Prod.fst p.shelf.pinned :=
  (Keyed.apartAppend.mp single.apart.1).2.1

theorem Single.remove (single : p.Single) (k : K) (pins : List K) :
    Single { p with shelf := p.shelf.remove k, pins } := by
  intro j
  have taken := p.shelf.stockRemove single.apart.1 k j
  have few := single j
  unfold stock at few ⊢
  dsimp only
  omega

omit [EquivBEq K] in
theorem withdrawKeeps (p : Plain K V) (now : Nat) (k : K) :
    (p.withdraw now k).plain.shelf = p.shelf ∧ (p.withdraw now k).plain.pins = p.pins ∧
    (p.withdraw now k).plain.line = p.line.remove k := by
  unfold withdraw
  cases found : find Admission.key p.line.waiting k with
  | none =>
    refine ⟨rfl, rfl, ?_⟩
    rw [Line.remove, Keyed.withoutNone (Keyed.findNone.mp found)]
  | some a =>
    dsimp only
    split <;> exact ⟨rfl, rfl, rfl⟩

theorem withdrawStock (p : Plain K V) (now : Nat) (k : K) :
    (p.withdraw now k).plain.stock k = p.shelf.stock k := by
  obtain ⟨shelf, _, line⟩ := p.withdrawKeeps now k
  have gone : (p.line.remove k).stock k = 0 :=
    Keyed.copiesNone.mpr (Keyed.findWithoutSame (BEq.refl k))
  rw [stock, shelf, line, gone, Nat.add_zero]

theorem stockWithdraw (single : p.Single) (now : Nat) (k j : K) :
    (p.withdraw now k).plain.stock j + heard j (p.withdraw now k).events +
      (if (p.withdraw now k).answer.isSome && k == j then 1 else 0) = p.stock j := by
  have taken := Keyed.copiesWithout single.apart.2 k j
  unfold withdraw
  cases found : find Admission.key p.line.waiting k with
  | none => simp [heard]
  | some a =>
    rw [found] at taken
    have left : p.line.stock j =
        (p.line.remove k).stock j + if k == j then 1 else 0 := by
      simpa [Line.stock, Line.remove] using taken.symm
    dsimp only
    split
    · rw [heardLose]
      have once : copies id [k] j = if k == j then 1 else 0 :=
        (Keyed.copiesCons id k [] j).trans (Nat.zero_add _)
      show p.shelf.stock j + (p.line.remove k).stock j + _ + _ = p.shelf.stock j + p.line.stock j
      rw [once, left]
      simp [Nat.add_assoc]
    · show p.shelf.stock j + (p.line.remove k).stock j + _ + _ = p.shelf.stock j + p.line.stock j
      rw [left]
      simp [heard, Nat.add_assoc]

end Plain
end TieredCache
