import TieredCache.Proofs.Stock

/-! The pinned keys are what the calls say, whatever becomes of the entries: a pin adds its key, an
unpin and a removal take theirs out, a clearing takes out all. -/
namespace TieredCache
open Keyed (find without)
variable {K V : Type} [BEq K]

def withPin (pins : List K) (k : K) : List K := if pins.any (· == k) then pins else pins ++ [k]

/-- Does this call, when its key has identity, end the pin on the key? -/
def Call.frees (k : K) : Call K V → Bool
  | .remove j => j == k
  | .unpin j => j == k
  | .clear => true
  | _ => false

def Call.pinned [Identity K] (pins : List K) : Call K V → List K
  | .pin j => if Identity.valid j then withPin pins j else pins
  | .remove j => if Identity.valid j then without id pins j else pins
  | .unpin j => if Identity.valid j then without id pins j else pins
  | .clear => []
  | _ => pins

theorem withPinKept {pins : List K} {k : K} (held : pins.any (· == k) = true) (j : K) :
    (withPin pins j).any (· == k) = true := by
  unfold withPin
  split
  · exact held
  · rw [List.any_append, held, Bool.true_or]

theorem withoutKept [EquivBEq K] {pins : List K} {k j : K} (held : pins.any (· == k) = true)
    (other : (j == k) = false) : (without id pins j).any (· == k) = true := by
  obtain ⟨i, mem, at_k⟩ := List.any_eq_true.mp held
  have apart : (i == j) = false := by
    rw [BEq.congr_left at_k]
    exact Keyed.unequalSymm other
  exact List.any_eq_true.mpr ⟨i, Keyed.withoutMem.mpr ⟨mem, apart⟩, at_k⟩

theorem Call.pinnedKept [EquivBEq K] [Identity K] {pins : List K} {call : Call K V} {k : K}
    (held : pins.any (· == k) = true) (kept : call.frees k = false) :
    (call.pinned pins).any (· == k) = true := by
  cases call with
  | pin j =>
    simp only [Call.pinned]
    split
    · exact withPinKept held j
    · exact held
  | remove j =>
    simp only [Call.pinned]
    split
    · exact withoutKept held kept
    · exact held
  | unpin j =>
    simp only [Call.pinned]
    split
    · exact withoutKept held kept
    · exact held
  | clear => exact Bool.noConfusion kept
  | _ => exact held

namespace Plain
variable (filter : Filter K V) (now : Nat) (p : Plain K V) (k : K)

theorem withdrawPins : (p.withdraw now k).plain.pins = p.pins := by
  unfold withdraw
  cases find Admission.key p.line.waiting k with
  | none => rfl
  | some a =>
    dsimp only
    split <;> rfl

theorem markPins : (p.mark k).pins = withPin p.pins k := by
  unfold mark isPinned withPin
  split <;> rfl

theorem fetchPins : (p.fetch filter now k).plain.pins = p.pins := by
  have taken := p.withdrawPins now k
  unfold fetch
  cases p.shelf.find? k with
  | some v => rfl
  | none =>
    dsimp only
    cases (p.withdraw now k).answer with
    | none => exact taken
    | some v => exact taken

theorem storePins (v : V) : (p.store filter now k v).plain.pins = p.pins := by
  have taken := p.withdrawPins now k
  unfold store
  cases p.shelf.find? k with
  | some old => rfl
  | none => exact taken

theorem storeAllPins (entries : List (K × V)) : (p.storeAll filter now entries).plain.pins = p.pins := by
  induction entries generalizing p with
  | nil => rfl
  | cons e rest ih => exact (ih _).trans (p.storePins filter now e.1 e.2)

theorem discardPins : (p.discard now k).plain.pins = without id p.pins k :=
  withdrawPins now { p with shelf := p.shelf.remove k, pins := without id p.pins k } k

theorem holdPins : (p.hold now k).plain.pins = withPin p.pins k := by
  have taken := p.withdrawPins now k
  unfold hold
  cases p.shelf.find? k with
  | some v => exact markPins { p with shelf := p.shelf.pin k } k
  | none =>
    dsimp only
    cases (p.withdraw now k).answer with
    | none =>
      dsimp only
      rw [markPins, taken]
    | some v =>
      dsimp only
      rw [markPins]
      exact congrArg (withPin · k) taken

theorem releasePins : (p.release filter now k).plain.pins = without id p.pins k := by
  unfold release
  cases p.shelf.find? k <;> rfl

variable [Identity K]

omit [BEq K] in
theorem givenPins {op : KeyedOp} {turn : Turn K V (Reply K V)} {pins : List K}
    (kept : turn.plain.pins = pins) :
    (p.given op [k] turn).plain.pins = if Identity.valid k then pins else p.pins := by
  unfold given
  rw [List.all_cons, List.all_nil, Bool.and_true]
  split
  · exact kept
  · rfl

theorem stepPins (call : Call K V) : (p.step filter now call).plain.pins = call.pinned p.pins := by
  cases call with
  | get k => exact (p.givenPins k (p.fetchPins filter now k)).trans (ite_self _)
  | put k v => exact (p.givenPins k (p.storePins filter now k v)).trans (ite_self _)
  | putAll entries =>
    have stored := p.storeAllPins filter now entries
    simp only [Plain.step, Plain.given]
    split
    · exact stored
    · rfl
  | remove k => exact p.givenPins k (p.discardPins now k)
  | pin k => exact p.givenPins k (p.holdPins now k)
  | unpin k => exact p.givenPins k (p.releasePins filter now k)
  | isPinned k => exact (p.givenPins k rfl).trans (ite_self _)
  | containsKey k => exact (p.givenPins k rfl).trans (ite_self _)
  | peek k => exact (p.givenPins k rfl).trans (ite_self _)
  | _ => rfl

end Plain
end TieredCache
