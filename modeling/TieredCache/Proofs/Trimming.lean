import TieredCache.Proofs.Admitting
import TieredCache.Proofs.Records

/-! The overflow tier with nothing taken for granted: a queue at its end while more handles are held than may be is a
lapse, and so is a generation that does not fit 64 bits. As every handle has a record of its own in the queue, no run
with fewer offers than there are generations comes to a lapse. -/
namespace TieredCache.Overflow
open Keyed (Apart)
variable {K V : Type}

inductive Lapse where
  | drained (held : Nat)
  | overdrawn
  deriving DecidableEq, Repr

def storeStrict [BEq K] (o : Overflow K V) (now : Nat) (k : K) (v : V) : Except Lapse (Overflow K V) :=
  if o.nextGeneration + 1 < UInt64.size then .ok (o.store now k v) else .error .overdrawn

variable [BEq K]

def trimQueueStrict (limit : Nat) :
    List (Record K) → Dict K (Handle V) → Except Lapse (List K × List (Record K) × Dict K (Handle V))
  | [], held => if held.size ≤ limit then .ok ([], [], held) else .error (.drained held.size)
  | r :: rest, held =>
      if held.size ≤ limit then .ok ([], r :: rest, held)
      else if (current held r).isSome then do
        let trimmed ← trimQueueStrict limit rest (held.erase r.key)
        return (r.key :: trimmed.1, trimmed.2)
      else trimQueueStrict limit rest held

def trimStrict (o : Overflow K V) : Except Lapse (List K × Overflow K V) :=
  match o.bound with
  | none => .ok ([], o)
  | some limit => do
      let trimmed ← trimQueueStrict limit o.queue o.held
      return (trimmed.1, { o with queue := trimmed.2.1, held := trimmed.2.2 })

def acceptStrict (o : Overflow K V) (now : Nat) (k : K) (v : V) : Except Lapse (Receipt K × Overflow K V) :=
  if o.enabled then do
    let swept := o.sweep now
    let stored ← swept.2.storeStrict now k v
    let trimmed ← stored.trimStrict
    return (.admitted (swept.1 ++ trimmed.1), trimmed.2.compact)
  else .ok (.refused k, o)

def setBoundStrict (o : Overflow K V) (bound : Option Nat) : Except Lapse (List K × Overflow K V) := do
  let trimmed ← { o with bound }.trimStrict
  return (trimmed.1, trimmed.2.compact)

def stepStrict (o : Overflow K V) (now : Nat) : Call K V → Except Lapse (Reply K V × Overflow K V)
  | .accept k v => do let accepted ← o.acceptStrict now k v; return (.receipt accepted.1, accepted.2)
  | .setBound n => do let trimmed ← o.setBoundStrict n; return (.displaced trimmed.1, trimmed.2)
  | .withdraw k => .ok (o.step now (.withdraw k))
  | .lookup k => .ok (o.step now (.lookup k))
  | .contains k => .ok (o.step now (.contains k))
  | .dropExpired => .ok (o.step now .dropExpired)
  | .enabled => .ok (o.step now .enabled)
  | .bound => .ok (o.step now .bound)
  | .clear => .ok (o.step now .clear)

def runStrict (o : Overflow K V) (calls : List (Nat × Call K V)) : Except Lapse (Overflow K V) :=
  calls.foldlM (fun o call => Prod.snd <$> o.stepStrict call.1 call.2) o

omit [BEq K] in
theorem offersSplit (call : Nat × Call K V) (rest : List (Nat × Call K V)) :
    (offerTimes (call :: rest)).length = (offerTimes [call]).length + (offerTimes rest).length := by
  rw [offerTimes, ← List.singleton_append, List.filterMap_append, List.length_append]
  rfl

/- An offer moves the next generation by one at most, and nothing else moves it. -/
theorem stepDraws (o : Overflow K V) (now : Nat) (call : Call K V) :
    (o.step now call).2.nextGeneration ≤ o.nextGeneration + (offerTimes [(now, call)]).length := by
  cases call with
  | accept k v =>
    show (o.accept now k v).2.nextGeneration ≤ o.nextGeneration + 1
    rw [o.acceptDraws]
    split <;> omega
  | withdraw k => exact Nat.le_of_eq (o.withdrawDraws now k)
  | dropExpired => exact Nat.le_of_eq (compactDraws _)
  | setBound n => exact Nat.le_of_eq ((compactDraws _).trans (trimDraws _))
  | lookup | contains | enabled | bound | clear => exact Nat.le_refl _

variable [EquivBEq K]

/- As long as handles are left, records are. -/
theorem Queued.trimStrict (limit : Nat) {held : Dict K (Handle V)} {queue : List (Record K)} {cells : List (Cell K V)}
    (queued : Queued held queue cells) : trimQueueStrict limit queue held = .ok (trimQueue limit queue held) := by
  induction queue generalizing held cells with
  | nil =>
    have none : cells = [] := by simpa using queued.records.symm
    have size := queued.size
    rw [none, List.length_nil] at size
    unfold trimQueueStrict
    rw [if_pos (by omega)]
    rfl
  | cons r rest ih =>
    unfold trimQueueStrict
    by_cases fits : held.size ≤ limit
    · rw [if_pos fits, trimFits fits]
    · rw [if_neg fits, trimLong fits]
      cases front : current held r with
      | none => exact ih (queued.dropStale front)
      | some h =>
        obtain ⟨c, others, rfl, record, rfl⟩ := queued.frontCurrent front
        show trimQueueStrict limit rest (held.erase r.key) >>= _ = _
        rw [ih (queued.eraseFront record)]
        rfl

namespace Layout
variable {o : Overflow K V} {cells : List (Cell K V)}

theorem trimStrict (layout : o.Layout cells) : o.trimStrict = .ok o.trim := by
  unfold Overflow.trimStrict Overflow.trim
  cases o.bound with
  | none => rfl
  | some limit =>
    dsimp only
    rw [layout.queued.trimStrict limit]
    rfl

theorem acceptStrict (layout : o.Layout cells) (few : o.nextGeneration + 1 < UInt64.size) (now : Nat) (k : K) (v : V) :
    o.acceptStrict now k v = .ok (o.accept now k v) := by
  obtain ⟨_, swept, _⟩ := layout.sweep now
  have stored : (o.sweep now).2.storeStrict now k v = .ok ((o.sweep now).2.store now k v) := by
    unfold storeStrict
    rw [o.sweepDraws now, if_pos few]
  unfold Overflow.acceptStrict accept
  split
  · dsimp only
    rw [stored]
    show ((o.sweep now).2.store now k v).trimStrict >>= _ = _
    rw [(swept.store now k v).trimStrict]
    rfl
  · rfl

theorem setBoundStrict (layout : o.Layout cells) (n : Option Nat) : o.setBoundStrict n = .ok (o.setBound n) := by
  have resized : Layout { o with bound := n } cells := ⟨layout.queued, layout.fresh⟩
  unfold Overflow.setBoundStrict
  rw [resized.trimStrict]
  rfl

theorem stepStrict (layout : o.Layout cells) (now : Nat) (call : Call K V)
    (few : o.nextGeneration + (offerTimes [(now, call)]).length < UInt64.size) :
    o.stepStrict now call = .ok (o.step now call) := by
  cases call with
  | accept k v => exact congrArg (· >>= _) (layout.acceptStrict few now k v)
  | setBound n => exact congrArg (· >>= _) (layout.setBoundStrict n)
  | withdraw | lookup | contains | dropExpired | enabled | bound | clear => rfl

end Layout

variable {o : Overflow K V} {l : Line K V}

theorem runHeldStrict (holds : o.Holds l) (calls : List (Nat × Call K V))
    (few : o.nextGeneration + (offerTimes calls).length < UInt64.size) : o.runStrict calls = .ok (o.run calls) := by
  induction calls generalizing o l with
  | nil => rfl
  | cons call rest ih =>
    obtain ⟨now, call⟩ := call
    have offers := offersSplit (now, call) rest
    have drawn := o.stepDraws now call
    have later := ih (stepHolds holds now call).2 (by omega)
    obtain ⟨cells, layout, _, _⟩ := holds
    unfold runStrict
    rw [List.foldlM_cons, layout.stepStrict now call (by omega)]
    exact later

/-- What leaves the tier when it is swept, and when it is trimmed after an admission or for another bound, leaves by its
own record. -/
structure Spared (tier : Overflow K V) : Prop where
  swept : ∀ now, tier.ByRecord (fun o => o.sweep now)
  admitting : ∀ now k v, ((tier.sweep now).2.store now k v).ByRecord trim
  resized : ∀ n, ByRecord { tier with bound := n } trim

theorem spared (holds : o.Holds l) : o.Spared where
  swept := fun now => sweepByRecord (heldApart holds) now
  admitting := fun now k v => trimByRecord
    (Dict.insertApart (Keyed.apartSublist (heldApart holds) (sweepThins (heldApart holds) now).held) k _)
  resized := by
    intro n
    have apart := heldApart holds
    exact trimByRecord (o := { o with bound := n }) apart

theorem runAccounted (bound lifetime : Option Nat) (calls : List (Nat × Call K V)) :
    let start : Overflow K V := empty bound lifetime
    let tier := start.run calls
    tier.Accounted ∧
    (∀ r ∈ tier.queue, tier.Stale r → ∀ later, (tier.run later).Stale r) ∧
    ((offerTimes calls).length < UInt64.size → start.runStrict calls = .ok tier) ∧
    tier.Spared ∧
    ∀ u : Overflow K V, u.compact.held = u.held ∧ u.Retains u.compact := by
  intro start tier
  have empty := emptyHolds (K := K) (V := V) bound lifetime
  have holds := (runHolds empty calls).2
  obtain ⟨newest, within⟩ := runNewest empty (fun most _ => Nat.zero_le most)
    (fun r mem => absurd mem List.not_mem_nil) calls
  have invariant := accounted holds within newest
  refine ⟨invariant, fun r mem stale later => stale.run holds (invariant.issued r mem) later, fun few => ?_,
    spared holds, fun u => ⟨u.compactKeeps.1, compactRetains u⟩⟩
  exact runHeldStrict empty calls (by simpa [start, Overflow.empty] using few)

/- Key 1 is admitted and taken out and admitted again, twice over, behind key 2. A sweep at 12 takes 2, which has
expired, and after it the stale records of 1, and stops at the handle of 1, which has not. -/
theorem runAccountedSmall :
    let calls : List (Nat × Call Nat Nat) :=
      [(0, .accept 2 20), (1, .accept 1 10), (2, .withdraw 1), (3, .accept 1 11), (4, .withdraw 1), (9, .accept 1 12)]
    let start : Overflow Nat Nat := empty (some 2) (some 10)
    let tier := start.run calls
    (tier.queue = [⟨2, 0⟩, ⟨1, 1⟩, ⟨1, 2⟩, ⟨1, 3⟩] ∧ tier.held.entries = [(2, ⟨20, 0, 0⟩), (1, ⟨12, 9, 3⟩)] ∧
      (tier.sweep 12).2.queue = [⟨1, 3⟩] ∧ (tier.sweep 12).2.held.entries = [(1, ⟨12, 9, 3⟩)]) ∧
    tier.Accounted ∧ tier.Stale ⟨1, 2⟩ ∧ (∀ later, (tier.run later).Stale ⟨1, 2⟩) ∧ start.runStrict calls = .ok tier ∧
    tier.Spared ∧ ∀ u : Overflow Nat Nat, u.compact.held = u.held ∧ u.Retains u.compact := by
  intro calls start tier
  have stale : tier.Stale ⟨1, 2⟩ := by decide
  obtain ⟨invariant, forever, strict, left, compacted⟩ := runAccounted (some 2) (some 10) calls
  exact ⟨by decide, invariant, stale, forever ⟨1, 2⟩ (by decide) stale, strict (by decide), left, compacted⟩

end TieredCache.Overflow
