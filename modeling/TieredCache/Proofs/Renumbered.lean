import TieredCache.Cache

/-! Generations are compared and never counted. An overflow tier whose generations are all later by one number
answers every operation as before, and what it leaves is later by the same number. -/
namespace TieredCache
variable {K V W : Type}

namespace Dict

def mapValues (f : V → W) (d : Dict K V) : Dict K W := ⟨d.entries.map (fun e => (e.1, f e.2))⟩

variable (f : V → W) (d : Dict K V)

theorem mapSize : (d.mapValues f).size = d.size := List.length_map _

theorem mapKeys : (d.mapValues f).keys = d.keys := by
  simp [keys, mapValues, Function.comp_def]

theorem mapFilter (keep : K → W → Bool) :
    (d.mapValues f).filter keep = (d.filter (fun k v => keep k (f v))).mapValues f := by
  simp [filter, mapValues, List.filter_map, Function.comp_def]

variable [BEq K]

theorem mapFind (k : K) : (d.mapValues f).find? k = (d.find? k).map f := by
  simp [find?, mapValues, List.find?_map, Function.comp_def]

theorem mapErase (k : K) : (d.mapValues f).erase k = (d.erase k).mapValues f := by
  simp [erase, mapValues, List.filter_map, Function.comp_def]

theorem mapInsert (k : K) (v : V) : (d.mapValues f).insert k (f v) = (d.insert k v).mapValues f := by
  have held : (d.mapValues f).contains k = d.contains k := by
    rw [containsFind, containsFind, mapFind, Option.isSome_map]
  unfold insert
  rw [held]
  split
  · have each : ∀ e : K × V, (if e.1 == k then (e.1, f v) else (e.1, f e.2)) =
        ((if e.1 == k then (e.1, v) else e).1, f (if e.1 == k then (e.1, v) else e).2) := by
      intro e
      split <;> rfl
    simp [mapValues, Function.comp_def, each]
  · simp [mapValues]

end Dict

def Handle.later (n : Nat) (h : Handle V) : Handle V := { h with generation := n + h.generation }

def Record.later (n : Nat) (r : Record K) : Record K := { r with generation := n + r.generation }

namespace Overflow
variable (n : Nat)

def heldLater (held : Dict K (Handle V)) : Dict K (Handle V) := held.mapValues (Handle.later n)

def queueLater (queue : List (Record K)) : List (Record K) := queue.map (Record.later n)

def later (o : Overflow K V) : Overflow K V :=
  { o with held := heldLater n o.held, queue := queueLater n o.queue, nextGeneration := n + o.nextGeneration }

theorem laterLiveSize (o : Overflow K V) (now : Nat) : (o.later n).liveSize now = o.liveSize now := by
  show (o.held.entries.map _).countP _ = _
  rw [List.countP_map]
  rfl

theorem laterZero (o : Overflow K V) : o.later 0 = o := by
  have handles : (Handle.later 0 : Handle V → Handle V) = id := by
    funext h
    simp [Handle.later]
  have records : (Record.later 0 : Record K → Record K) = id := by
    funext r
    simp [Record.later]
  unfold later heldLater queueLater Dict.mapValues
  rw [handles, records, Nat.zero_add]
  simp

variable [BEq K] (held : Dict K (Handle V)) (queue : List (Record K)) (o : Overflow K V)

theorem eraseLater (k : K) : (heldLater n held).erase k = heldLater n (held.erase k) := held.mapErase _ k

theorem currentLater (r : Record K) :
    current (heldLater n held) (r.later n) = (current held r).map (Handle.later n) := by
  have same : ∀ h : Handle V, (n + h.generation == n + r.generation) = (h.generation == r.generation) := by
    intro h
    rw [Bool.eq_iff_iff, beq_iff_eq, beq_iff_eq]
    exact Nat.add_left_cancel_iff
  show (Dict.find? (held.mapValues (Handle.later n)) r.key).filter
    (fun h => h.generation == n + r.generation) = _
  unfold current
  rw [Dict.mapFind]
  cases held.find? r.key with
  | none => rfl
  | some h =>
    rw [Option.map_some, Option.filter_some, Option.filter_some]
    show (if (n + h.generation == n + r.generation) = true then _ else _) = _
    rw [same]
    split <;> rfl

theorem filterLater (keep : Option (Handle V) → Bool) (same : ∀ found, keep (found.map (Handle.later n)) = keep found) :
    (queueLater n queue).filter (fun r => keep (current (heldLater n held) r)) =
      queueLater n (queue.filter (fun r => keep (current held r))) := by
  unfold queueLater
  rw [List.filter_map]
  refine congrArg (List.map _) (List.filter_congr (fun r _ => ?_))
  rw [Function.comp_apply, currentLater, same]

theorem laterLookup (now : Nat) (k : K) : (o.later n).lookup now k = o.lookup now k := by
  show (Dict.find? (o.held.mapValues (Handle.later n)) k).bind _ = _
  rw [Dict.mapFind, Option.bind_map]
  rfl

theorem laterLiveKeys (now : Nat) : (o.later n).liveKeys now = o.liveKeys now := by
  let live (found : Option (Handle V)) : Bool := found.any (fun h => !h.expired o.lifetime now)
  have same : ∀ found, live (found.map (Handle.later n)) = live found := by
    intro found
    cases found <;> rfl
  have records := congrArg (List.map Record.key) (filterLater n o.held o.queue live same)
  refine Eq.trans records ?_
  simp only [queueLater, List.map_map]
  rfl

theorem laterSweepQueue (lifetime : Option Nat) (now : Nat) :
    let swept := sweepQueue lifetime now queue held
    sweepQueue lifetime now (queueLater n queue) (heldLater n held) =
      (swept.1, queueLater n swept.2.1, heldLater n swept.2.2) := by
  dsimp only
  induction queue generalizing held with
  | nil => rfl
  | cons r rest ih =>
    simp only [queueLater, List.map_cons] at ih ⊢
    unfold sweepQueue
    rw [currentLater]
    cases current held r with
    | none => exact ih held
    | some h =>
      have expired : (h.later n).expired lifetime now = h.expired lifetime now := rfl
      have key : (r.later n).key = r.key := rfl
      simp only [Option.map_some, expired, key, eraseLater, ih]
      split <;> rfl

theorem laterTrimQueue (limit : Nat) :
    let trimmed := trimQueue limit queue held
    trimQueue limit (queueLater n queue) (heldLater n held) =
      (trimmed.1, queueLater n trimmed.2.1, heldLater n trimmed.2.2) := by
  have size : ∀ held : Dict K (Handle V), (heldLater n held).size = held.size := fun held => held.mapSize _
  dsimp only
  induction queue generalizing held with
  | nil => rfl
  | cons r rest ih =>
    simp only [queueLater, List.map_cons] at ih ⊢
    unfold trimQueue
    have key : (r.later n).key = r.key := rfl
    simp only [currentLater, size, Option.isSome_map, key, eraseLater, ih]
    split
    · rfl
    · split <;> rfl

theorem laterSweep (now : Nat) : (o.later n).sweep now = ((o.sweep now).1, (o.sweep now).2.later n) := by
  obtain ⟨held, queue, generation, bound, lifetime⟩ := o
  cases lifetime with
  | none => rfl
  | some span => simp only [sweep, later, laterSweepQueue]

theorem laterTrim : (o.later n).trim = ((o.trim).1, (o.trim).2.later n) := by
  obtain ⟨held, queue, generation, bound, lifetime⟩ := o
  cases bound with
  | none => rfl
  | some limit => simp only [trim, later, laterTrimQueue]

theorem laterCompact : (o.later n).compact = o.compact.later n := by
  have size : (heldLater n o.held).size = o.held.size := o.held.mapSize _
  have kept := filterLater n o.held o.queue Option.isSome (fun _ => Option.isSome_map)
  unfold compact later
  simp only [size, queueLater, List.length_map]
  split
  · rfl
  · exact congrArg (fun queue => Overflow.mk (heldLater n o.held) queue (n + o.nextGeneration) o.bound o.lifetime) kept

theorem laterStore (now : Nat) (k : K) (v : V) : (o.later n).store now k v = (o.store now k v).later n := by
  have inserted := o.held.mapInsert (Handle.later n) k ⟨v, now, o.nextGeneration⟩
  unfold store later
  simp only [queueLater, List.map_append, Nat.add_assoc]
  exact congrArg (fun held => Overflow.mk held _ _ o.bound o.lifetime) inserted

theorem laterAccept (now : Nat) (k : K) (v : V) :
    (o.later n).accept now k v = ((o.accept now k v).1, (o.accept now k v).2.later n) := by
  have enabled : (o.later n).enabled = o.enabled := rfl
  unfold accept
  simp only [enabled, laterSweep, laterStore, laterTrim, laterCompact]
  split <;> rfl

theorem laterWithdraw (now : Nat) (k : K) :
    (o.later n).withdraw now k = ((o.withdraw now k).1, (o.withdraw now k).2.later n) := by
  have found : (o.later n).held.find? k = (o.held.find? k).map (Handle.later n) := o.held.mapFind _ k
  unfold withdraw
  rw [found]
  cases o.held.find? k with
  | none => rfl
  | some h =>
    have erased : Overflow.mk ((heldLater n o.held).erase k) (queueLater n o.queue) (n + o.nextGeneration) o.bound
        o.lifetime = later n { o with held := o.held.erase k } := by rw [eraseLater]; rfl
    have live : (h.later n).live? (o.later n).lifetime now = h.live? o.lifetime now := rfl
    dsimp only [Option.map_some]
    rw [live]
    cases h.live? o.lifetime now with
    | none => exact congrArg (Prod.mk _) erased
    | some v => exact congrArg (Prod.mk _) erased

theorem laterDropExpired (now : Nat) :
    (o.later n).dropExpired now = ((o.dropExpired now).1, (o.dropExpired now).2.later n) := by
  let late (h : Handle V) : Bool := h.expired o.lifetime now
  have gone := congrArg Dict.keys (o.held.mapFilter (Handle.later n) (fun _ h => late h))
  have kept := o.held.mapFilter (Handle.later n) (fun _ h => !late h)
  rw [Dict.mapKeys] at gone
  have left : later n { o with held := o.held.filter (fun _ h => !late h) } =
      { o.later n with held := (o.later n).held.filter (fun _ h => !late h) } :=
    congrArg (fun held => Overflow.mk held _ _ o.bound o.lifetime) kept.symm
  exact Prod.ext gone ((congrArg compact left.symm).trans (laterCompact n _))

theorem laterSetBound (bound : Option Nat) :
    (o.later n).setBound bound = ((o.setBound bound).1, (o.setBound bound).2.later n) := by
  have resized : { o.later n with bound } = later n { o with bound } := rfl
  unfold setBound
  simp only [resized, laterTrim, laterCompact]

theorem laterReceive (filter : Filter K V) (now : Nat) (entries : List (K × V)) :
    (o.later n).receive filter now entries =
      ((o.receive filter now entries).1, (o.receive filter now entries).2.later n) := by
  induction entries generalizing o with
  | nil => rfl
  | cons e rest ih =>
    obtain ⟨k, v⟩ := e
    unfold receive
    simp only [laterAccept, ih]
    split <;> rfl

end Overflow
end TieredCache
