import Mathlib.Order.Bounds.Defs
import TieredCache.Proofs.LineRuns
import TieredCache.Proofs.Shrinking

/-! How long the queue of the overflow tier can get. Withdrawals leave stale records behind, so between two
admissions the queue is not bounded by the handles that are held, but it is by the most that were held at once. -/
namespace TieredCache
variable {K V : Type} [BEq K]

namespace Line

theorem stepWithin {l : Line K V} (within : l.Within) (now : Nat) (call : Overflow.Call K V) :
    (l.step now call).2.Within := by
  cases call with
  | accept k v =>
    show (l.accept now k v).2.Within
    unfold Line.accept
    split
    · exact within
    · exact fitWithin _
  | withdraw k =>
    show (l.withdraw now k).2.Within
    rw [withdrawForm]
    exact fun most bound => Nat.le_trans (List.length_filter_le _ _) (within most bound)
  | dropExpired => exact fun most bound => Nat.le_trans (List.length_filter_le _ _) (within most bound)
  | setBound n => exact fitWithin _
  | clear => exact fun most _ => Nat.zero_le most
  | lookup | contains | enabled | bound => exact within

end Line

namespace Overflow
variable {o : Overflow K V} {l : Line K V}

/-- The queue is bounded by twice the handles held and sixteen. -/
def Slim (o : Overflow K V) : Prop := o.queue.length ≤ 2 * o.held.size + 16

/-- Every record of a handle that remains is still there, in its place. -/
def Retains (before after : Overflow K V) : Prop :=
  after.queue.filter (isCurrent after.held) = before.queue.filter (isCurrent after.held)

/-- The most handles held at once between any two calls. -/
def peak (o : Overflow K V) : List (Nat × Call K V) → Nat
  | [] => o.held.size
  | call :: rest => max o.held.size ((o.step call.1 call.2).2.peak rest)

theorem peakGreatest (o : Overflow K V) (calls : List (Nat × Call K V)) :
    IsGreatest {size | ∃ prior, prior <+: calls ∧ (o.run prior).held.size = size} (o.peak calls) := by
  induction calls generalizing o with
  | nil =>
    refine ⟨⟨[], List.nil_prefix, rfl⟩, ?_⟩
    rintro size ⟨prior, first, rfl⟩
    rw [List.prefix_nil.mp first]
    exact Nat.le_refl _
  | cons call rest ih =>
    obtain ⟨⟨prior, first, reached⟩, most⟩ := ih (o.step call.1 call.2).2
    refine ⟨?_, ?_⟩
    · unfold peak
      rcases Nat.le_total ((o.step call.1 call.2).2.peak rest) o.held.size with late | early
      · exact ⟨[], List.nil_prefix, (Nat.max_eq_left late).symm⟩
      · exact ⟨call :: prior, List.cons_prefix_cons.mpr ⟨rfl, first⟩, reached.trans (Nat.max_eq_right early).symm⟩
    · rintro size ⟨prior, first, rfl⟩
      cases prior with
      | nil => exact Nat.le_max_left _ _
      | cons next prior =>
        obtain ⟨rfl, rest_first⟩ := List.cons_prefix_cons.mp first
        exact Nat.le_trans (most ⟨prior, rest_first, rfl⟩) (Nat.le_max_right _ _)

/- For age or for number, records leave at the front of the queue, each one stale or along with its handle. -/
inductive Fronts : Dict K (Handle V) → List (Record K) → Dict K (Handle V) → List (Record K) → Prop where
  | stop (held : Dict K (Handle V)) (queue : List (Record K)) : Fronts held queue held queue
  | stale {held held' : Dict K (Handle V)} {queue queue' : List (Record K)} {r : Record K}
      (stale : current held r = none) (rest : Fronts held queue held' queue') :
      Fronts held (r :: queue) held' queue'
  | taken {held held' : Dict K (Handle V)} {queue queue' : List (Record K)} {r : Record K}
      (rest : Fronts (held.erase r.key) queue held' queue') : Fronts held (r :: queue) held' queue'

theorem sweepFronts (lifetime : Option Nat) (now : Nat) (queue : List (Record K)) (held : Dict K (Handle V)) :
    Fronts held queue (sweepQueue lifetime now queue held).2.2 (sweepQueue lifetime now queue held).2.1 := by
  induction queue generalizing held with
  | nil => exact .stop held []
  | cons r rest ih =>
    unfold sweepQueue
    cases front : current held r with
    | none => exact .stale front (ih held)
    | some h =>
      dsimp only
      split
      · exact .taken (ih (held.erase r.key))
      · exact .stop held (r :: rest)

theorem trimFronts (limit : Nat) (queue : List (Record K)) (held : Dict K (Handle V)) :
    Fronts held queue (trimQueue limit queue held).2.2 (trimQueue limit queue held).2.1 := by
  induction queue generalizing held with
  | nil => exact .stop held []
  | cons r rest ih =>
    by_cases fits : held.size ≤ limit
    · rw [trimFits fits]
      exact .stop held (r :: rest)
    · rw [trimLong fits]
      cases front : current held r with
      | none => exact .stale front (ih held)
      | some h => exact .taken (ih (held.erase r.key))

theorem compactRetains (o : Overflow K V) : o.Retains o.compact := by
  unfold Retains
  obtain ⟨_, among, _⟩ := o.compactKeeps
  rw [o.compactKeeps.1]
  exact among.filtered (fun r stale => by simp [isCurrent, stale])

/- A compaction either was not called for or leaves one record for each handle. -/
theorem compactSlim (holds : o.compact.Holds l) : o.compact.Slim := by
  obtain ⟨cells, layout, _, _⟩ := holds
  have records := congrArg List.length layout.queued.records
  rw [List.length_map, ← layout.queued.size] at records
  by_cases short : o.queue.length ≤ 2 * o.held.size + 16
  · rw [show o.compact = o from if_pos short]
    exact short
  · have form : o.compact = { o with queue := o.queue.filter (isCurrent o.held) } := if_neg short
    have all : o.compact.queue.filter (isCurrent o.compact.held) = o.compact.queue := by
      rw [form]
      simp [List.filter_filter]
    unfold Slim
    rw [← all, records]
    omega

variable [EquivBEq K]

theorem Fronts.stays {held held' : Dict K (Handle V)} {queue queue' : List (Record K)}
    (fronts : Fronts held queue held' queue') {r : Record K} (gone : current held r = none) :
    current held' r = none := by
  induction fronts with
  | stop => exact gone
  | stale _ rest ih => exact ih gone
  | taken rest ih => exact ih (erasedStale gone _)

theorem Fronts.retained {held held' : Dict K (Handle V)} {queue queue' : List (Record K)}
    (fronts : Fronts held queue held' queue') :
    queue'.filter (isCurrent held') = queue.filter (isCurrent held') := by
  have left {r : Record K} {rest : List (Record K)} (gone : current held' r = none) :
      (r :: rest).filter (isCurrent held') = rest.filter (isCurrent held') :=
    List.filter_cons_of_neg (by simp [isCurrent, gone])
  induction fronts with
  | stop => rfl
  | stale stale rest ih => rw [left (rest.stays stale), ih left]
  | @taken held _ _ _ r rest ih =>
    have erased : current (held.erase r.key) r = none := by
      rw [Queued.currentErased, if_pos (BEq.refl r.key)]
    rw [left (rest.stays erased), ih left]

theorem sweepRetains (o : Overflow K V) (now : Nat) : o.Retains (o.sweep now).2 := by
  unfold sweep
  cases o.lifetime with
  | none => rfl
  | some span => exact (sweepFronts (some span) now o.queue o.held).retained

theorem trimRetains (o : Overflow K V) : o.Retains (o.trim).2 := by
  unfold trim
  cases o.bound with
  | none => rfl
  | some limit => exact (trimFronts limit o.queue o.held).retained

theorem recorded (holds : o.Holds l) :
    ∀ e ∈ o.held.entries, ∃ r ∈ o.queue, (r.key == e.1) = true ∧ r.generation = e.2.generation := by
  obtain ⟨cells, layout, _, _⟩ := holds
  intro e mem
  obtain ⟨c, cell, rfl⟩ := List.mem_map.mp (layout.queued.handles.mem_iff.mp mem)
  have queued : c.record ∈ o.queue.filter (isCurrent o.held) := by
    rw [layout.queued.records]
    exact List.mem_map_of_mem cell
  exact ⟨c.record, (List.mem_filter.mp queued).1, BEq.symm (layout.queued.spelled c cell), rfl⟩

theorem acceptSlim (holds : o.Holds l) {now : Nat} {k : K} {v : V} {displaced : List K}
    (admitted : (o.accept now k v).1 = .admitted displaced) : (o.accept now k v).2.Slim := by
  have after := (acceptHolds holds now k v).2
  unfold accept at admitted after ⊢
  split at admitted
  · next opened =>
    rw [if_pos opened] at after ⊢
    exact compactSlim after
  · cases admitted

theorem dropExpiredSlim (holds : o.Holds l) (now : Nat) : (o.dropExpired now).2.Slim :=
  compactSlim (dropExpiredHolds holds now).2

theorem setBoundSlim (holds : o.Holds l) (n : Option Nat) : (o.setBound n).2.Slim :=
  compactSlim (setBoundSpelled holds n).2

/- What compacts leaves the tier slim; nothing else adds a record. -/
theorem stepSlim (holds : o.Holds l) (now : Nat) (call : Call K V) :
    (o.step now call).2.Slim ∨ (o.step now call).2.queue = o.queue ∧ (o.step now call).2.bound = o.bound := by
  cases call with
  | accept k v =>
    cases receipt : (o.accept now k v).1 with
    | admitted displaced => exact .inl (acceptSlim holds receipt)
    | refused key =>
      refine .inr ?_
      show (o.accept now k v).2.queue = o.queue ∧ (o.accept now k v).2.bound = o.bound
      unfold accept at receipt ⊢
      split at receipt
      · cases receipt
      · next shut =>
        rw [if_neg shut]
        exact ⟨rfl, rfl⟩
  | withdraw k =>
    refine .inr ?_
    show (o.withdraw now k).2.queue = o.queue ∧ (o.withdraw now k).2.bound = o.bound
    unfold withdraw
    split
    · exact ⟨rfl, rfl⟩
    · dsimp only
      split <;> exact ⟨rfl, rfl⟩
  | dropExpired => exact .inl (dropExpiredSlim holds now)
  | setBound n => exact .inl (setBoundSlim holds n)
  | clear => exact .inl (Nat.zero_le _)
  | lookup | contains | enabled | bound => exact .inr ⟨rfl, rfl⟩

structure Bounded (o : Overflow K V) (most : Nat) : Prop where
  peak : o.queue.length ≤ 2 * most + 16
  bound : ∀ n, o.bound = some n → o.queue.length ≤ 2 * n + 16

theorem stepBounded (holds : o.Holds l) (within : l.Within) {most : Nat} (bounded : o.Bounded most) (now : Nat)
    (call : Call K V) : (o.step now call).2.Bounded (max most (o.step now call).2.held.size) := by
  obtain ⟨_, after⟩ := stepHolds holds now call
  have fits := Line.stepWithin within now call
  unfold Line.Within at fits
  rw [boundShown after, ← heldSize after] at fits
  rcases stepSlim holds now call with slim | ⟨queue, bound⟩
  · unfold Slim at slim
    refine ⟨by omega, fun n capped => ?_⟩
    have := fits n capped
    omega
  · have before := bounded.peak
    refine ⟨by rw [queue]; omega, fun n capped => ?_⟩
    rw [queue]
    exact bounded.bound n (bound ▸ capped)

theorem runBounded (holds : o.Holds l) (within : l.Within) {most : Nat} (bounded : o.Bounded most)
    (calls : List (Nat × Call K V)) : (o.run calls).Bounded (max most (o.peak calls)) := by
  induction calls generalizing o l most with
  | nil => exact ⟨by have := bounded.peak; show o.queue.length ≤ _; omega, bounded.bound⟩
  | cons call rest ih =>
    have next := ih (stepHolds holds call.1 call.2).2 (Line.stepWithin within call.1 call.2)
      (stepBounded holds within bounded call.1 call.2)
    have counted := (peakGreatest (o.step call.1 call.2).2 rest).2 ⟨[], List.nil_prefix, rfl⟩
    have queued := next.peak
    refine ⟨?_, next.bound⟩
    show ((o.step call.1 call.2).2.run rest).queue.length ≤ 2 * max most (max o.held.size _) + 16
    change (o.step call.1 call.2).2.held.size ≤ _ at counted
    omega

/-- What bounds the queue of a tier that has held that many handles at once. -/
structure Backlog (tier : Overflow K V) (most : Nat) : Prop where
  bounded : tier.Bounded most
  accepted : ∀ now k v displaced, (tier.accept now k v).1 = .admitted displaced → (tier.accept now k v).2.Slim
  purged : ∀ now, (tier.dropExpired now).2.Slim
  resized : ∀ n, (tier.setBound n).2.Slim
  recorded : ∀ e ∈ tier.held.entries,
    ∃ r ∈ tier.queue, (r.key == e.1) = true ∧ r.generation = e.2.generation

theorem runBacklog (bound lifetime : Option Nat) (calls : List (Nat × Call K V)) :
    let start : Overflow K V := empty bound lifetime
    (start.run calls).Backlog (start.peak calls) ∧
    IsGreatest {size | ∃ prior, prior <+: calls ∧ (start.run prior).held.size = size} (start.peak calls) ∧
    ∀ u : Overflow K V, u.Retains u.compact ∧ (∀ now, u.Retains (u.sweep now).2) ∧ u.Retains (u.trim).2 := by
  intro start
  have empty := emptyHolds (K := K) (V := V) bound lifetime
  have holds := (runHolds empty calls).2
  have bounded : start.Bounded 0 := ⟨Nat.zero_le _, fun _ _ => Nat.zero_le _⟩
  have last := runBounded empty (fun most _ => Nat.zero_le most) bounded calls
  rw [Nat.zero_max] at last
  exact ⟨⟨last, fun _ _ _ _ admitted => acceptSlim holds admitted, dropExpiredSlim holds, setBoundSlim holds,
    recorded holds⟩, peakGreatest start calls, fun u => ⟨compactRetains u, sweepRetains u, trimRetains u⟩⟩

/- One key stays in front of another that comes and goes, so that no sweep gets at the stale records: the queue
grows to the bound that two handles give while one is held, and the next admission leaves two records in it. -/
theorem runBacklogSmall :
    let start : Overflow Nat Nat := empty (some 2) (some 10)
    let calls := (7, Call.accept 0 50) :: (List.replicate 19 [(9, .accept 1 60), (3, .withdraw 1)]).flatten
    let tier := start.run calls
    (tier.held.size = 1 ∧ start.peak calls = 2 ∧ tier.queue.length = 2 * 2 + 16 ∧
      (tier.accept 16 1 60).2.queue = [⟨0, 0⟩, ⟨1, 20⟩]) ∧
    tier.Backlog (start.peak calls) ∧
    IsGreatest {size | ∃ prior, prior <+: calls ∧ (start.run prior).held.size = size} (start.peak calls) ∧
    ∀ u : Overflow Nat Nat, u.Retains u.compact ∧ (∀ now, u.Retains (u.sweep now).2) ∧ u.Retains (u.trim).2 :=
  ⟨by decide +kernel, runBacklog (some 2) (some 10) _⟩

end Overflow
end TieredCache
