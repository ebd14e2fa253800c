import TieredCache.Proofs.Backlog
import TieredCache.Proofs.CrossTier
import TieredCache.Proofs.Table

/-! Records and the handles they are of. No generation is given twice: a record that is of no handle is of none ever
after, however often its key is taken out and comes again. What leaves at the front of the queue takes with it the
handles of its own records and no other, and stale records have no part in what that is. -/
namespace TieredCache
open Keyed (Apart find without)
variable {K V : Type} [BEq K]

def Record.isOf (r : Record K) (e : K × Handle V) : Bool := r.key == e.1 && r.generation == e.2.generation

theorem Dict.insertMem [EquivBEq K] {d : Dict K V} {k : K} {v : V} {e : K × V}
    (mem : e ∈ (d.insert k v).entries) : e ∈ d.entries ∧ (e.1 == k) = false ∨ (e.1 == k) = true ∧ e.2 = v := by
  cases held : d.contains k with
  | true =>
    unfold insert at mem
    rw [if_pos held] at mem
    obtain ⟨old, was, rfl⟩ := List.mem_map.mp mem
    cases at_k : old.1 == k with
    | true => exact .inr ⟨by simp [at_k], by simp⟩
    | false => exact .inl ⟨by simpa using was, by simp [at_k]⟩
  | false =>
    have absent : d.find? k = none := by simpa [containsFind] using held
    rw [insertAbsent absent] at mem
    rw [findEntries, Option.map_eq_none_iff, Keyed.findNone] at absent
    rcases List.mem_append.mp mem with was | added
    · exact .inl ⟨was, absent e was⟩
    · obtain rfl := List.mem_singleton.mp added
      exact .inr ⟨BEq.refl k, rfl⟩

namespace Overflow
variable {o u w : Overflow K V} {l : Line K V} {r : Record K} {held : Dict K (Handle V)}

/-- The record is of no handle that is held. -/
def Stale (o : Overflow K V) (r : Record K) : Prop := ∀ e ∈ o.held.entries, r.isOf e = false

instance (o : Overflow K V) (r : Record K) : Decidable (o.Stale r) :=
  inferInstanceAs (Decidable (∀ e ∈ o.held.entries, r.isOf e = false))

/-- No record of a key is later than the handle the key is held with. -/
def Newest (o : Overflow K V) : Prop :=
  ∀ r ∈ o.queue, ∀ e ∈ o.held.entries, (r.key == e.1) = true → r.generation ≤ e.2.generation

/-- Nothing is added and no generation drawn. -/
structure Thins (o u : Overflow K V) : Prop where
  held : u.held.entries.Sublist o.held.entries
  queue : ∀ r ∈ u.queue, r ∈ o.queue
  drawn : u.nextGeneration = o.nextGeneration

omit [BEq K] in
theorem Thins.refl (o : Overflow K V) : o.Thins o := ⟨.refl _, fun _ => id, rfl⟩

omit [BEq K] in
theorem Thins.trans (first : o.Thins u) (second : u.Thins w) : o.Thins w where
  held := second.held.trans first.held
  queue := fun r mem => first.queue r (second.queue r mem)
  drawn := second.drawn.trans first.drawn

theorem Stale.thins (stale : o.Stale r) (thins : o.Thins u) : u.Stale r :=
  fun e mem => stale e (thins.held.subset mem)

theorem Newest.thins (newest : o.Newest) (thins : o.Thins u) : u.Newest :=
  fun r queued e held => newest r (thins.queue r queued) e (thins.held.subset held)

theorem compactThins (o : Overflow K V) : o.Thins o.compact where
  held := by rw [o.compactKeeps.1]
  queue := by
    intro r mem
    unfold compact at mem
    split at mem
    · exact mem
    · exact (List.mem_filter.mp mem).1
  drawn := o.compactDraws

/-- Records leave at the front of the queue, and a handle leaves if and only if one of these is its own. -/
def Takes (held : Dict K (Handle V)) (queue : List (Record K)) (left : Dict K (Handle V)) (rest : List (Record K)) :
    Prop :=
  ∃ taken, queue = taken ++ rest ∧
    left.entries = held.entries.filter (fun e => !taken.any (fun r => r.isOf e))

theorem takesNone (held : Dict K (Handle V)) (queue : List (Record K)) : Takes held queue held queue :=
  ⟨[], rfl, (List.filter_eq_self.mpr (fun _ _ => rfl)).symm⟩

theorem takesFront {between left : Dict K (Handle V)} {queue rest : List (Record K)}
    (first : between.entries = held.entries.filter (fun e => !r.isOf e)) (takes : Takes between queue left rest) :
    Takes held (r :: queue) left rest := by
  obtain ⟨taken, rfl, later⟩ := takes
  refine ⟨r :: taken, rfl, ?_⟩
  rw [later, first, List.filter_filter]
  refine List.filter_congr (fun e _ => ?_)
  simp [Bool.and_comm]

section own
variable [EquivBEq K]

theorem ownCurrent (apart : Apart Prod.fst held.entries) {e : K × Handle V} (mem : e ∈ held.entries)
    (own : r.isOf e = true) : current held r = some e.2 := by
  obtain ⟨at_key, same⟩ := Bool.and_eq_true_iff.mp own
  unfold current
  rw [Dict.findEntries, Keyed.findOf apart mem (BEq.symm at_key), Option.map_some, Option.filter_some,
    if_pos (BEq.symm same)]

theorem currentOwn {h : Handle V} (front : current held r = some h) :
    ∃ e ∈ held.entries, r.isOf e = true ∧ e.2 = h := by
  obtain ⟨found, same⟩ := Option.filter_eq_some_iff.mp front
  rw [Dict.findEntries] at found
  obtain ⟨e, first, rfl⟩ := Option.map_eq_some_iff.mp found
  obtain ⟨mem, at_key⟩ := Keyed.findMem first
  exact ⟨e, mem, Bool.and_eq_true_iff.mpr ⟨BEq.symm at_key, BEq.symm same⟩, rfl⟩

theorem staleCurrent (apart : Apart Prod.fst held.entries) :
    (∀ e ∈ held.entries, r.isOf e = false) ↔ current held r = none := by
  constructor
  · intro stale
    cases front : current held r with
    | none => rfl
    | some h =>
      obtain ⟨e, mem, own, _⟩ := currentOwn front
      rw [stale e mem] at own
      cases own
  · intro gone e mem
    cases own : r.isOf e with
    | false => rfl
    | true =>
      rw [ownCurrent apart mem own] at gone
      cases gone

/- As the record at the front is current, the one handle of its key is the record's own. -/
theorem frontOwn (apart : Apart Prod.fst held.entries) {h : Handle V} (front : current held r = some h)
    {e : K × Handle V} (mem : e ∈ held.entries) : (e.1 == r.key) = r.isOf e := by
  obtain ⟨d, held_d, own, _⟩ := currentOwn front
  cases at_e : e.1 == r.key with
  | false => simp [Record.isOf, Keyed.unequalSymm at_e]
  | true =>
    have at_d := BEq.symm (Bool.and_eq_true_iff.mp own).1
    have first := (Keyed.findOf apart mem at_e).symm.trans (Keyed.findOf apart held_d at_d)
    obtain rfl := Option.some.inj first
    exact own.symm

theorem takesStale (apart : Apart Prod.fst held.entries) (stale : current held r = none)
    {left : Dict K (Handle V)} {queue rest : List (Record K)} (takes : Takes held queue left rest) :
    Takes held (r :: queue) left rest := by
  refine takesFront (List.filter_eq_self.mpr (fun e mem => ?_)).symm takes
  rw [(staleCurrent apart).mpr stale e mem]
  rfl

theorem takesOwn (apart : Apart Prod.fst held.entries) {h : Handle V} (front : current held r = some h)
    {left : Dict K (Handle V)} {queue rest : List (Record K)} (takes : Takes (held.erase r.key) queue left rest) :
    Takes held (r :: queue) left rest :=
  takesFront (List.filter_congr (fun _ mem => congrArg not (frontOwn apart front mem))) takes

theorem sweepTakes (lifetime : Option Nat) (now : Nat) (queue : List (Record K))
    (apart : Apart Prod.fst held.entries) :
    Takes held queue (sweepQueue lifetime now queue held).2.2 (sweepQueue lifetime now queue held).2.1 := by
  induction queue generalizing held with
  | nil => exact takesNone held []
  | cons r rest ih =>
    unfold sweepQueue
    cases front : current held r with
    | none => exact takesStale apart front (ih apart)
    | some h =>
      dsimp only
      split
      · exact takesOwn apart front (ih (Keyed.apartWithout apart r.key))
      · exact takesNone held (r :: rest)

theorem trimTakes (limit : Nat) (queue : List (Record K)) (apart : Apart Prod.fst held.entries) :
    Takes held queue (trimQueue limit queue held).2.2 (trimQueue limit queue held).2.1 := by
  induction queue generalizing held with
  | nil => exact takesNone held []
  | cons r rest ih =>
    by_cases fits : held.size ≤ limit
    · rw [trimFits fits]
      exact takesNone held (r :: rest)
    · rw [trimLong fits]
      cases front : current held r with
      | none => exact takesStale apart front (ih apart)
      | some h => exact takesOwn apart front (ih (Keyed.apartWithout apart r.key))

theorem sweepStale {stale : Record K → Prop} {fewer queue : List (Record K)} (among : Among stale fewer queue)
    (gone : ∀ r, stale r → current held r = none) (lifetime : Option Nat) (now : Nat) :
    (sweepQueue lifetime now fewer held).1 = (sweepQueue lifetime now queue held).1 ∧
    (sweepQueue lifetime now fewer held).2.2 = (sweepQueue lifetime now queue held).2.2 := by
  induction among generalizing held with
  | nil => exact ⟨rfl, rfl⟩
  | same r rest ih =>
    unfold sweepQueue
    cases current held r with
    | none => exact ih gone
    | some h =>
      dsimp only
      split
      · obtain ⟨swept, left⟩ := ih (fun e added => erasedStale (gone e added) r.key)
        exact ⟨congrArg (r.key :: ·) swept, left⟩
      · exact ⟨rfl, rfl⟩
  | @put r fewer queue added rest ih =>
    rw [sweepQueue.eq_2, gone r added]
    exact ih gone

end own

/-- The same tier with no stale record in its queue. -/
def pruned (o : Overflow K V) : Overflow K V := { o with queue := o.queue.filter (fun r => ¬o.Stale r) }

/-- Whatever leaves does so by its own record. Without the stale ones the same would leave and be told of. -/
structure ByRecord (o : Overflow K V) (drop : Overflow K V → List K × Overflow K V) : Prop where
  takes : Takes o.held o.queue (drop o).2.held (drop o).2.queue
  told : (drop o.pruned).1 = (drop o).1
  left : (drop o.pruned).2.held = (drop o).2.held

section drops
variable [EquivBEq K]

theorem prunedAmong (apart : Apart Prod.fst o.held.entries) :
    Among (fun r => current o.held r = none) o.pruned.queue o.queue :=
  .filter (fun r out => (staleCurrent apart).mp (show o.Stale r by simpa using out)) o.queue

theorem sweepByRecord (apart : Apart Prod.fst o.held.entries) (now : Nat) : o.ByRecord (fun o => o.sweep now) := by
  have pruned : (o.pruned.sweep now).1 = (o.sweep now).1 ∧ (o.pruned.sweep now).2.held = (o.sweep now).2.held := by
    unfold sweep
    rw [show o.pruned.lifetime = o.lifetime from rfl]
    cases o.lifetime with
    | none => exact ⟨rfl, rfl⟩
    | some span => exact sweepStale (prunedAmong apart) (fun _ stale => stale) (some span) now
  refine ⟨?_, pruned.1, pruned.2⟩
  show Takes o.held o.queue (o.sweep now).2.held (o.sweep now).2.queue
  unfold sweep
  cases o.lifetime with
  | none => exact takesNone o.held o.queue
  | some span => exact sweepTakes (some span) now o.queue apart

theorem trimByRecord (apart : Apart Prod.fst o.held.entries) : o.ByRecord trim := by
  have pruned : (o.pruned.trim).1 = (o.trim).1 ∧ (o.pruned.trim).2.held = (o.trim).2.held := by
    unfold trim
    rw [show o.pruned.bound = o.bound from rfl]
    cases o.bound with
    | none => exact ⟨rfl, rfl⟩
    | some limit =>
      obtain ⟨trimmed, left, _⟩ := trimStale (prunedAmong apart) (fun _ stale => stale) limit
      exact ⟨trimmed, left⟩
  refine ⟨?_, pruned.1, pruned.2⟩
  unfold trim
  cases o.bound with
  | none => exact takesNone o.held o.queue
  | some limit => exact trimTakes limit o.queue apart

omit [EquivBEq K] in
theorem ByRecord.thins {drop : Overflow K V → List K × Overflow K V} (byRecord : o.ByRecord drop)
    (drawn : (drop o).2.nextGeneration = o.nextGeneration) : o.Thins (drop o).2 := by
  obtain ⟨taken, queue, left⟩ := byRecord.takes
  refine ⟨?_, fun r mem => ?_, drawn⟩
  · rw [left]
    exact List.filter_sublist
  · rw [queue]
    exact List.mem_append_right taken mem

theorem sweepThins (apart : Apart Prod.fst o.held.entries) (now : Nat) : o.Thins (o.sweep now).2 :=
  (sweepByRecord apart now).thins (o.sweepDraws now)

theorem trimThins (apart : Apart Prod.fst o.held.entries) : o.Thins (o.trim).2 :=
  (trimByRecord apart).thins o.trimDraws

/- An admission replaces the handle of its key, and its own record is the latest there is. -/
theorem Newest.store (newest : o.Newest) (issued : ∀ r ∈ o.queue, r.generation < o.nextGeneration) (now : Nat)
    (k : K) (v : V) : (o.store now k v).Newest := by
  intro r queued e held at_key
  rcases Dict.insertMem held with ⟨was, other⟩ | ⟨_, latest⟩
  · rcases List.mem_append.mp queued with old | added
    · exact newest r old e was at_key
    · obtain rfl := List.mem_singleton.mp added
      rw [Keyed.unequalSymm other] at at_key
      cases at_key
  · rw [latest]
    rcases List.mem_append.mp queued with old | added
    · exact Nat.le_of_lt (issued r old)
    · obtain rfl := List.mem_singleton.mp added
      exact Nat.le_refl _

theorem Stale.store (stale : o.Stale r) (old : r.generation < o.nextGeneration) (now : Nat) (k : K) (v : V) :
    (o.store now k v).Stale r := by
  intro e mem
  rcases Dict.insertMem mem with ⟨was, _⟩ | ⟨_, latest⟩
  · exact stale e was
  · have late : (r.generation == e.2.generation) = false := by
      rw [latest]
      exact beq_false_of_ne (Nat.ne_of_lt old)
    simp [Record.isOf, late]

/- What a call adds, if anything, is one admission after some have left and before others do. -/
theorem stepThins (apart : Apart Prod.fst o.held.entries) (now : Nat) (call : Call K V) :
    o.Thins (o.step now call).2 ∨
    ∃ u k v, o.Thins u ∧ Thins (Overflow.store u now k v) (o.step now call).2 := by
  cases call with
  | accept k v =>
    cases opened : o.enabled with
    | false =>
      have refused : (o.accept now k v).2 = o := by simp [accept, opened]
      refine .inl ?_
      show o.Thins (o.accept now k v).2
      rw [refused]
      exact .refl o
    | true =>
      have swept := sweepThins apart now
      have stored := Dict.insertApart (Keyed.apartSublist apart swept.held) k ⟨v, now, (o.sweep now).2.nextGeneration⟩
      have form : (o.accept now k v).2 = (((o.sweep now).2.store now k v).trim).2.compact := by simp [accept, opened]
      refine .inr ⟨(o.sweep now).2, k, v, swept, ?_⟩
      show Thins _ (o.accept now k v).2
      rw [form]
      exact (trimThins stored).trans (compactThins _)
  | withdraw k =>
    refine .inl ?_
    show o.Thins (o.withdraw now k).2
    have fewer : o.Thins { o with held := o.held.erase k } :=
      ⟨List.filter_sublist, fun _ => id, rfl⟩
    unfold withdraw
    split
    · exact .refl o
    · dsimp only
      split <;> exact fewer
  | dropExpired =>
    have fewer : o.Thins { o with held := o.held.filter (fun _ h => !h.expired o.lifetime now) } :=
      ⟨List.filter_sublist, fun _ => id, rfl⟩
    exact .inl (fewer.trans (compactThins _))
  | setBound n =>
    have resized : o.Thins { o with bound := n } := ⟨.refl _, fun _ => id, rfl⟩
    have trimmed := trimThins (o := { o with bound := n }) apart
    exact .inl (resized.trans (trimmed.trans (compactThins _)))
  | clear => exact .inl ⟨List.nil_sublist _, fun _ mem => absurd mem List.not_mem_nil, rfl⟩
  | lookup | contains | enabled | bound => exact .inl (.refl o)

theorem heldApart (holds : o.Holds l) : Apart Prod.fst o.held.entries := by
  obtain ⟨cells, layout, _, _⟩ := holds
  exact (Keyed.apartPerm layout.queued.handles).mpr ((Keyed.apartMapped _ _ _).mpr layout.queued.nameApart)

theorem Newest.step (newest : o.Newest) (holds : o.Holds l) (now : Nat) (call : Call K V) :
    (o.step now call).2.Newest := by
  rcases stepThins (heldApart holds) now call with thins | ⟨u, k, v, before, after⟩
  · exact newest.thins thins
  · obtain ⟨cells, layout, _, _⟩ := holds
    have issued : ∀ r ∈ u.queue, r.generation < u.nextGeneration := by
      intro r mem
      rw [before.drawn]
      exact layout.fresh r (before.queue r mem)
    exact ((newest.thins before).store issued now k v).thins after

theorem Stale.step (stale : o.Stale r) (holds : o.Holds l) (old : r.generation < o.nextGeneration) (now : Nat)
    (call : Call K V) : (o.step now call).2.Stale r ∧ r.generation < (o.step now call).2.nextGeneration := by
  rcases stepThins (heldApart holds) now call with thins | ⟨u, k, v, before, after⟩
  · exact ⟨stale.thins thins, thins.drawn ▸ old⟩
  · rw [← before.drawn] at old
    refine ⟨((stale.thins before).store old now k v).thins after, ?_⟩
    rw [after.drawn]
    exact Nat.lt_succ_of_lt old

theorem Stale.run (stale : o.Stale r) (holds : o.Holds l) (old : r.generation < o.nextGeneration)
    (calls : List (Nat × Call K V)) : (o.run calls).Stale r := by
  induction calls generalizing o l with
  | nil => exact stale
  | cons call rest ih =>
    obtain ⟨still, issued⟩ := stale.step holds old call.1 call.2
    exact ih still (stepHolds holds call.1 call.2).2 issued

theorem runNewest (holds : o.Holds l) (within : l.Within) (newest : o.Newest) (calls : List (Nat × Call K V)) :
    (o.run calls).Newest ∧ (l.run calls).Within := by
  induction calls generalizing o l with
  | nil => exact ⟨newest, within⟩
  | cons call rest ih =>
    exact ih (stepHolds holds call.1 call.2).2 (Line.stepWithin within call.1 call.2)
      (newest.step holds call.1 call.2)

/-- The invariant: what the map of the tier, its queue and the generation it draws next say of one another. -/
structure Accounted (o : Overflow K V) : Prop where
  keyed : Apart Prod.fst o.held.entries
  ascending : o.queue.Pairwise (fun a b => a.generation < b.generation)
  issued : ∀ r ∈ o.queue, r.generation < o.nextGeneration
  single : ∀ e ∈ o.held.entries, o.queue.countP (fun r => r.isOf e) = 1
  newest : o.Newest
  within : ∀ n, o.bound = some n → o.held.size ≤ n

omit [EquivBEq K] in
theorem ownAtMostOnce {queue : List (Record K)} (ascending : queue.Pairwise (fun a b => a.generation < b.generation))
    (e : K × Handle V) : queue.countP (fun r => r.isOf e) ≤ 1 := by
  have generations : (queue.map Record.generation).Nodup :=
    List.pairwise_map.mpr (ascending.imp (fun before => Nat.ne_of_lt before))
  have once := List.nodup_iff_count_le_one.mp generations e.2.generation
  rw [List.count, List.countP_map] at once
  refine Nat.le_trans (List.countP_mono_left (fun r _ own => ?_)) once
  exact (Bool.and_eq_true_iff.mp own).2

theorem accounted (holds : o.Holds l) (within : l.Within) (newest : o.Newest) : o.Accounted where
  keyed := heldApart holds
  ascending := by
    obtain ⟨cells, layout, _, _⟩ := holds
    exact layout.queued.ascending
  issued := by
    obtain ⟨cells, layout, _, _⟩ := holds
    exact layout.fresh
  single := by
    intro e mem
    obtain ⟨r, queued, at_key, same⟩ := recorded holds e mem
    have own : r.isOf e = true := by simp [Record.isOf, at_key, same]
    obtain ⟨cells, layout, _, _⟩ := holds
    exact Nat.le_antisymm (ownAtMostOnce layout.queued.ascending e) (List.countP_pos_iff.mpr ⟨r, queued, own⟩)
  newest := newest
  within := by
    intro n capped
    rw [heldSize holds]
    exact within n ((boundShown holds).trans capped)

end drops

end Overflow
end TieredCache
