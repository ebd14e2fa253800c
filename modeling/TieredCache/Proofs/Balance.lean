import TieredCache.Proofs.Lookups
import TieredCache.Proofs.Refinement
import TieredCache.Proofs.Traffic

/-! The books of a cache. Over each call the number of entries in either tier changes by what the
counters say, in machine words: puts and promotions fill the primary tier, evictions and removals
empty it; evictions fill the overflow tier, promotions, losses and what is handed out empty it. Expired
entries still count as held. -/
namespace TieredCache
variable {K V : Type}

def Call.hits : Call K V → Reply K V → Bool
  | .get _, .value (some _) => true
  | _, _ => false

def Call.misses : Call K V → Reply K V → Bool
  | .get _, .value none => true
  | _, _ => false

theorem Lookups.afterParts (n : Lookups) {call : Call K V} (reply : Reply K V) (uncleared : call ≠ .clear)
    (unreset : call ≠ .resetCounters) :
    n.after call reply = ⟨n.hits + if call.hits reply then 1 else 0,
      n.misses + if call.misses reply then 1 else 0⟩ := by
  cases call with
  | get k =>
    cases reply with
    | value answer => cases answer <;> rfl
    | _ => rfl
  | clear => exact absurd rfl uncleared
  | resetCounters => exact absurd rfl unreset
  | _ => rfl

namespace Cache
variable [BEq K]

/-- An answer that the primary tier did not give came out of the overflow tier. -/
def handed (c : Cache K V) (k : K) (answer : Option V) : Nat :=
  if answer.isSome && !c.primary.contains k then 1 else 0

def batchHanded (filter : Filter K V) (now : Nat) (c : Cache K V) : List (K × V) → Nat
  | [] => 0
  | (k, v) :: rest =>
      let first := c.store filter now k v
      c.handed k first.answer + first.cache.batchHanded filter now rest

/-- The entries a call takes off the primary tier itself: the one that a removal finds there. -/
def fromPrimary (c : Cache K V) : Call K V → Reply K V → Nat
  | .remove k, .value _ => if c.primary.contains k then 1 else 0
  | _, _ => 0

/-- The values a call hands out of the overflow tier: as what a put replaces or a removal removes. -/
def fromOverflow (filter : Filter K V) (now : Nat) (c : Cache K V) : Call K V → Reply K V → Nat
  | .put k _, .value answer => c.handed k answer
  | .remove k, .value answer => c.handed k answer
  | .putAll entries, .done => c.batchHanded filter now entries
  | _, _ => 0

/-- From one cache to another the tiers grow and shrink as the counters tell, but for `removed` entries
of the primary tier and `handed` ones of the overflow tier, and what was heard is counted. -/
structure Balances (c d : Cache K V) (events : List (Event K V)) (removed handed : Nat) : Prop where
  primary : UInt64.ofNat d.primary.size - .ofNat c.primary.size =
    (d.counters.inserts - c.counters.inserts) + (d.counters.promotions - c.counters.promotions) -
      (d.counters.evictions - c.counters.evictions) - .ofNat removed
  overflow : UInt64.ofNat d.overflow.held.size - .ofNat c.overflow.held.size =
    (d.counters.evictions - c.counters.evictions) - (d.counters.promotions - c.counters.promotions) -
      (d.counters.reclaimed - c.counters.reclaimed) - .ofNat handed
  evictions : d.counters.evictions - c.counters.evictions = .ofNat (evictions events)
  reclaimed : d.counters.reclaimed - c.counters.reclaimed = .ofNat (losses events)

variable {c d : Cache K V} {p q : Plain K V}

theorem Shows.sizes (shows : c.Shows p) :
    c.primary.size = p.shelf.entries.length ∧ c.overflow.held.size = p.line.waiting.length :=
  ⟨(Recency.sizeShown shows.primary).trans List.length_append.symm, Overflow.heldSize shows.overflow⟩

theorem Shows.balances (shows : c.Shows p) (after : d.Shows q) {heard events : List (Event K V)}
    {removed handed : Nat} (flows : p.Flows events q (.ofNat removed) (.ofNat handed))
    (same : heard.Perm events) : c.Balances d heard removed handed := by
  obtain ⟨shelf, line, evicted, lost⟩ := flows
  obtain ⟨primary, overflow⟩ := shows.sizes
  obtain ⟨primary', overflow'⟩ := after.sizes
  have evictions : TieredCache.evictions heard = TieredCache.evictions events := same.countP_eq _
  have losses : TieredCache.losses heard = TieredCache.losses events := same.countP_eq _
  unfold Plain.shelfBalance at shelf
  unfold Plain.lineBalance at line
  constructor
  · rw [primary, primary', shows.counters, after.counters]
    grind
  · rw [overflow, overflow', shows.counters, after.counters]
    grind
  · rw [evictions, shows.counters, after.counters]
    grind
  · rw [losses, shows.counters, after.counters]
    grind

theorem movedAlike {answer reply : Reply K V} (agrees : answer.Agrees reply) (filter : Filter K V) (now : Nat)
    (c : Cache K V) (call : Call K V) : c.fromPrimary call answer = c.fromPrimary call reply ∧
      c.fromOverflow filter now call answer = c.fromOverflow filter now call reply := by
  unfold Reply.Agrees at agrees
  split at agrees
  · cases call <;> exact ⟨rfl, rfl⟩
  · rw [agrees]
    exact ⟨rfl, rfl⟩

variable [EquivBEq K]

theorem Shows.handed (shows : c.Shows p) (k : K) (answer : Option V) :
    Plain.handed (p.shelf.find? k) answer = .ofNat (c.handed k answer) := by
  have contains := Recency.containsShown shows.primary k
  unfold Plain.handed Cache.handed
  rw [contains]
  split <;> rfl

variable [Identity K]

theorem Shows.batchFlows (shows : c.Shows p) (sound : p.Sound) (filter : Filter K V) (now : Nat)
    {entries : List (K × V)} (valid : ∀ e ∈ entries, Identity.valid e.1 = true) :
    p.Flows (p.storeAll filter now entries).events (p.storeAll filter now entries).plain 0
      (.ofNat (c.batchHanded filter now entries)) := by
  induction entries generalizing c p with
  | nil => exact Plain.sameFlows rfl rfl rfl
  | cons e rest ih =>
    have at_e := valid e (by simp)
    have stored := shows.store sound filter now at_e e.2
    have lawful := Plain.storeLawful sound filter now at_e e.2
    have first := Plain.storeFlows sound filter now e.1 e.2
    rw [shows.handed, ← stored.answer] at first
    have others := ih stored.shows lawful.sound (fun d mem => valid d (by simp [mem]))
    have both : UInt64.ofNat (c.batchHanded filter now (e :: rest)) = _ := UInt64.ofNat_add _ _
    exact (first.trans others).even rfl both.symm

omit [EquivBEq K] [BEq K] in
theorem givenFlows {op : KeyedOp} {keys : List K} {turn : Turn K V (Reply K V)} {off out : Reply K V → Nat}
    (refused : ∀ e, off (.refused e) = 0 ∧ out (.refused e) = 0)
    (flows : (∀ k ∈ keys, Identity.valid k = true) →
      p.Flows turn.events turn.plain (.ofNat (off turn.answer)) (.ofNat (out turn.answer))) :
    p.Flows (p.given op keys turn).events (p.given op keys turn).plain
      (.ofNat (off (p.given op keys turn).answer)) (.ofNat (out (p.given op keys turn).answer)) := by
  unfold Plain.given
  split
  · rename_i valid
    exact flows (List.all_eq_true.mp valid)
  · obtain ⟨none_off, none_out⟩ := refused (.keyless op)
    have idle : p.Flows [] p 0 0 := Plain.sameFlows rfl rfl rfl
    exact idle.even (by simp [Plain.answering, none_off]) (by simp [Plain.answering, none_out])

theorem Shows.stepFlows (shows : c.Shows p) (sound : p.Sound) (filter : Filter K V) (now : Nat)
    {call : Call K V} (uncleared : call ≠ .clear) (unreset : call ≠ .resetCounters) :
    p.Flows (p.step filter now call).events (p.step filter now call).plain
      (.ofNat (c.fromPrimary call (p.step filter now call).answer))
      (.ofNat (c.fromOverflow filter now call (p.step filter now call).answer)) := by
  have single := sound.single
  have idle : p.Flows [] p 0 0 := Plain.sameFlows rfl rfl rfl
  have refused : ∀ call e, c.fromPrimary call (.refused e) = 0 ∧
      c.fromOverflow filter now call (.refused e) = 0 := by
    intro call e
    cases call <;> exact ⟨rfl, rfl⟩
  cases call with
  | get k => exact givenFlows (refused (.get k)) (fun _ => Plain.fetchFlows single filter now k)
  | put k v =>
    have stored := Plain.storeFlows sound filter now k v
    rw [shows.handed] at stored
    exact givenFlows (refused (.put k v)) (fun _ => stored)
  | putAll entries =>
    have stored (valid : ∀ k ∈ entries.map Prod.fst, Identity.valid k = true) :=
      shows.batchFlows sound filter now (fun e mem => valid e.1 (List.mem_map_of_mem mem))
    exact givenFlows (refused (.putAll entries)) stored
  | remove k =>
    have discarded := Plain.discardFlows single now k
    have contains := Recency.containsShown shows.primary k
    have found : (if (p.shelf.find? k).isSome then 1 else 0) =
        UInt64.ofNat (if c.primary.contains k then 1 else 0) := by
      rw [contains]
      split <;> rfl
    rw [shows.handed, found] at discarded
    exact givenFlows (refused (.remove k)) (fun _ => discarded)
  | pin k => exact givenFlows (refused (.pin k)) (fun _ => Plain.holdFlows single now k)
  | unpin k => exact givenFlows (refused (.unpin k)) (fun _ => Plain.releaseFlows single filter now k)
  | isPinned k => exact givenFlows (refused (.isPinned k)) (fun _ => idle)
  | containsKey k => exact givenFlows (refused (.containsKey k)) (fun _ => idle)
  | peek k => exact givenFlows (refused (.peek k)) (fun _ => idle)
  | clear => exact absurd rfl uncleared
  | setCacheSize n => exact p.setCacheSizeFlows filter now n
  | setSoftSize n => exact p.setSoftSizeFlows n
  | purge => exact p.purgeFlows now
  | resetCounters => exact absurd rfl unreset
  | _ => exact idle

theorem Shows.stepBalances (shows : c.Shows p) (sound : p.Sound) (filter : Filter K V) (now : Nat)
    {call : Call K V} (uncleared : call ≠ .clear) (unreset : call ≠ .resetCounters) :
    let outcome := c.step filter now call
    c.Balances outcome.cache outcome.events (c.fromPrimary call outcome.answer)
      (c.fromOverflow filter now call outcome.answer) := by
  intro outcome
  obtain ⟨answer, events, after⟩ := shows.step sound filter now call
  have flows := shows.stepFlows sound filter now uncleared unreset
  obtain ⟨removed, handed⟩ := movedAlike answer filter now c call
  rw [← removed, ← handed] at flows
  exact shows.balances after flows events.perm

omit [EquivBEq K] in
theorem stepLookups (c : Cache K V) (filter : Filter K V) (now : Nat) {call : Call K V}
    (uncleared : call ≠ .clear) (unreset : call ≠ .resetCounters) :
    let outcome := c.step filter now call
    outcome.cache.counters.hits = c.counters.hits + (if call.hits outcome.answer then 1 else 0) ∧
    outcome.cache.counters.misses = c.counters.misses + (if call.misses outcome.answer then 1 else 0) := by
  intro outcome
  let before : Lookups := ⟨c.counters.hits.toNat, c.counters.misses.toNat⟩
  have counts : before.Counts c.counters := ⟨by simp [before], by simp [before]⟩
  obtain ⟨hits, misses⟩ := stepCounted filter now call counts
  rw [before.afterParts _ uncleared unreset] at hits misses
  rw [hits, misses, UInt64.ofNat_add, UInt64.ofNat_add, ← counts.hits, ← counts.misses]
  constructor
  · split <;> rfl
  · split <;> rfl

end Cache

theorem Session.runBalanced [BEq K] [EquivBEq K] [Identity K] (filter : Filter K V) {config : Config}
    {s : Session K V} (started : Session.start config = .ok s) (moves : List (Move K V)) {call : Call K V}
    (uncleared : call ≠ .clear) (unreset : call ≠ .resetCounters) :
    let before := (s.run filter moves).cache
    let outcome := before.step filter (s.run filter moves).now call
    let after := outcome.cache
    before.Balances after outcome.events (before.fromPrimary call outcome.answer)
      (before.fromOverflow filter (s.run filter moves).now call outcome.answer) ∧
    after.counters.hits = before.counters.hits + (if call.hits outcome.answer then 1 else 0) ∧
    after.counters.misses = before.counters.misses + (if call.misses outcome.answer then 1 else 0) := by
  intro before outcome after
  obtain ⟨tracks, _⟩ := startTracks started
  obtain ⟨final, _⟩ := tracks.run filter moves
  have balances := final.shows.stepBalances final.sound filter (s.run filter moves).now uncleared unreset
  exact ⟨balances, before.stepLookups filter (s.run filter moves).now uncleared unreset⟩

/- In one batch key 1 is twice taken out of the overflow tier, and each of the three puts evicts the
entry before it. -/
theorem Session.runBalancedSmall :
    let config : Config := { cacheSize := some 1 }
    let filter : Filter Nat Nat := fun _ _ => true
    let moves : List (Move Nat Nat) := [.call (.put 1 10), .call (.put 2 20)]
    let call : Call Nat Nat := .putAll [(1, 11), (3, 30), (1, 12)]
    let s : Session Nat Nat := ⟨0, .empty false (some 1) none none⟩
    (Session.start config = .ok s ∧ call ≠ .clear ∧ call ≠ .resetCounters ∧
      (s.run filter moves).cache.fromOverflow filter 0 call .done = 2 ∧
      evictions ((s.run filter moves).cache.step filter 0 call).events = 3) ∧
    let before := (s.run filter moves).cache
    let outcome := before.step filter (s.run filter moves).now call
    let after := outcome.cache
    before.Balances after outcome.events (before.fromPrimary call outcome.answer)
      (before.fromOverflow filter (s.run filter moves).now call outcome.answer) ∧
    after.counters.hits = before.counters.hits + (if call.hits outcome.answer then 1 else 0) ∧
    after.counters.misses = before.counters.misses + (if call.misses outcome.answer then 1 else 0) := by
  intro config filter moves call s
  have started : Session.start config = .ok s := rfl
  have uncleared : call ≠ .clear := by decide
  have unreset : call ≠ .resetCounters := by decide
  exact ⟨⟨started, uncleared, unreset, by decide, by decide⟩,
    Session.runBalanced filter started moves uncleared unreset⟩

end TieredCache
