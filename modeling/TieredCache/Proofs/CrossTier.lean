import TieredCache.Proofs.Refinement

/-! What ties the tiers and the pins of a cache together in every state a session reaches. No key
is held twice, not even expired; the pinned flags are the pins; a pinned key never overflows; sizes
are respected; every key has identity. Nothing that is evicted is offered to the overflow tier while
that tier holds its key, so that an admission replaces no handle. -/
namespace TieredCache
open Keyed (Apart find without)
variable {K V : Type} [BEq K]

structure Cache.CrossTier [Identity K] (c : Cache K V) : Prop where
  apart : ∀ k, ¬(c.primary.contains k = true ∧ c.overflow.held.contains k = true)
  flagged : ∀ e ∈ c.primary.index.entries,
    ∃ node, c.primary.slab.node? e.2 = some node ∧ node.pinned = c.pins.contains e.1
  free : ∀ k, c.pins.contains k = true → c.overflow.held.contains k = false
  fits : ∀ most, c.cacheSize = some most →
    c.primary.index.entries.countP (fun e => !c.primary.slab.isPinned e.2) ≤ most
  bounded : ∀ soft, c.softSize = some soft → c.overflow.held.size ≤ soft
  total : ∀ most soft, c.cacheSize = some most → c.softSize = some soft →
    ∀ now, c.size now ≤ most + c.pins.size + soft
  valid : ∀ k ∈ c.primary.index.keys ++ c.overflow.held.keys ++ c.pins.keys, Identity.valid k = true

def Overflow.offers (filter : Filter K V) (now : Nat) :
    List (K × V) → Overflow K V → List (K × Overflow K V)
  | [], _ => []
  | (k, v) :: rest, o =>
      if filter k v then (k, o) :: offers filter now rest (o.accept now k v).2
      else offers filter now rest o

/-- How a tier comes from one state to another when keys are only withdrawn from it and entries offered to it, with
the offers in turn. Of an offer the key is listed, and the tier as the offer finds it. -/
inductive Overflow.Leads (filter : Filter K V) (now : Nat) :
    Overflow K V → List (K × Overflow K V) → Overflow K V → Prop where
  | done (o : Overflow K V) : Leads filter now o [] o
  | withdrawn {o u : Overflow K V} {offers : List (K × Overflow K V)} (k : K)
      (later : Leads filter now (o.withdraw now k).2 offers u) : Leads filter now o offers u
  | offered {o u : Overflow K V} {offers : List (K × Overflow K V)} {k : K} {v : V} (accepted : filter k v = true)
      (later : Leads filter now (o.accept now k v).2 offers u) : Leads filter now o ((k, o) :: offers) u

/-- The calls that take from the overflow tier in other ways. -/
def Call.reduces : Call K V → Bool
  | .setSoftSize _ | .purge | .clear => true
  | _ => false

namespace Cache

def settling (filter : Filter K V) (now : Nat) (c : Cache K V) : List (K × Overflow K V) :=
  c.overflow.offers filter now c.primary.shed.1

def arrived (now : Nat) (c : Cache K V) (k : K) (v : V) : Option (Cache K V) :=
  if c.primary.contains k then none
  else some ((c.withdraw now k).cache.enter k v (c.pins.contains k))

def arrivedAll (filter : Filter K V) (now : Nat) (c : Cache K V) : List (K × V) → List (Cache K V)
  | [] => []
  | (k, v) :: rest =>
      (c.arrived now k v).toList ++ (c.store filter now k v).cache.arrivedAll filter now rest

variable [Identity K]

/-- The caches that a call settles, one after another. -/
def unsettled (filter : Filter K V) (now : Nat) (c : Cache K V) : Call K V → List (Cache K V)
  | .get k =>
      if Identity.valid k then ((c.withdraw now k).answer.bind (c.arrived now k)).toList else []
  | .put k v => if Identity.valid k then (c.arrived now k v).toList else []
  | .putAll entries =>
      if entries.all (fun e => Identity.valid e.1) then c.arrivedAll filter now entries else []
  | .unpin k =>
      if Identity.valid k && c.primary.contains k then
        [{ c with pins := (c.pins.drop k).2, primary := (c.primary.setPinned k false).2 }]
      else []
  | .setCacheSize n => [{ c with primary := c.primary.setCapacity n }]
  | _ => []

def offers (filter : Filter K V) (now : Nat) (c : Cache K V) (call : Call K V) :
    List (K × Overflow K V) :=
  (c.unsettled filter now call).flatMap (·.settling filter now)

end Cache

def admitted (offers : List (K × Overflow K V)) : Nat := offers.countP (fun offer => offer.2.enabled)

namespace Overflow

/- An admission draws the next generation, and nothing else does. -/
theorem compactDraws (o : Overflow K V) : o.compact.nextGeneration = o.nextGeneration := by
  unfold compact
  split <;> rfl

theorem trimDraws (o : Overflow K V) : (o.trim).2.nextGeneration = o.nextGeneration := by
  unfold trim
  split <;> rfl

theorem sweepDraws (o : Overflow K V) (now : Nat) : (o.sweep now).2.nextGeneration = o.nextGeneration := by
  unfold sweep
  split <;> rfl

theorem withdrawDraws (o : Overflow K V) (now : Nat) (k : K) :
    (o.withdraw now k).2.nextGeneration = o.nextGeneration := by
  unfold withdraw
  split
  · rfl
  · dsimp only
    split <;> rfl

theorem acceptDraws (o : Overflow K V) (now : Nat) (k : K) (v : V) :
    (o.accept now k v).2.nextGeneration = o.nextGeneration + if o.enabled then 1 else 0 := by
  unfold accept
  split
  · dsimp only
    rw [compactDraws, trimDraws]
    exact congrArg (· + 1) (o.sweepDraws now)
  · rfl

theorem Leads.trans {filter : Filter K V} {now : Nat} {o u w : Overflow K V} {first second : List (K × Overflow K V)}
    (one : o.Leads filter now first u) (two : u.Leads filter now second w) :
    o.Leads filter now (first ++ second) w := by
  induction one with
  | done o => exact two
  | withdrawn k later ih => exact .withdrawn k (ih two)
  | offered accepted later ih => exact .offered accepted (ih two)

theorem Leads.draws {filter : Filter K V} {now : Nat} {o u : Overflow K V} {offers : List (K × Overflow K V)}
    (leads : o.Leads filter now offers u) : u.nextGeneration = o.nextGeneration + admitted offers := by
  induction leads with
  | done o => rfl
  | @withdrawn o u offers k later ih => rw [ih, withdrawDraws]
  | @offered o u offers k v accepted later ih =>
    rw [ih, acceptDraws]
    simp only [admitted, List.countP_cons]
    omega

theorem receiveLeads (filter : Filter K V) (now : Nat) (victims : List (K × V)) (o : Overflow K V) :
    o.Leads filter now (o.offers filter now victims) (o.receive filter now victims).2 := by
  induction victims generalizing o with
  | nil => exact .done o
  | cons e rest ih =>
    unfold receive offers
    split
    · exact .offered ‹_› (ih _)
    · exact ih o

variable [EquivBEq K] {o : Overflow K V} {l : Line K V}

theorem offersFresh (shows : o.Shows l) (filter : Filter K V) (now : Nat) {victims : List (K × V)}
    (apart : Apart Prod.fst victims) (fresh : ∀ e ∈ victims, find Admission.key l.waiting e.1 = none) :
    ∀ offer ∈ o.offers filter now victims, offer.2.held.contains offer.1 = false := by
  induction victims generalizing o l with
  | nil => simp [offers]
  | cons e rest ih =>
    obtain ⟨k, v⟩ := e
    obtain ⟨others, apart⟩ := Keyed.apartCons.mp apart
    obtain ⟨_, offered⟩ := offerShows shows filter now (fresh (k, v) (by simp)) v
    have still := offerLeaves filter now (v := v) others (fun e mem => fresh e (by simp [mem]))
    -- Admitting this entry brings in none of the keys that are still to be offered.
    have later := ih offered apart still
    have first : o.held.contains k = false := by
      rw [containsShown shows, fresh (k, v) (by simp)]
      rfl
    unfold offers
    cases accepted : filter k v with
    | true =>
      simp only [accepted, if_true] at later ⊢
      intro offer mem
      rcases List.mem_cons.mp mem with rfl | mem
      · exact first
      · exact later offer mem
    | false =>
      simp only [accepted, Bool.false_eq_true, if_false] at later ⊢
      exact later

end Overflow

namespace Cache
variable [EquivBEq K] {c : Cache K V} {p : Plain K V}

theorem Shows.crossTier [Identity K] (shows : c.Shows p) (sound : p.Sound) (fits : p.Fits) :
    c.CrossTier := by
  have keys := Recency.indexKeys shows.primary
  have held := Overflow.heldKeys shows.overflow
  have pinned : p.shelf.pinned.length ≤ c.pins.size := by
    rw [Pins.size, shows.pins]
    exact Keyed.apartLength sound.single.pinned p.pins sound.fixed
  have recent : ∀ most, c.cacheSize = some most → p.shelf.recent.length ≤ most :=
    fun most capped => fits most ((Recency.capacityShown shows.primary).trans capped)
  have waiting : ∀ soft, c.softSize = some soft → p.line.waiting.length ≤ soft :=
    fun soft capped => sound.within soft ((Overflow.boundShown shows.overflow).trans capped)
  refine ⟨?_, ?_, ?_, ?_, ?_, ?_, ?_⟩
  · rintro k ⟨cached, waits⟩
    rw [Recency.containsShown shows.primary] at cached
    rw [Overflow.containsShown shows.overflow, sound.single.either cached] at waits
    exact Bool.false_ne_true waits
  · intro e mem
    obtain ⟨node, found, side⟩ := Recency.indexNode shows.primary mem
    refine ⟨node, found, ?_⟩
    rw [shows.pinned]
    split at side
    · rename_i flag
      obtain ⟨d, also, key⟩ := List.mem_map.mp side
      rw [flag, ← key, sound.fixed d also]
    · rename_i flag
      obtain ⟨d, also, key⟩ := List.mem_map.mp side
      rw [← key, sound.free d also]
      exact Bool.eq_false_iff.mpr flag
  · intro k marked
    rw [Overflow.containsShown shows.overflow, Option.isSome_eq_false_iff, Option.isNone_iff_eq_none,
      Keyed.findNone]
    intro a waits
    rw [shows.pinned] at marked
    cases at_k : a.key == k with
    | false => rfl
    | true =>
      have passing := sound.passing a waits
      rw [p.pinnedCongr at_k, marked] at passing
      exact passing
  · intro most capped
    rw [Recency.indexUnpinned shows.primary]
    exact recent most capped
  · intro soft capped
    rw [Overflow.heldSize shows.overflow]
    exact waiting soft capped
  · intro most soft capped_most capped_soft now
    have few := recent most capped_most
    have some := waiting soft capped_soft
    have live : (p.line.live now).length ≤ p.line.waiting.length := List.length_filter_le _ _
    rw [shows.size, Plain.size]
    omega
  · intro k mem
    rcases List.mem_append.mp mem with mem | mem
    · rcases List.mem_append.mp mem with mem | mem
      · obtain ⟨e, also, rfl⟩ := List.mem_map.mp (keys.mem_iff.mp mem)
        exact sound.shelved e also
      · obtain ⟨a, also, rfl⟩ := List.mem_map.mp (held.mem_iff.mp mem)
        exact sound.queued a also
    · rw [shows.pins] at mem
      exact sound.named k mem

theorem Shows.settled (shows : c.Shows p) (single : p.Single) (filter : Filter K V) (now : Nat) :
    ∀ offer ∈ c.settling filter now, offer.2.held.contains offer.1 = false := by
  obtain ⟨victims, _⟩ := Recency.shedShows shows.primary
  obtain ⟨apart, fresh⟩ := surplusFresh single
  rw [settling, victims]
  exact Overflow.offersFresh shows.overflow filter now apart fresh

variable [Identity K]

theorem Shows.arrived (shows : c.Shows p) (sound : p.Sound) (now : Nat) {k : K}
    (valid : Identity.valid k = true) {v : V} {d : Cache K V} (settling : c.arrived now k v = some d) :
    ∃ q : Plain K V, d.Shows q ∧ q.Sound := by
  unfold Cache.arrived at settling
  split at settling
  · simp at settling
  · rename_i missing
    obtain rfl := Option.some.inj settling
    rw [Recency.containsShown shows.primary, Option.not_isSome_iff_eq_none] at missing
    exact ⟨_, shows.arrive sound now valid missing v⟩

theorem Shows.arrivedAll (shows : c.Shows p) (sound : p.Sound) (filter : Filter K V) (now : Nat)
    {entries : List (K × V)} (valid : ∀ e ∈ entries, Identity.valid e.1 = true) :
    ∀ d ∈ c.arrivedAll filter now entries, ∃ q : Plain K V, d.Shows q ∧ q.Sound := by
  induction entries generalizing c p with
  | nil => simp [Cache.arrivedAll]
  | cons e rest ih =>
    have at_e := valid e (by simp)
    have next := (shows.store sound filter now at_e e.2).shows
    have lawful := Plain.storeLawful sound filter now at_e e.2
    intro d mem
    rcases List.mem_append.mp mem with mem | mem
    · exact shows.arrived sound now at_e (Option.mem_toList.mp mem)
    · exact ih next lawful.sound (fun d also => valid d (by simp [also])) d mem

theorem Shows.unsettled (shows : c.Shows p) (sound : p.Sound) (filter : Filter K V) (now : Nat)
    (call : Call K V) : ∀ d ∈ c.unsettled filter now call, ∃ q : Plain K V, d.Shows q ∧ q.Sound := by
  intro d mem
  cases call with
  | get k =>
    simp only [Cache.unsettled] at mem
    split at mem
    · rename_i valid
      obtain ⟨v, _, settling⟩ := Option.bind_eq_some_iff.mp (Option.mem_toList.mp mem)
      exact shows.arrived sound now valid settling
    · simp at mem
  | put k v =>
    simp only [Cache.unsettled] at mem
    split at mem
    · rename_i valid
      exact shows.arrived sound now valid (Option.mem_toList.mp mem)
    · simp at mem
  | putAll entries =>
    simp only [Cache.unsettled] at mem
    split at mem
    · rename_i valid
      exact shows.arrivedAll sound filter now (List.all_eq_true.mp valid) d mem
    · simp at mem
  | unpin k =>
    simp only [Cache.unsettled] at mem
    split at mem
    · obtain rfl := List.mem_singleton.mp mem
      obtain ⟨_, moved⟩ := Recency.unpinShows shows.primary k
      exact ⟨{ p with shelf := p.shelf.unpin k, pins := without id p.pins k },
        ⟨moved, shows.overflow, congrArg (without id · k) shows.pins, shows.counters, shows.hint⟩,
        sound.unpin k⟩
    · simp at mem
  | setCacheSize n =>
    obtain rfl := List.mem_singleton.mp mem
    exact ⟨_, shows.withPrimary (Recency.setCapacityShows shows.primary n), sound.withCapacity n⟩
  | _ => simp [Cache.unsettled] at mem

omit [Identity K] [EquivBEq K] in
theorem settleLeads (filter : Filter K V) (now : Nat) (c : Cache K V) :
    c.overflow.Leads filter now (c.settling filter now) (c.settle filter now).cache.overflow :=
  Overflow.receiveLeads filter now c.primary.shed.1 c.overflow

omit [Identity K] [EquivBEq K] in
theorem withdrawLeads (filter : Filter K V) (now : Nat) (c : Cache K V) (k : K) :
    c.overflow.Leads filter now [] (c.withdraw now k).cache.overflow := by
  have taken : c.overflow.Leads filter now [] (c.overflow.withdraw now k).2 := .withdrawn k (.done _)
  unfold Cache.withdraw
  dsimp only
  split <;> exact taken

omit [Identity K] [EquivBEq K] in
theorem storeLeads (filter : Filter K V) (now : Nat) (c : Cache K V) (k : K) (v : V) :
    c.overflow.Leads filter now ((c.arrived now k v).toList.flatMap (·.settling filter now))
      (c.store filter now k v).cache.overflow := by
  unfold Cache.store Cache.arrived
  split
  · exact .done _
  · have settled := settleLeads filter now
      (((c.withdraw now k).cache.enter k v (c.pins.contains k)).count .insert 1)
    rw [Option.toList_some, List.flatMap_singleton]
    exact (c.withdrawLeads filter now k).trans settled

omit [Identity K] [EquivBEq K] in
theorem storeAllLeads (filter : Filter K V) (now : Nat) (entries : List (K × V)) (c : Cache K V) :
    c.overflow.Leads filter now ((c.arrivedAll filter now entries).flatMap (·.settling filter now))
      (c.storeAll filter now entries).cache.overflow := by
  induction entries generalizing c with
  | nil => exact .done _
  | cons e rest ih =>
    unfold Cache.storeAll Cache.arrivedAll
    rw [List.flatMap_append]
    exact (c.storeLeads filter now e.1 e.2).trans (ih (c.store filter now e.1 e.2).cache)

omit [Identity K] in
theorem Shows.fetchLeads (shows : c.Shows p) (filter : Filter K V) (now : Nat) (k : K) :
    c.overflow.Leads filter now
      (((c.withdraw now k).answer.bind (c.arrived now k)).toList.flatMap (·.settling filter now))
      (c.fetch filter now k).cache.overflow := by
  have contains := Recency.containsShown shows.primary k
  have taken := c.withdrawLeads filter now k
  unfold Cache.fetch Cache.arrived
  dsimp only
  rw [(Recency.getShows shows.primary k).1, contains]
  cases p.shelf.find? k with
  | some v =>
    cases (c.withdraw now k).answer <;> exact .done _
  | none =>
    dsimp only
    cases (c.withdraw now k).answer with
    | none => exact taken
    | some v =>
      have settled := settleLeads filter now
        ((((c.withdraw now k).cache.count .hit 1).count .promotion 1).enter k v (c.pins.contains k))
      simp only [Option.bind_some, Option.isSome_none, Bool.false_eq_true, if_false, Option.toList_some,
        List.flatMap_singleton]
      exact taken.trans settled

omit [Identity K] [EquivBEq K] in
theorem holdLeads (filter : Filter K V) (now : Nat) (c : Cache K V) (k : K) :
    c.overflow.Leads filter now [] (c.hold now k).cache.overflow := by
  have taken := c.withdrawLeads filter now k
  unfold Cache.hold
  dsimp only
  split
  · exact .done _
  · split <;> exact taken

omit [Identity K] in
theorem Shows.releaseLeads (shows : c.Shows p) (filter : Filter K V) (now : Nat) (k : K) :
    c.overflow.Leads filter now ((if c.primary.contains k then
        [{ c with pins := (c.pins.drop k).2, primary := (c.primary.setPinned k false).2 }]
        else []).flatMap (settling filter now)) (c.release filter now k).cache.overflow := by
  have contains := Recency.containsShown shows.primary k
  have found := (Recency.unpinShows shows.primary k).1
  have settled := settleLeads filter now
    { c with pins := (c.pins.drop k).2, primary := (c.primary.setPinned k false).2 }
  unfold Cache.release
  dsimp only
  rw [found, contains]
  cases p.shelf.find? k with
  | none => exact .done _
  | some v =>
    simp only [Option.isSome_some, if_true, List.flatMap_singleton]
    exact settled

/- The offers listed are those that the call makes, and from one to the next the tier is only withdrawn from. -/
theorem Shows.stepLeads (shows : c.Shows p) (filter : Filter K V) (now : Nat) {call : Call K V}
    (other : call.reduces = false) :
    c.overflow.Leads filter now (c.offers filter now call) (c.step filter now call).cache.overflow := by
  unfold offers
  cases call with
  | get k =>
    have fetched := shows.fetchLeads filter now k
    simp only [Cache.step, Cache.get, check, Cache.unsettled]
    cases Identity.valid k with
    | false => exact .done _
    | true => exact fetched
  | put k v =>
    have stored := c.storeLeads filter now k v
    simp only [Cache.step, Cache.put, check, Cache.unsettled]
    cases Identity.valid k with
    | false => exact .done _
    | true => exact stored
  | putAll entries =>
    have stored := storeAllLeads filter now entries c
    have keys : (entries.map Prod.fst).all Identity.valid = entries.all (fun e => Identity.valid e.1) := by
      simp [Function.comp_def]
    simp only [Cache.step, Cache.putAll, checkAllEq, Cache.unsettled, keys]
    cases entries.all (fun e => Identity.valid e.1) with
    | false => exact .done _
    | true => exact stored
  | remove k =>
    have taken := withdrawLeads filter now { c with primary := (c.primary.remove k).2, pins := (c.pins.drop k).2 } k
    simp only [Cache.step, Cache.remove, check]
    cases Identity.valid k with
    | false => exact .done _
    | true => exact taken
  | pin k =>
    have held := c.holdLeads filter now k
    simp only [Cache.step, Cache.pin, check]
    cases Identity.valid k with
    | false => exact .done _
    | true => exact held
  | unpin k =>
    have released := shows.releaseLeads filter now k
    simp only [Cache.step, Cache.unpin, check, Cache.unsettled]
    cases Identity.valid k with
    | false => exact .done _
    | true => exact released
  | setCacheSize n =>
    have settled := settleLeads filter now { c with primary := c.primary.setCapacity n }
    simp only [Cache.unsettled, List.flatMap_singleton]
    exact settled
  | setSoftSize n => exact Bool.noConfusion other
  | purge => exact Bool.noConfusion other
  | clear => exact Bool.noConfusion other
  | _ => exact .done _

theorem Shows.stepDraws (shows : c.Shows p) (filter : Filter K V) (now : Nat) (call : Call K V) :
    (c.step filter now call).cache.overflow.nextGeneration =
      c.overflow.nextGeneration + admitted (c.offers filter now call) := by
  cases reduces : call.reduces with
  | false => exact (shows.stepLeads filter now reduces).draws
  | true =>
    cases call with
    | setSoftSize n =>
      exact (Overflow.compactDraws _).trans (Overflow.trimDraws { c.overflow with bound := n })
    | purge => exact Overflow.compactDraws _
    | clear => rfl
    | _ => exact Bool.noConfusion reduces

end Cache

namespace Session
variable [Identity K] [EquivBEq K]

/- The last part says that the offers listed are all that was admitted. -/
theorem runCrossTier (filter : Filter K V) {config : Config} {s : Session K V}
    (started : start config = .ok s) (moves : List (Move K V)) :
    (s.run filter moves).cache.CrossTier ∧
    ∀ now call,
      (∀ offer ∈ (s.run filter moves).cache.offers filter now call, offer.2.held.contains offer.1 = false) ∧
      ((s.run filter moves).cache.step filter now call).cache.overflow.nextGeneration =
        (s.run filter moves).cache.overflow.nextGeneration +
          admitted ((s.run filter moves).cache.offers filter now call) := by
  obtain ⟨tracks, _⟩ := startTracks started
  obtain ⟨⟨shows, sound, fits⟩, _⟩ := tracks.run filter moves
  refine ⟨shows.crossTier sound fits, fun now call => ⟨?_, shows.stepDraws filter now call⟩⟩
  intro offer mem
  obtain ⟨d, unsettled, offered⟩ := List.mem_flatMap.mp mem
  obtain ⟨q, shown, sound⟩ := shows.unsettled sound filter now call d unsettled
  exact shown.settled sound.single filter now offer offered

theorem runCrossTierSmall :
    let config : Config := { cacheSize := some 1, softSize := some 2, reclaimAfter := some 1 }
    let filter : Filter (Option Nat) Nat := fun _ v => v != 0
    let moves : List (Move (Option Nat) Nat) :=
      [.call (.put (some 1) 10), .call (.put (some 2) 20), .call (.pin (some 2)), .call (.put none 3),
        .wait 1000000, .call (.put (some 3) 30), .call (.put (some 1) 11)]
    let s : Session (Option Nat) Nat := ⟨0, .empty false (some 1) (some 2) (some 1000000)⟩
    start config = .ok s ∧
    (s.run filter moves).cache.CrossTier ∧
    ∀ now call,
      (∀ offer ∈ (s.run filter moves).cache.offers filter now call, offer.2.held.contains offer.1 = false) ∧
      ((s.run filter moves).cache.step filter now call).cache.overflow.nextGeneration =
        (s.run filter moves).cache.overflow.nextGeneration +
          admitted ((s.run filter moves).cache.offers filter now call) := by
  intro config filter moves s
  have started : start config = .ok s := rfl
  exact ⟨started, runCrossTier filter started moves⟩

end Session
end TieredCache
