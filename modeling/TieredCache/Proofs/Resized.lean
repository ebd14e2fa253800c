import TieredCache.Proofs.Shrinking
import TieredCache.Proofs.Victims

/-! A session resized in two steps or in one. Shrinking a tier by way of a size in between leaves what
shrinking it at once leaves, counts the same and is heard the same, evictions and losses each taken on their
own: in two steps the losses of the first are heard before the evictions of the second. Resizing to the size
a tier has changes nothing. -/
namespace TieredCache
variable {K V : Type}

def Event.lost : Event K V → Option K
  | .evicted _ _ => none
  | .reclaimed k => some k

/-- The keys heard reclaimed, in order. -/
def reclaimedKeys (events : List (Event K V)) : List K := events.filterMap Event.lost

theorem reclaimedHeardKeys (victims : List (K × V)) (keys : List K) :
    reclaimedKeys (victims.map (fun e => .evicted e.1 e.2) ++ keys.map .reclaimed) = keys := by
  simp [reclaimedKeys, List.filterMap_map, Function.comp_def, Event.lost]

theorem victimsHeard (entries : List (K × V)) (keys : List K) :
    victims (entries.map (fun e => .evicted e.1 e.2) ++ keys.map .reclaimed) = entries := by
  rw [victimsAppend, victimsEvicted, victimsReclaimed, List.append_nil]

theorem Counters.recordTwice (c : Counters) (a b x y : Nat) :
    (((c.record .eviction a).record .reclaim x).record .eviction b).record .reclaim y =
      (c.record .eviction (a + b)).record .reclaim (x + y) := by
  have swapped : ((c.record .eviction a).record .reclaim x).record .eviction b =
      ((c.record .eviction a).record .eviction b).record .reclaim x := rfl
  rw [swapped, recordAdd, recordAdd]

namespace Cache

/-- The same cache but for stale records of the overflow tier. -/
structure Agrees [BEq K] (c d : Cache K V) : Prop where
  primary : c.primary = d.primary
  overflow : c.overflow.Agrees d.overflow
  pins : c.pins = d.pins
  counters : c.counters = d.counters
  hint : c.concurrencyHint = d.concurrencyHint

variable [BEq K]

theorem setCacheSizeForm (filter : Filter K V) (now : Nat) (c : Cache K V) (n : Option Nat) :
    let shed := (c.primary.setCapacity n).shed
    let received := c.overflow.receive filter now shed.1
    (c.setCacheSize filter now n).events = shed.1.map (fun e => .evicted e.1 e.2) ++ received.1.map .reclaimed ∧
    (c.setCacheSize filter now n).cache =
      { c with
        primary := shed.2
        overflow := received.2
        counters := (c.counters.record .eviction shed.1.length).record .reclaim received.1.length } :=
  ⟨rfl, rfl⟩

theorem setSoftSizeForm (c : Cache K V) (n : Option Nat) :
    (c.setSoftSize n).events = (c.overflow.setBound n).1.map .reclaimed ∧
    (c.setSoftSize n).cache =
      { c with
        overflow := (c.overflow.setBound n).2
        counters := c.counters.record .reclaim (c.overflow.setBound n).1.length } :=
  ⟨rfl, rfl⟩

variable [EquivBEq K] {c : Cache K V} {p : Plain K V} {m n : Option Nat}

theorem softSizeTwice (c : Cache K V) (sizes : Shrinks m n) :
    ((c.setSoftSize m).cache.setSoftSize n).cache.Agrees (c.setSoftSize n).cache ∧
    (c.setSoftSize m).events ++ ((c.setSoftSize m).cache.setSoftSize n).events = (c.setSoftSize n).events := by
  obtain ⟨dropped, agrees⟩ := c.overflow.setBoundTwice sizes
  obtain ⟨_, cache⟩ := c.setSoftSizeForm m
  rw [cache]
  refine ⟨⟨rfl, agrees, rfl, ?_, rfl⟩, ?_⟩
  · show (c.counters.record .reclaim _).record .reclaim _ = c.counters.record .reclaim _
    rw [Counters.recordAdd, ← List.length_append, dropped]
  · show (c.overflow.setBound m).1.map Event.reclaimed ++ ((c.overflow.setBound m).2.setBound n).1.map _ = _
    rw [← List.map_append, dropped]
    rfl

theorem softSizeAgain (shows : c.Shows p) (n : Option Nat) :
    ((c.setSoftSize n).cache.setSoftSize n).cache = (c.setSoftSize n).cache ∧
    ((c.setSoftSize n).cache.setSoftSize n).events = [] := by
  have again := Overflow.setBoundAgain (Overflow.showsHolds shows.overflow) n
  obtain ⟨_, cache⟩ := c.setSoftSizeForm n
  obtain ⟨events, later⟩ := (c.setSoftSize n).cache.setSoftSizeForm n
  rw [events, later, cache]
  dsimp only
  rw [again]
  exact ⟨by rw [List.length_nil, Counters.recordZero], rfl⟩

theorem cacheSizeTwice (shows : c.Shows p) (sizes : Shrinks m n) (filter : Filter K V) (now : Nat) :
    let first := c.setCacheSize filter now m
    let second := first.cache.setCacheSize filter now n
    let once := c.setCacheSize filter now n
    second.cache = once.cache ∧
    victims first.events ++ victims second.events = victims once.events ∧
    reclaimedKeys first.events ++ reclaimedKeys second.events = reclaimedKeys once.events := by
  intro first second once
  have total := Recency.shedTwice shows.primary sizes
  obtain ⟨first_events, first_cache⟩ := setCacheSizeForm filter now c m
  obtain ⟨once_events, once_cache⟩ := setCacheSizeForm filter now c n
  obtain ⟨second_events, second_cache⟩ := setCacheSizeForm filter now first.cache n
  have received := Overflow.receiveAppend filter now (c.primary.setCapacity m).shed.1
    ((c.primary.setCapacity m).shed.2.setCapacity n).shed.1 c.overflow
  dsimp only at total
  rw [← total] at once_events once_cache
  dsimp only at once_events once_cache
  rw [received] at once_events once_cache
  refine ⟨?_, ?_, ?_⟩
  · rw [second_cache, once_cache, first_cache, List.length_append, List.length_append, ← Counters.recordTwice]
  · rw [first_events, second_events, once_events, victimsHeard, victimsHeard, victimsHeard, first_cache]
  · rw [first_events, second_events, once_events, reclaimedHeardKeys, reclaimedHeardKeys, reclaimedHeardKeys,
      first_cache]

theorem cacheSizeAgain (shows : c.Shows p) (n : Option Nat) (filter : Filter K V) (now : Nat) :
    let first := c.setCacheSize filter now n
    (first.cache.setCacheSize filter now n).cache = first.cache ∧
    (first.cache.setCacheSize filter now n).events = [] := by
  intro first
  obtain ⟨same, _, _⟩ := cacheSizeTwice shows (shrinksSame n) filter now
  have total := congrArg Prod.fst (Recency.shedTwice shows.primary (shrinksSame n))
  have none : (first.cache.primary.setCapacity n).shed.1 = [] := List.append_right_eq_self.mp total
  obtain ⟨events, _⟩ := setCacheSizeForm filter now first.cache n
  rw [none] at events
  exact ⟨same, events⟩

end Cache

namespace Session
variable [BEq K] [Identity K]

/-- What is left, counted and heard when a tier is made smaller by way of a size in between, and when it is
given the size it has. -/
structure Resizes (filter : Filter K V) (s : Session K V) (m n : Option Nat) : Prop where
  cacheSize : (s.after filter (.setCacheSize m)).after filter (.setCacheSize n) = s.after filter (.setCacheSize n)
  evicted : victims (s.events filter (.setCacheSize m)) ++
      victims ((s.after filter (.setCacheSize m)).events filter (.setCacheSize n)) =
    victims (s.events filter (.setCacheSize n))
  reclaimed : reclaimedKeys (s.events filter (.setCacheSize m)) ++
      reclaimedKeys ((s.after filter (.setCacheSize m)).events filter (.setCacheSize n)) =
    reclaimedKeys (s.events filter (.setCacheSize n))
  softSize : ((s.after filter (.setSoftSize m)).after filter (.setSoftSize n)).cache.Agrees
    (s.after filter (.setSoftSize n)).cache
  displaced : s.events filter (.setSoftSize m) ++ (s.after filter (.setSoftSize m)).events filter (.setSoftSize n) =
    s.events filter (.setSoftSize n)
  again : ∀ call ∈ [.setCacheSize n, .setSoftSize n],
    (s.after filter call).after filter call = s.after filter call ∧ (s.after filter call).events filter call = []

variable [EquivBEq K] {s : Session K V} {p : Plain K V}

theorem Tracks.resizes (tracks : s.Tracks p) (filter : Filter K V) {m n : Option Nat} (sizes : Shrinks m n) :
    s.Resizes filter m n := by
  obtain ⟨state, evicted, reclaimed⟩ := Cache.cacheSizeTwice tracks.shows sizes filter s.now
  obtain ⟨agrees, displaced⟩ := s.cache.softSizeTwice sizes
  refine ⟨congrArg (Session.mk s.now) state, evicted, reclaimed, agrees, displaced, ?_⟩
  intro call mem
  simp only [List.mem_cons, List.not_mem_nil, or_false] at mem
  rcases mem with rfl | rfl
  · obtain ⟨same, silent⟩ := Cache.cacheSizeAgain tracks.shows n filter s.now
    exact ⟨congrArg (Session.mk s.now) same, silent⟩
  · obtain ⟨same, silent⟩ := Cache.softSizeAgain tracks.shows n
    exact ⟨congrArg (Session.mk s.now) same, silent⟩

theorem runResized (filter : Filter K V) {config : Config} (started : start config = .ok s)
    (moves : List (Move K V)) {m n : Option Nat} (sizes : Shrinks m n) :
    (s.run filter moves).Resizes filter m n :=
  ((startTracks started).1.run filter moves).1.resizes filter sizes

/- Key 1 is lost before 4 is evicted when the tier shrinks in two steps, and after it when in one. -/
theorem runResizedSmall :
    let config : Config := { cacheSize := some 3, softSize := some 2 }
    let filter : Filter Nat Nat := Filter.all
    let moves : List (Move Nat Nat) := [.call (.putAll [(1, 10), (2, 20), (3, 30), (4, 40), (5, 50)])]
    let s : Session Nat Nat := ⟨0, .empty false (some 3) (some 2) none⟩
    (start config = .ok s ∧ Shrinks (some 2) (some 1) ∧ Shrinks none (some 1) ∧
      (s.run filter moves).events filter (.setCacheSize (some 2)) = [.evicted 3 30, .reclaimed 1] ∧
      ((s.run filter moves).after filter (.setCacheSize (some 2))).events filter (.setCacheSize (some 1)) =
        [.evicted 4 40, .reclaimed 2] ∧
      (s.run filter moves).events filter (.setCacheSize (some 1)) =
        [.evicted 3 30, .evicted 4 40, .reclaimed 1, .reclaimed 2]) ∧
    (s.run filter moves).Resizes filter (some 2) (some 1) ∧ (s.run filter moves).Resizes filter none (some 1) := by
  intro config filter moves s
  have started : start config = .ok s := rfl
  have fewer : Shrinks (some 2) (some 1) := by
    intro most same
    cases same
    exact ⟨1, rfl, by decide⟩
  have bounded : Shrinks none (some 1) := nofun
  exact ⟨⟨started, fewer, bounded, by decide, by decide, by decide⟩, runResized filter started moves fewer,
    runResized filter started moves bounded⟩

end Session
end TieredCache
