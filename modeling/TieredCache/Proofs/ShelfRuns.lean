import TieredCache.Proofs.ShelfCalls

/-! The primary tier under any calls, one after another, beside a shelf of two plain lists. Call by
call the two give the same reply, evictions in the same order; at every moment the links of the slab
spell the unpinned list, the slots aside the pinned one, and no key is on the shelf twice. -/
namespace TieredCache
open Keyed (Apart find without)
variable {K V : Type}

namespace Shelf

def bare (capacity : Option Nat) (byUse : Bool) : Shelf K V := ⟨[], [], capacity, byUse⟩

def excess (s : Shelf K V) : Nat :=
  match s.capacity with
  | some most => s.recent.length - most
  | none => 0

def evictLast (s : Shelf K V) : Option (K × V) × Shelf K V :=
  match s.recent.getLast? with
  | some e => (some e, { s with recent := s.recent.dropLast })
  | none => (none, s)

theorem surplusLength (s : Shelf K V) : s.surplus.length = s.excess := by
  unfold surplus excess
  cases s.capacity with
  | none => rfl
  | some most => simp

variable [BEq K]

def insert (s : Shelf K V) (k : K) (v : V) (pinned : Bool) : Option V × Shelf K V :=
  match s.find? k with
  | some old => (some old, (s.replace k v).touch k)
  | none => (none, s.enter k v pinned)

def setPinned (s : Shelf K V) (k : K) : Bool → Shelf K V
  | true => s.pin k
  | false => s.unpin k

def step (s : Shelf K V) : Recency.Call K V → Recency.Reply K V × Shelf K V
  | .insert k v pinned => let inserted := s.insert k v pinned; (.value inserted.1, inserted.2)
  | .get k => (.value (s.find? k), s.touch k)
  | .peek k => (.value (s.find? k), s)
  | .contains k => (.flag (s.find? k).isSome, s)
  | .remove k => (.value (s.find? k), s.remove k)
  | .setPinned k pinned => (.flag (s.find? k).isSome, s.setPinned k pinned)
  | .evictOldest => let evicted := s.evictLast; (.evicted evicted.1, evicted.2)
  | .shed => (.shed s.surplus, s.fitted)
  | .setCapacity n => (.done, { s with capacity := n })
  | .clear => (.done, bare s.capacity s.byUse)
  | .capacity => (.capacity s.capacity, s)
  | .overCapacity => (.flag (s.capacity.any (· < s.recent.length)), s)

def run (s : Shelf K V) (calls : List (Recency.Call K V)) : Shelf K V :=
  calls.foldl (fun s call => (s.step call).2) s

def trace (s : Shelf K V) : List (Recency.Call K V) → List (Recency.Reply K V)
  | [] => []
  | call :: rest => (s.step call).1 :: (s.step call).2.trace rest

end Shelf

namespace Recency
open Slab (Cell)
variable {r : Recency K V} {s : Shelf K V}

def trace [BEq K] (r : Recency K V) : List (Call K V) → List (Reply K V)
  | [] => []
  | call :: rest => (r.step call).1 :: (r.step call).2.trace rest

/-- What the primary tier holds, read off its own structures. -/
structure Spells (r : Recency K V) (s : Shelf K V) : Prop where
  recent : r.unpinnedEntries = s.recent
  pinned : r.pinnedEntries.Perm s.pinned
  size : r.size = s.recent.length + s.pinned.length
  unpinned : r.unpinned = s.recent.length
  settings : (r.capacity, r.byUse) = (s.capacity, s.byUse)

variable [BEq K]

theorem unpinnedCounted (shows : r.Shows s) : r.unpinned = s.recent.length := by
  obtain ⟨chain, aside, layout, rfl⟩ := shows
  simpa [shelf] using layout.count

theorem shownSpells (shows : r.Shows s) : r.Spells s where
  recent := unpinnedShown shows
  pinned := pinnedShown shows
  size := sizeShown shows
  unpinned := unpinnedCounted shows
  settings := by simp [capacityShown shows, byUseShown shows]

theorem shownApart (shows : r.Shows s) : Apart Prod.fst s.entries := by
  obtain ⟨chain, aside, layout, rfl⟩ := shows
  have entries : (r.shelf chain aside).entries = (chain ++ aside).map Cell.entry := List.map_append.symm
  rw [entries]
  exact (Keyed.apartMapped Prod.fst Cell.entry _).mpr layout.apart

theorem overCapacityShown (shows : r.Shows s) :
    r.overCapacity = s.capacity.any (· < s.recent.length) := by
  have capacity := capacityShown shows
  have unpinned := unpinnedCounted shows
  unfold overCapacity
  rw [capacity, unpinned]
  cases r.capacity <;> rfl

variable [EquivBEq K]

theorem insertShows (shows : r.Shows s) (k : K) (v : V) (pinned : Bool) :
    (r.insert k v pinned).1 = (s.insert k v pinned).1 ∧
    (r.insert k v pinned).2.Shows (s.insert k v pinned).2 := by
  unfold Shelf.insert
  cases found : s.find? k with
  | none => exact insertAbsent shows found v pinned
  | some old =>
    have held : (s.find? k).isSome := by simp [found]
    obtain ⟨previous, replaced⟩ := insertHeld shows held v pinned
    exact ⟨previous.trans found, replaced⟩

theorem setPinnedShows (shows : r.Shows s) (k : K) (pinned : Bool) :
    (r.setPinned k pinned).1 = (s.find? k).isSome ∧
    (r.setPinned k pinned).2.Shows (s.setPinned k pinned) := by
  cases pinned with
  | true => exact pinShows shows k
  | false => exact unpinShows shows k

theorem evictOldestShows (shows : r.Shows s) :
    (r.evictOldest).1 = (s.evictLast).1 ∧ (r.evictOldest).2.Shows (s.evictLast).2 := by
  obtain ⟨chain, aside, layout, rfl⟩ := shows
  unfold Shelf.evictLast
  rcases List.eq_nil_or_concat chain with rfl | ⟨rest, c, rfl⟩
  · have oldest : r.slab.oldest = none := layout.slab.oldest
    have stays : r.evictOldest = (none, r) := by simp [evictOldest, oldest]
    rw [stays]
    exact ⟨rfl, [], aside, layout, rfl⟩
  · rw [List.concat_eq_append] at layout ⊢
    obtain ⟨victim, left, same⟩ := evictOldestLast layout
    have last : (r.shelf (rest ++ [c]) aside).recent = rest.map Cell.entry ++ [c.entry] := by simp [shelf]
    simp only [last, List.getLast?_append, List.getLast?_singleton, Option.some_or, List.dropLast_concat]
    exact ⟨victim, rest, aside, left, same⟩

theorem stepShows (shows : r.Shows s) (call : Call K V) :
    (r.step call).1 = (s.step call).1 ∧ (r.step call).2.Shows (s.step call).2 := by
  cases call with
  | insert k v pinned =>
    obtain ⟨previous, inserted⟩ := insertShows shows k v pinned
    exact ⟨congrArg Reply.value previous, inserted⟩
  | get k =>
    obtain ⟨value, touched⟩ := getShows shows k
    exact ⟨congrArg Reply.value value, touched⟩
  | peek k => exact ⟨congrArg Reply.value (peekShown shows k), shows⟩
  | contains k => exact ⟨congrArg Reply.flag (containsShown shows k), shows⟩
  | remove k =>
    obtain ⟨value, removed⟩ := removeShows shows k
    exact ⟨congrArg Reply.value value, removed⟩
  | setPinned k pinned =>
    obtain ⟨found, set⟩ := setPinnedShows shows k pinned
    exact ⟨congrArg Reply.flag found, set⟩
  | evictOldest =>
    obtain ⟨victim, left⟩ := evictOldestShows shows
    exact ⟨congrArg Reply.evicted victim, left⟩
  | shed =>
    obtain ⟨victims, fitted⟩ := shedShows shows
    exact ⟨congrArg Reply.shed victims, fitted⟩
  | setCapacity n => exact ⟨rfl, setCapacityShows shows n⟩
  | clear => exact ⟨rfl, clearShows shows⟩
  | capacity => exact ⟨congrArg Reply.capacity (capacityShown shows).symm, shows⟩
  | overCapacity => exact ⟨congrArg Reply.flag (overCapacityShown shows), shows⟩

theorem runShows (shows : r.Shows s) (calls : List (Call K V)) :
    r.trace calls = s.trace calls ∧ (r.run calls).Shows (s.run calls) := by
  induction calls generalizing r s with
  | nil => exact ⟨rfl, shows⟩
  | cons call rest ih =>
    obtain ⟨reply, next⟩ := stepShows shows call
    obtain ⟨replies, last⟩ := ih next
    exact ⟨by simp [trace, Shelf.trace, reply, replies], last⟩

theorem runShelves (capacity : Option Nat) (byUse : Bool) (calls : List (Call K V)) :
    let tier := (empty capacity byUse).run calls
    let shelf := (Shelf.bare capacity byUse).run calls
    (empty capacity byUse).trace calls = (Shelf.bare capacity byUse).trace calls ∧
    tier.Spells shelf ∧ Apart Prod.fst shelf.entries ∧ (tier.shed).1.length = shelf.excess := by
  intro tier shelf
  have bare : (empty capacity byUse : Recency K V).Shows (Shelf.bare capacity byUse) :=
    emptyShows capacity byUse
  obtain ⟨replies, shows⟩ := runShows bare calls
  obtain ⟨victims, _⟩ := shedShows shows
  have count := congrArg List.length victims
  exact ⟨replies, shownSpells shows, shownApart shows, count.trans shelf.surplusLength⟩

/- Key 1 is used from the middle of the chain, 3 enters pinned and is let go, 2 is taken out of the
chain; a second insertion asks for a pin in vain, and no room is left at the end. -/
theorem runShelvesSmall :
    let calls : List (Call Nat Nat) :=
      [.insert 0 0 false, .insert 1 10 false, .insert 2 20 false, .insert 3 30 true, .get 1,
        .insert 1 11 true, .setPinned 3 false, .setPinned 2 true, .remove 0, .insert 4 40 false,
        .setCapacity (some 1), .overCapacity, .shed, .evictOldest, .evictOldest]
    let tier := (empty none true).run calls
    let shelf := (Shelf.bare none true).run calls
    (Shelf.bare none true).trace calls =
      [.value none, .value none, .value none, .value none, .value (some 10), .value (some 10), .flag true,
        .flag true, .value (some 0), .value none, .done, .flag true, .shed [(1, 11), (3, 30)],
        .evicted (some (4, 40)), .evicted none] ∧
    (empty none true).trace calls = (Shelf.bare none true).trace calls ∧
    tier.Spells shelf ∧ Apart Prod.fst shelf.entries ∧ (tier.shed).1.length = shelf.excess :=
  ⟨by decide, runShelves none true _⟩

end Recency
end TieredCache
