import TieredCache.Dict
import TieredCache.Slab

/-! The primary tier: entries in order of use or of insertion, and pinned entries outside of
that order. Neither insertion nor a change of pins evicts; `shed` does, from the oldest end,
until the unpinned entries fit the capacity. -/
namespace TieredCache

structure Recency (K V : Type) where
  index : Dict K Nat
  slab : Slab K V
  unpinned : Nat
  capacity : Option Nat
  byUse : Bool
  deriving DecidableEq, Repr

namespace Recency
variable {K V : Type}

def empty (capacity : Option Nat) (byUse : Bool) : Recency K V :=
  ⟨.empty, .empty, 0, capacity, byUse⟩

def size (r : Recency K V) : Nat := r.index.size

def unpinnedEntries (r : Recency K V) : List (K × V) := r.slab.chained

def pinnedEntries (r : Recency K V) : List (K × V) := r.slab.pinned

def setCapacity (r : Recency K V) (capacity : Option Nat) : Recency K V := { r with capacity }

def clear (r : Recency K V) : Recency K V := empty r.capacity r.byUse

def excess (r : Recency K V) : Nat :=
  match r.capacity with
  | some most => r.unpinned - most
  | none => 0

def overCapacity (r : Recency K V) : Bool :=
  match r.capacity with
  | some most => most < r.unpinned
  | none => false

theorem overCapacityExcess (r : Recency K V) : r.overCapacity = true ↔ 0 < r.excess := by
  unfold overCapacity excess
  cases r.capacity with
  | none => simp
  | some most =>
    rw [decide_eq_true_iff]
    exact Nat.sub_pos_iff_lt.symm

def touched (r : Recency K V) (i : Nat) : Slab K V :=
  if r.byUse then r.slab.refresh i else r.slab

variable [BEq K]

def contains (r : Recency K V) (k : K) : Bool := r.index.contains k

def peek (r : Recency K V) (k : K) : Option V := do
  let i ← r.index.find? k
  let node ← r.slab.node? i
  return node.value

def get (r : Recency K V) (k : K) : Option V × Recency K V :=
  match r.index.find? k with
  | none => (none, r)
  | some i => ((r.slab.node? i).map Node.value, { r with slab := r.touched i })

/- A key already held keeps its spelling, its node and its pin; its value is replaced and the
old one returned. -/
def insert (r : Recency K V) (k : K) (v : V) (pinned : Bool) : Option V × Recency K V :=
  match r.index.find? k with
  | some i =>
      let replaced := { r with slab := r.slab.update i (fun n => { n with value := v }) }
      ((r.slab.node? i).map Node.value, { replaced with slab := replaced.touched i })
  | none =>
      let taken := r.slab.occupy { key := k, value := v, pinned := pinned }
      let index := r.index.insert k taken.1
      if pinned then (none, { r with index, slab := taken.2 })
      else (none, { r with index, slab := taken.2.pushNewest taken.1, unpinned := r.unpinned + 1 })

def remove (r : Recency K V) (k : K) : Option V × Recency K V :=
  match r.index.find? k with
  | none => (none, r)
  | some i =>
      let value := (r.slab.node? i).map Node.value
      let index := r.index.erase k
      if r.slab.isPinned i then (value, { r with index, slab := r.slab.vacate i })
      else (value, { r with index, slab := (r.slab.detach i).vacate i, unpinned := r.unpinned - 1 })

def setPinned (r : Recency K V) (k : K) (pinned : Bool) : Bool × Recency K V :=
  match r.index.find? k with
  | none => (false, r)
  | some i =>
      if r.slab.isPinned i = pinned then (true, r)
      else if pinned then
        (true, { r with slab := (r.slab.detach i).update i (fun n => { n with pinned := true })
                        unpinned := r.unpinned - 1 })
      else
        (true, { r with slab := (r.slab.update i (fun n => { n with pinned := false })).pushNewest i
                        unpinned := r.unpinned + 1 })

def evictOldest (r : Recency K V) : Option (K × V) × Recency K V :=
  match r.slab.oldest with
  | none => (none, r)
  | some i =>
      match r.slab.node? i with
      | none => (none, r)
      | some n =>
          (some (n.key, n.value),
            { r with index := r.index.erase n.key, slab := (r.slab.detach i).vacate i
                     unpinned := r.unpinned - 1 })

def evict : Nat → Recency K V → List (K × V) × Recency K V
  | 0, r => ([], r)
  | n + 1, r =>
      match r.evictOldest with
      | (none, r) => ([], r)
      | (some e, r) => let others := evict n r; (e :: others.1, others.2)

def shed (r : Recency K V) : List (K × V) × Recency K V := evict r.excess r

theorem evictSome {r left : Recency K V} {e : K × V} (evicted : r.evictOldest = (some e, left)) (times : Nat) :
    r.evict (times + 1) = (e :: (left.evict times).1, (left.evict times).2) := by
  simp only [evict, evicted]

theorem evictOldestLeft {r left : Recency K V} {e : K × V} (evicted : r.evictOldest = (some e, left)) :
    left.capacity = r.capacity ∧ left.unpinned = r.unpinned - 1 := by
  unfold evictOldest at evicted
  split at evicted
  · cases evicted
  · split at evicted
    · cases evicted
    · cases evicted
      exact ⟨rfl, rfl⟩

theorem evictOldestExcess {r left : Recency K V} {e : K × V} (evicted : r.evictOldest = (some e, left)) :
    left.excess = r.excess - 1 := by
  obtain ⟨capacity, fewer⟩ := evictOldestLeft evicted
  unfold excess
  rw [capacity, fewer]
  cases r.capacity with
  | none => rfl
  | some most => exact Nat.sub_right_comm r.unpinned 1 most

/- As long as the tier is over its capacity the oldest entry goes, if there is one. -/
def shedLoop (r : Recency K V) : List (K × V) × Recency K V :=
  if r.overCapacity then
    match _ : r.evictOldest with
    | (none, left) => ([], left)
    | (some e, left) => let others := left.shedLoop; (e :: others.1, others.2)
  else ([], r)
termination_by r.excess
decreasing_by
  have some := (overCapacityExcess r).mp ‹_›
  have fewer := evictOldestExcess ‹_›
  omega

theorem shedFits (r : Recency K V) (fits : r.overCapacity = false) : r.shed = ([], r) := by
  have none : r.excess = 0 := by
    have := (not_congr (overCapacityExcess r)).mp (by simp [fits])
    omega
  simp [shed, none, evict]

theorem shedCrowded {r left : Recency K V} {e : K × V} (crowded : r.overCapacity = true)
    (evicted : r.evictOldest = (some e, left)) : r.shed = (e :: left.shed.1, left.shed.2) := by
  have some := (overCapacityExcess r).mp crowded
  have more : r.excess = left.excess + 1 := by
    rw [evictOldestExcess evicted]
    omega
  unfold shed
  rw [more, evictSome evicted]

theorem shedStuck {r left : Recency K V} (crowded : r.overCapacity = true)
    (stuck : r.evictOldest = (none, left)) : r.shed = ([], left) := by
  obtain ⟨n, more⟩ := Nat.exists_eq_add_one.mpr ((overCapacityExcess r).mp crowded)
  unfold shed
  rw [more, evict, stuck]

theorem shedLooped (r : Recency K V) : r.shedLoop = r.shed := by
  fun_induction shedLoop r with
  | case1 r crowded left stuck => exact (shedStuck crowded stuck).symm
  | case2 r crowded e left evicted others ih =>
    rw [shedCrowded crowded evicted, ← ih]
  | case3 r fits => exact (r.shedFits (by simpa using fits)).symm

inductive Call (K V : Type) where
  | insert (key : K) (value : V) (pinned : Bool)
  | get (key : K)
  | peek (key : K)
  | contains (key : K)
  | remove (key : K)
  | setPinned (key : K) (pinned : Bool)
  | evictOldest
  | shed
  | setCapacity (capacity : Option Nat)
  | clear
  | capacity
  | overCapacity
  deriving DecidableEq, Repr

inductive Reply (K V : Type) where
  | value (value : Option V)
  | flag (value : Bool)
  | evicted (entry : Option (K × V))
  | shed (entries : List (K × V))
  | capacity (capacity : Option Nat)
  | done
  deriving DecidableEq, Repr

def step (r : Recency K V) : Call K V → Reply K V × Recency K V
  | .insert k v pinned => let inserted := r.insert k v pinned; (.value inserted.1, inserted.2)
  | .get k => let got := r.get k; (.value got.1, got.2)
  | .peek k => (.value (r.peek k), r)
  | .contains k => (.flag (r.contains k), r)
  | .remove k => let removed := r.remove k; (.value removed.1, removed.2)
  | .setPinned k pinned => let set := r.setPinned k pinned; (.flag set.1, set.2)
  | .evictOldest => let evicted := r.evictOldest; (.evicted evicted.1, evicted.2)
  | .shed => let shed := r.shed; (.shed shed.1, shed.2)
  | .setCapacity n => (.done, r.setCapacity n)
  | .clear => (.done, r.clear)
  | .capacity => (.capacity r.capacity, r)
  | .overCapacity => (.flag r.overCapacity, r)

def run (r : Recency K V) (calls : List (Call K V)) : Recency K V :=
  calls.foldl (fun r call => (r.step call).2) r

end Recency
end TieredCache
