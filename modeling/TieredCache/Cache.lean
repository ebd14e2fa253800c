import TieredCache.Config
import TieredCache.Counters
import TieredCache.Event
import TieredCache.Key
import TieredCache.Overflow
import TieredCache.Pins
import TieredCache.Recency

/-! The cache: a primary tier, the overflow tier that takes what it evicts, and the pins that
exempt keys from eviction. Every operation is a function of the state and of the time it is
made at, and says what a listener hears meanwhile, first call first. A key without identity
refuses the operation before anything is read or changed, and one such key refuses a batch.
`fetch`, `store`, `discard`, `hold` and `release` are the operations on keys already checked.
Of `clear` no listener is told; sizes, mode and hint outlive it.
Neither tier holds a key that the other holds; that is a matter of the invariant and is not
stated here. -/
namespace TieredCache

structure Cache (K V : Type) where
  primary : Recency K V
  overflow : Overflow K V
  pins : Pins K
  counters : Counters := {}
  concurrencyHint : Option Nat := none
  deriving DecidableEq, Repr

structure Outcome (K V A : Type) where
  answer : A
  events : List (Event K V)
  cache : Cache K V
  deriving DecidableEq, Repr

structure Listing (K : Type) where
  recent : List K
  pinned : List K
  overflow : List K
  deriving DecidableEq, Repr

def Listing.keys (l : Listing K) : List K := l.recent ++ l.pinned ++ l.overflow

def Overflow.receive [BEq K] (filter : Filter K V) (now : Nat) :
    List (K × V) → Overflow K V → List K × Overflow K V
  | [], o => ([], o)
  | (k, v) :: rest, o =>
      if filter k v then
        let accepted := o.accept now k v
        let others := receive filter now rest accepted.2
        (accepted.1.dropped ++ others.1, others.2)
      else
        let others := receive filter now rest o
        (k :: others.1, others.2)

namespace Cache
variable {K V : Type}

def empty (byUse : Bool) (cacheSize softSize lifetime : Option Nat) : Cache K V :=
  { primary := .empty cacheSize byUse, overflow := .empty softSize lifetime, pins := .empty }

def create (config : Config) : Except Error (Cache K V) := do
  config.validate
  return {
    empty config.lru (config.cacheSize.map UInt64.toNat) (config.softSize.map UInt64.toNat)
      (config.retention.map Span.total) with
    concurrencyHint := config.concurrencyHint.map UInt64.toNat }

def isLru (c : Cache K V) : Bool := c.primary.byUse

def cacheSize (c : Cache K V) : Option Nat := c.primary.capacity

def softSize (c : Cache K V) : Option Nat := c.overflow.bound

def count (c : Cache K V) (what : Tally) (times : Nat) : Cache K V :=
  { c with counters := c.counters.record what times }

def resetCounters (c : Cache K V) : Cache K V := { c with counters := {} }

def clear (c : Cache K V) : Cache K V :=
  { c with primary := c.primary.clear, overflow := c.overflow.clear, pins := .empty, counters := {} }

def size (now : Nat) (c : Cache K V) : Nat := c.primary.size + c.overflow.liveSize now

def isEmpty (now : Nat) (c : Cache K V) : Bool := c.size now == 0

def check [Identity K] (op : KeyedOp) (k : K) : Except Error Unit :=
  if Identity.valid k then .ok () else .error (.keyless op)

theorem checkOk [Identity K] (op : KeyedOp) (k : K) : check op k = .ok () ↔ Identity.valid k = true := by
  unfold check
  split <;> simp_all

def checkAll [Identity K] (op : KeyedOp) : List K → Except Error Unit
  | [] => .ok ()
  | k :: rest => do check op k; checkAll op rest

theorem checkAllOk [Identity K] (op : KeyedOp) (keys : List K) :
    checkAll op keys = .ok () ↔ ∀ k ∈ keys, Identity.valid k = true := by
  induction keys with
  | nil => simp [checkAll]
  | cons k rest ih =>
    cases valid : Identity.valid k <;> simp_all [checkAll, check, bind, Except.bind]

variable [BEq K]

def listing (now : Nat) (c : Cache K V) : Listing K :=
  { recent := c.primary.unpinnedEntries.map Prod.fst
    pinned := c.primary.pinnedEntries.map Prod.fst
    overflow := c.overflow.liveKeys now }

def reclaim (c : Cache K V) (keys : List K) : Outcome K V Unit :=
  { answer := (), events := keys.map .reclaimed, cache := c.count .reclaim keys.length }

/-- Evicts until the primary tier fits its capacity. The evictions are heard first, then what
the overflow tier dropped over all of them. -/
def settle (filter : Filter K V) (now : Nat) (c : Cache K V) : Outcome K V Unit :=
  let shed := c.primary.shed
  let received := c.overflow.receive filter now shed.1
  let moved := { c with primary := shed.2, overflow := received.2 }.count .eviction shed.1.length
  let reported := moved.reclaim received.1
  { reported with events := shed.1.map (fun e => .evicted e.1 e.2) ++ reported.events }

def withdraw (now : Nat) (c : Cache K V) (k : K) : Outcome K V (Option V) :=
  let withdrawn := c.overflow.withdraw now k
  let taken := { c with overflow := withdrawn.2 }
  match withdrawn.1 with
  | .live v => { answer := some v, events := [], cache := taken }
  | .expired => { taken.reclaim [k] with answer := none }
  | .absent => { answer := none, events := [], cache := taken }

def enter (c : Cache K V) (k : K) (v : V) (pinned : Bool) : Cache K V :=
  { c with primary := (c.primary.insert k v pinned).2 }

def fetch (filter : Filter K V) (now : Nat) (c : Cache K V) (k : K) : Outcome K V (Option V) :=
  let found := c.primary.get k
  match found.1 with
  | some v => { answer := some v, events := [], cache := { c with primary := found.2 }.count .hit 1 }
  | none =>
      let taken := c.withdraw now k
      match taken.answer with
      | none => { taken with cache := taken.cache.count .miss 1 }
      | some v =>
          let promoted := (taken.cache.count .hit 1).count .promotion 1
          let settled := (promoted.enter k v (c.pins.contains k)).settle filter now
          { settled with answer := some v, events := taken.events ++ settled.events }

/-- The previous value comes from whichever tier held it; a copy in the overflow tier is
superseded. Only a put that creates a primary entry is counted and can evict. -/
def store (filter : Filter K V) (now : Nat) (c : Cache K V) (k : K) (v : V) :
    Outcome K V (Option V) :=
  if c.primary.contains k then
    let replaced := c.primary.insert k v false
    { answer := replaced.1, events := [], cache := { c with primary := replaced.2 } }
  else
    let taken := c.withdraw now k
    let entered := (taken.cache.enter k v (c.pins.contains k)).count .insert 1
    let settled := entered.settle filter now
    { settled with answer := taken.answer, events := taken.events ++ settled.events }

def storeAll (filter : Filter K V) (now : Nat) (c : Cache K V) : List (K × V) → Outcome K V Unit
  | [] => { answer := (), events := [], cache := c }
  | (k, v) :: rest =>
      let first := c.store filter now k v
      let others := first.cache.storeAll filter now rest
      { others with events := first.events ++ others.events }

def discard (now : Nat) (c : Cache K V) (k : K) : Outcome K V (Option V) :=
  let removed := c.primary.remove k
  let taken := { c with primary := removed.2, pins := (c.pins.drop k).2 }.withdraw now k
  { taken with answer := removed.1 <|> taken.answer }

/- Whether the key was cached. The pin is kept in either case; no capacity is enforced, since
pinning never adds an unpinned entry. -/
def hold (now : Nat) (c : Cache K V) (k : K) : Outcome K V Bool :=
  let marked := c.primary.setPinned k true
  let placed : Outcome K V Bool :=
    if marked.1 then { answer := true, events := [], cache := { c with primary := marked.2 } }
    else
      let taken := c.withdraw now k
      match taken.answer with
      | some v => { taken with answer := true, cache := (taken.cache.count .promotion 1).enter k v true }
      | none => { taken with answer := false }
  { placed with cache := { placed.cache with pins := (placed.cache.pins.add k).2 } }

def release (filter : Filter K V) (now : Nat) (c : Cache K V) (k : K) : Outcome K V Bool :=
  let dropped := c.pins.drop k
  let marked := c.primary.setPinned k false
  let released := { c with pins := dropped.2, primary := marked.2 }
  if marked.1 then { released.settle filter now with answer := dropped.1 }
  else { answer := dropped.1, events := [], cache := released }

def holds (now : Nat) (c : Cache K V) (k : K) : Bool :=
  c.primary.contains k || c.overflow.contains now k

def glance (now : Nat) (c : Cache K V) (k : K) : Option V :=
  c.primary.peek k <|> c.overflow.lookup now k

def setCacheSize (filter : Filter K V) (now : Nat) (c : Cache K V) (n : Option Nat) :
    Outcome K V Unit :=
  { c with primary := c.primary.setCapacity n }.settle filter now

def setSoftSize (c : Cache K V) (n : Option Nat) : Outcome K V Unit :=
  let trimmed := c.overflow.setBound n
  { c with overflow := trimmed.2 }.reclaim trimmed.1

def purge (now : Nat) (c : Cache K V) : Outcome K V Nat :=
  let dropped := c.overflow.dropExpired now
  { { c with overflow := dropped.2 }.reclaim dropped.1 with answer := dropped.1.length }

variable [Identity K]

def get (filter : Filter K V) (now : Nat) (c : Cache K V) (k : K) :
    Except Error (Outcome K V (Option V)) := do
  check .get k
  return c.fetch filter now k

def put (filter : Filter K V) (now : Nat) (c : Cache K V) (k : K) (v : V) :
    Except Error (Outcome K V (Option V)) := do
  check .put k
  return c.store filter now k v

def putAll (filter : Filter K V) (now : Nat) (c : Cache K V) (entries : List (K × V)) :
    Except Error (Outcome K V Unit) := do
  checkAll .putAll (entries.map Prod.fst)
  return c.storeAll filter now entries

def remove (now : Nat) (c : Cache K V) (k : K) : Except Error (Outcome K V (Option V)) := do
  check .remove k
  return c.discard now k

def pin (now : Nat) (c : Cache K V) (k : K) : Except Error (Outcome K V Bool) := do
  check .pin k
  return c.hold now k

def unpin (filter : Filter K V) (now : Nat) (c : Cache K V) (k : K) :
    Except Error (Outcome K V Bool) := do
  check .unpin k
  return c.release filter now k

def isPinned (c : Cache K V) (k : K) : Except Error Bool := do
  check .isPinned k
  return c.pins.contains k

def containsKey (now : Nat) (c : Cache K V) (k : K) : Except Error Bool := do
  check .containsKey k
  return c.holds now k

def peek (now : Nat) (c : Cache K V) (k : K) : Except Error (Option V) := do
  check .peek k
  return c.glance now k

end Cache
end TieredCache
