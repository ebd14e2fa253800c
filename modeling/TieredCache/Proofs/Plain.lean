import TieredCache.Proofs.Shelf
import TieredCache.Proofs.Line
import TieredCache.Session

/-! A cache of plain lists, to measure the cache against. A shelf holds the unpinned entries, most
recent first, and the pinned ones; a line holds what was admitted to the overflow tier, oldest
first; beside them stand the pinned keys and the counters. No key is indexed, no order is linked
and nothing stale is kept: each operation says on the lists what it does. -/
namespace TieredCache
open Keyed (Apart find without)

structure Plain (K V : Type) where
  shelf : Shelf K V
  line : Line K V
  pins : List K
  counters : Counters
  concurrencyHint : Option Nat
  deriving DecidableEq, Repr

structure Turn (K V A : Type) where
  answer : A
  events : List (Event K V)
  plain : Plain K V
  deriving DecidableEq, Repr

namespace Plain
variable {K V : Type}

def start (config : Config) : Plain K V where
  shelf := ⟨[], [], config.cacheSize.map UInt64.toNat, config.lru⟩
  line := ⟨[], config.softSize.map UInt64.toNat, config.retention.map Span.total⟩
  pins := []
  counters := {}
  concurrencyHint := config.concurrencyHint.map UInt64.toNat

def count (p : Plain K V) (what : Tally) (times : Nat) : Plain K V :=
  let more (kind : Tally) : UInt64 := if what = kind then .ofNat times else 0
  { p with
    counters := {
      hits := p.counters.hits + more .hit
      misses := p.counters.misses + more .miss
      inserts := p.counters.inserts + more .insert
      evictions := p.counters.evictions + more .eviction
      promotions := p.counters.promotions + more .promotion
      reclaimed := p.counters.reclaimed + more .reclaim } }

/- The six sums, each of its own, are those that the cache keeps. -/
theorem countRecord (p : Plain K V) (what : Tally) (times : Nat) :
    (p.count what times).counters = p.counters.record what times := by
  cases what <;> simp [count, Counters.record]

def lose (p : Plain K V) (keys : List K) : Turn K V Unit :=
  { answer := (), events := keys.map .reclaimed, plain := p.count .reclaim keys.length }

def clear (p : Plain K V) : Plain K V :=
  { p with shelf := { p.shelf with recent := [], pinned := [] }
           line := { p.line with waiting := [] }, pins := [], counters := {} }

def size (p : Plain K V) (now : Nat) : Nat :=
  p.shelf.recent.length + p.shelf.pinned.length + (p.line.live now).length

def listing (p : Plain K V) (now : Nat) : Listing K where
  recent := p.shelf.recent.map Prod.fst
  pinned := p.shelf.pinned.map Prod.fst
  overflow := (p.line.live now).map Admission.key

/-- While the unpinned entries do not fit, the last one is evicted and offered to the line. The
evictions are heard first, then all that was lost. -/
def settle (filter : Filter K V) (now : Nat) (p : Plain K V) : Turn K V Unit :=
  let victims := p.shelf.surplus
  let received := p.line.receive filter now victims
  let moved := { p with shelf := p.shelf.fitted, line := received.2 }.count .eviction victims.length
  let reported := moved.lose received.1
  { reported with events := victims.map (fun e => .evicted e.1 e.2) ++ reported.events }

variable [BEq K]

def isPinned (p : Plain K V) (k : K) : Bool := p.pins.any (· == k)

def withdraw (now : Nat) (p : Plain K V) (k : K) : Turn K V (Option V) :=
  match find Admission.key p.line.waiting k with
  | none => { answer := none, events := [], plain := p }
  | some a =>
      let taken := { p with line := p.line.remove k }
      if a.expired p.line.lifetime now then { taken.lose [k] with answer := none }
      else { answer := some a.value, events := [], plain := taken }

def enter (p : Plain K V) (k : K) (v : V) : Plain K V :=
  { p with shelf := p.shelf.enter k v (p.isPinned k) }

def fetch (filter : Filter K V) (now : Nat) (p : Plain K V) (k : K) : Turn K V (Option V) :=
  match p.shelf.find? k with
  | some v => { answer := some v, events := [], plain := { p with shelf := p.shelf.touch k }.count .hit 1 }
  | none =>
      let taken := p.withdraw now k
      match taken.answer with
      | none => { taken with plain := taken.plain.count .miss 1 }
      | some v =>
          let promoted := ((taken.plain.count .hit 1).count .promotion 1).enter k v
          let settled := promoted.settle filter now
          { settled with answer := some v, events := taken.events ++ settled.events }

def store (filter : Filter K V) (now : Nat) (p : Plain K V) (k : K) (v : V) : Turn K V (Option V) :=
  match p.shelf.find? k with
  | some old => { answer := some old, events := [], plain := { p with shelf := (p.shelf.replace k v).touch k } }
  | none =>
      let taken := p.withdraw now k
      let settled := ((taken.plain.enter k v).count .insert 1).settle filter now
      { settled with answer := taken.answer, events := taken.events ++ settled.events }

def storeAll (filter : Filter K V) (now : Nat) (p : Plain K V) : List (K × V) → Turn K V Unit
  | [] => { answer := (), events := [], plain := p }
  | (k, v) :: rest =>
      let first := p.store filter now k v
      let others := first.plain.storeAll filter now rest
      { others with events := first.events ++ others.events }

def discard (now : Nat) (p : Plain K V) (k : K) : Turn K V (Option V) :=
  let removed := { p with shelf := p.shelf.remove k, pins := without id p.pins k }
  let taken := removed.withdraw now k
  { taken with answer := (p.shelf.find? k).or taken.answer }

def mark (p : Plain K V) (k : K) : Plain K V :=
  if p.isPinned k then p else { p with pins := p.pins ++ [k] }

def hold (now : Nat) (p : Plain K V) (k : K) : Turn K V Bool :=
  match p.shelf.find? k with
  | some _ => { answer := true, events := [], plain := { p with shelf := p.shelf.pin k }.mark k }
  | none =>
      let taken := p.withdraw now k
      match taken.answer with
      | none => { taken with answer := false, plain := taken.plain.mark k }
      | some v =>
          let promoted := taken.plain.count .promotion 1
          { taken with answer := true
                       plain := { promoted with shelf := promoted.shelf.enter k v true }.mark k }

def release (filter : Filter K V) (now : Nat) (p : Plain K V) (k : K) : Turn K V Bool :=
  let freed := { p with shelf := p.shelf.unpin k, pins := without id p.pins k }
  match p.shelf.find? k with
  | some _ => { freed.settle filter now with answer := p.isPinned k }
  | none => { answer := p.isPinned k, events := [], plain := freed }

def setCacheSize (filter : Filter K V) (now : Nat) (p : Plain K V) (n : Option Nat) : Turn K V Unit :=
  { p with shelf := { p.shelf with capacity := n } }.settle filter now

def setSoftSize (p : Plain K V) (n : Option Nat) : Turn K V Unit :=
  let fitted := Line.fit { p.line with bound := n }
  { p with line := fitted.2 }.lose fitted.1

def purge (now : Nat) (p : Plain K V) : Turn K V Nat :=
  let purged := p.line.purge now
  { { p with line := purged.2 }.lose purged.1 with answer := purged.1.length }

def lookup (p : Plain K V) (now : Nat) (k : K) : Option V := (p.shelf.find? k).or (p.line.lookup now k)

def answering (p : Plain K V) (reply : Reply K V) : Turn K V (Reply K V) :=
  { answer := reply, events := [], plain := p }

variable [Identity K]

def given (p : Plain K V) (op : KeyedOp) (keys : List K) (turn : Turn K V (Reply K V)) :
    Turn K V (Reply K V) :=
  if keys.all Identity.valid then turn else p.answering (.refused (.keyless op))

def step (filter : Filter K V) (now : Nat) (p : Plain K V) : Call K V → Turn K V (Reply K V)
  | .get k =>
      let turn := p.fetch filter now k
      p.given .get [k] { turn with answer := .value turn.answer }
  | .put k v =>
      let turn := p.store filter now k v
      p.given .put [k] { turn with answer := .value turn.answer }
  | .putAll entries =>
      p.given .putAll (entries.map Prod.fst) { p.storeAll filter now entries with answer := .done }
  | .remove k =>
      let turn := p.discard now k
      p.given .remove [k] { turn with answer := .value turn.answer }
  | .pin k =>
      let turn := p.hold now k
      p.given .pin [k] { turn with answer := .flag turn.answer }
  | .unpin k =>
      let turn := p.release filter now k
      p.given .unpin [k] { turn with answer := .flag turn.answer }
  | .isPinned k => p.given .isPinned [k] (p.answering (.flag (p.isPinned k)))
  | .containsKey k => p.given .containsKey [k] (p.answering (.flag (p.lookup now k).isSome))
  | .peek k => p.given .peek [k] (p.answering (.value (p.lookup now k)))
  | .size => p.answering (.count (p.size now))
  | .isEmpty => p.answering (.flag (p.size now == 0))
  | .keys => p.answering (.keys (p.listing now))
  | .pinnedKeys => p.answering (.pinned p.pins)
  | .clear => { answer := .done, events := [], plain := p.clear }
  | .setCacheSize n => { p.setCacheSize filter now n with answer := .done }
  | .setSoftSize n => { p.setSoftSize n with answer := .done }
  | .purge => let turn := p.purge now; { turn with answer := .count turn.answer }
  | .cacheSize => p.answering (.limit p.shelf.capacity)
  | .softSize => p.answering (.limit p.line.bound)
  | .isLru => p.answering (.flag p.shelf.byUse)
  | .concurrencyHint => p.answering (.limit p.concurrencyHint)
  | .counters => p.answering (.counters p.counters)
  | .resetCounters => { answer := .done, events := [], plain := { p with counters := {} } }

def run (filter : Filter K V) (now : Nat) (p : Plain K V) : List (Move K V) → Nat × Plain K V
  | [] => (now, p)
  | .wait time :: rest => p.run filter (now + time) rest
  | .call call :: rest => (p.step filter now call).plain.run filter now rest

def trace (filter : Filter K V) (now : Nat) (p : Plain K V) :
    List (Move K V) → List (Reply K V × List (Event K V))
  | [] => []
  | .wait time :: rest => (.done, []) :: p.trace filter (now + time) rest
  | .call call :: rest =>
      let turn := p.step filter now call
      (turn.answer, turn.events) :: turn.plain.trace filter now rest

end Plain
end TieredCache
