import TieredCache.Cache

/-! A cache in use: calls one after another, under a clock of nanoseconds that moves between
calls and never back. A refused call leaves the cache as it was and is not heard. The trace of
some moves is what they answer in turn, each with what is heard meanwhile. -/
namespace TieredCache

inductive Call (K V : Type) where
  | get (key : K)
  | put (key : K) (value : V)
  | putAll (entries : List (K × V))
  | remove (key : K)
  | pin (key : K)
  | unpin (key : K)
  | isPinned (key : K)
  | containsKey (key : K)
  | peek (key : K)
  | size
  | isEmpty
  | keys
  | pinnedKeys
  | clear
  | setCacheSize (size : Option Nat)
  | setSoftSize (size : Option Nat)
  | purge
  | cacheSize
  | softSize
  | isLru
  | concurrencyHint
  | counters
  | resetCounters
  deriving DecidableEq, Repr

inductive Reply (K V : Type) where
  | value (value : Option V)
  | flag (value : Bool)
  | count (value : Nat)
  | limit (value : Option Nat)
  | keys (listing : Listing K)
  | pinned (keys : List K)
  | counters (counters : Counters)
  | done
  | refused (error : Error)
  deriving DecidableEq, Repr

def Reply.of (say : A → Reply K V) : Except Error A → Reply K V
  | .ok a => say a
  | .error e => .refused e

namespace Cache
variable {K V : Type}

def replied (c : Cache K V) (say : A → Reply K V) :
    Except Error (Outcome K V A) → Outcome K V (Reply K V)
  | .ok o => { o with answer := say o.answer }
  | .error e => { answer := .refused e, events := [], cache := c }

def observed (c : Cache K V) (reply : Reply K V) : Outcome K V (Reply K V) :=
  { answer := reply, events := [], cache := c }

variable [BEq K] [Identity K]

def step (filter : Filter K V) (now : Nat) (c : Cache K V) : Call K V → Outcome K V (Reply K V)
  | .get k => c.replied .value (c.get filter now k)
  | .put k v => c.replied .value (c.put filter now k v)
  | .putAll entries => c.replied (fun _ => .done) (c.putAll filter now entries)
  | .remove k => c.replied .value (c.remove now k)
  | .pin k => c.replied .flag (c.pin now k)
  | .unpin k => c.replied .flag (c.unpin filter now k)
  | .isPinned k => c.observed (.of .flag (c.isPinned k))
  | .containsKey k => c.observed (.of .flag (c.containsKey now k))
  | .peek k => c.observed (.of .value (c.peek now k))
  | .size => c.observed (.count (c.size now))
  | .isEmpty => c.observed (.flag (c.isEmpty now))
  | .keys => c.observed (.keys (c.listing now))
  | .pinnedKeys => c.observed (.pinned c.pins.keys)
  | .clear => { answer := .done, events := [], cache := c.clear }
  | .setCacheSize n => { c.setCacheSize filter now n with answer := .done }
  | .setSoftSize n => { c.setSoftSize n with answer := .done }
  | .purge => let purged := c.purge now; { purged with answer := .count purged.answer }
  | .cacheSize => c.observed (.limit c.cacheSize)
  | .softSize => c.observed (.limit c.softSize)
  | .isLru => c.observed (.flag c.isLru)
  | .concurrencyHint => c.observed (.limit c.concurrencyHint)
  | .counters => c.observed (.counters c.counters)
  | .resetCounters => { answer := .done, events := [], cache := c.resetCounters }

end Cache

inductive Move (K V : Type) where
  | wait (time : Nat)
  | call (call : Call K V)
  deriving DecidableEq, Repr

structure Session (K V : Type) where
  now : Nat
  cache : Cache K V
  deriving DecidableEq, Repr

namespace Session
variable {K V : Type} [BEq K] [Identity K]

def start (config : Config) : Except Error (Session K V) := do
  return ⟨0, ← Cache.create config⟩

def step (filter : Filter K V) (s : Session K V) :
    Move K V → (Reply K V × List (Event K V)) × Session K V
  | .wait time => ((.done, []), { s with now := s.now + time })
  | .call call =>
      let outcome := s.cache.step filter s.now call
      ((outcome.answer, outcome.events), { s with cache := outcome.cache })

def run (filter : Filter K V) (s : Session K V) (moves : List (Move K V)) : Session K V :=
  moves.foldl (fun s move => (s.step filter move).2) s

def trace (filter : Filter K V) (s : Session K V) :
    List (Move K V) → List (Reply K V × List (Event K V))
  | [] => []
  | move :: rest =>
      let stepped := s.step filter move
      stepped.1 :: stepped.2.trace filter rest

theorem runAppend (filter : Filter K V) (s : Session K V) (before after : List (Move K V)) :
    s.run filter (before ++ after) = (s.run filter before).run filter after := by
  simp [run]

end Session
end TieredCache
