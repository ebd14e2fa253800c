import TieredCache.Error

/-! How a cache is set up. Sizes are machine words and `none` is no bound: `cacheSize` bounds the
unpinned entries of the primary tier, `softSize` the entries of the overflow tier, which zero
disables. An overflow entry expires at the age of `reclaimAfter` milliseconds. The concurrency
hint is advice only. -/
namespace TieredCache

def Config.defaultCacheSize : Option UInt64 := some 1000

structure Config where
  lru : Bool := false
  cacheSize : Option UInt64 := Config.defaultCacheSize
  softSize : Option UInt64 := none
  reclaimAfter : Option UInt64 := none
  concurrencyHint : Option UInt64 := none
  deriving DecidableEq, Repr

inductive Setting where
  | lru (value : Bool)
  | cacheSize (value : Option UInt64)
  | softSize (value : Option UInt64)
  | reclaimAfter (value : Option UInt64)
  | concurrencyHint (value : Option UInt64)
  deriving DecidableEq, Repr

structure Span where
  seconds : Nat
  nanoseconds : Nat
  deriving DecidableEq, Repr

namespace Span

def ofMilliseconds (ms : Nat) : Span := ⟨ms / 1000, ms % 1000 * 1000000⟩

def total (s : Span) : Nat := s.seconds * 1000000000 + s.nanoseconds

theorem totalOfMilliseconds (ms : Nat) : (ofMilliseconds ms).total = ms * 1000000 := by
  simp only [ofMilliseconds, total]; omega

end Span

namespace Config

def set (c : Config) : Setting → Config
  | .lru v => { c with lru := v }
  | .cacheSize v => { c with cacheSize := v }
  | .softSize v => { c with softSize := v }
  | .reclaimAfter v => { c with reclaimAfter := v }
  | .concurrencyHint v => { c with concurrencyHint := v }

def retention (c : Config) : Option Span :=
  c.reclaimAfter.map (fun ms => .ofMilliseconds ms.toNat)

def validate (c : Config) : Except Error Unit :=
  if c.concurrencyHint = some 0 then .error .zeroConcurrency
  else if c.reclaimAfter = some 0 then .error .zeroRetention
  else .ok ()

theorem validateOk (c : Config) :
    c.validate = .ok () ↔ c.concurrencyHint ≠ some 0 ∧ c.reclaimAfter ≠ some 0 := by
  unfold validate
  split
  · simp_all
  · split <;> simp_all

end Config
end TieredCache
