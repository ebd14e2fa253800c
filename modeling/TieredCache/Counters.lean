/-! Traffic counters of one machine word each; they wrap around and never saturate. Counted are
lookups answered and not answered, entries created by a put, entries pushed out of the primary
tier, entries brought back into it, and entries lost for good. -/
namespace TieredCache

structure Counters where
  hits : UInt64 := 0
  misses : UInt64 := 0
  inserts : UInt64 := 0
  evictions : UInt64 := 0
  promotions : UInt64 := 0
  reclaimed : UInt64 := 0
  deriving DecidableEq, Repr

inductive Tally where
  | hit | miss | insert | eviction | promotion | reclaim
  deriving DecidableEq, Repr

namespace Counters

def record (c : Counters) (what : Tally) (times : Nat) : Counters :=
  let n := UInt64.ofNat times
  match what with
  | .hit => { c with hits := c.hits + n }
  | .miss => { c with misses := c.misses + n }
  | .insert => { c with inserts := c.inserts + n }
  | .eviction => { c with evictions := c.evictions + n }
  | .promotion => { c with promotions := c.promotions + n }
  | .reclaim => { c with reclaimed := c.reclaimed + n }

def hitRatio (c : Counters) : Float :=
  let lookups := c.hits + c.misses
  if lookups = 0 then 0 else c.hits.toFloat / lookups.toFloat

theorem recordZero (c : Counters) (what : Tally) : c.record what 0 = c := by
  cases what <;> simp [record]

theorem recordAdd (c : Counters) (what : Tally) (m n : Nat) :
    (c.record what m).record what n = c.record what (m + n) := by
  cases what <;> simp [record, UInt64.add_assoc]

end Counters
end TieredCache
