/-! What a listener hears, and what keeps an evicted entry from the overflow tier. An entry is
`evicted` when capacity pushes it out of the primary tier, and its key `reclaimed` when the
cache has lost it for good. -/
namespace TieredCache

inductive Event (K V : Type) where
  | evicted (key : K) (value : V)
  | reclaimed (key : K)
  deriving DecidableEq, Repr

abbrev Filter (K V : Type) := K → V → Bool

namespace Filter
variable {K V : Type}

def all : Filter K V := fun _ _ => true

def rejecting [BEq K] [BEq V] (keys : List K) (values : List V) : Filter K V :=
  fun k v => !(keys.any (· == k)) && !(values.any (· == v))

end Filter
end TieredCache
