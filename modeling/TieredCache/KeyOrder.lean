/-! The order in which keys are listed where the cache itself gives them none: a missing key
comes first, a composite one goes by its first half and then by its second, the rest by the
order of their type. The order plays no part in what the cache does. -/
namespace TieredCache

instance pairOrd [Ord A] [Ord B] : Ord (A × B) := lexOrd

def sorted [Ord K] (keys : List K) : List K :=
  keys.mergeSort (fun a b => (compare a b).isLE)

end TieredCache
