/-! The pinned keys, cached or not. A key pinned twice keeps its first spelling. `add` says
whether the key was not pinned before, `drop` whether it was. -/
namespace TieredCache

structure Pins (K : Type) where
  keys : List K
  deriving DecidableEq, Repr

namespace Pins
variable {K : Type} [BEq K]

def empty : Pins K := ⟨[]⟩

def contains (p : Pins K) (k : K) : Bool := p.keys.any (· == k)

def size (p : Pins K) : Nat := p.keys.length

def add (p : Pins K) (k : K) : Bool × Pins K :=
  if p.contains k then (false, p) else (true, ⟨p.keys ++ [k]⟩)

def drop (p : Pins K) (k : K) : Bool × Pins K :=
  (p.contains k, ⟨p.keys.filter (fun j => !(j == k))⟩)

end Pins
end TieredCache
