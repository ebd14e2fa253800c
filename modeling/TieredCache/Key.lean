/-! What the cache asks of a key: `==` tells keys apart, and `Identity.valid` says whether a
key names anything at all. A key type may hold values without identity, such as `none`; the
cache refuses them. Nothing here relates `valid` to `==`. -/
namespace TieredCache

class Identity (K : Type) where
  valid : K → Bool := fun _ => true

instance : Identity Nat where
instance : Identity Int where
instance : Identity Bool where
instance : Identity Char where
instance : Identity String where
instance : Identity (List UInt8) where

instance [Identity K] : Identity (Option K) where
  valid
    | none => false
    | some k => Identity.valid k

instance [Identity A] [Identity B] : Identity (A × B) where
  valid k := Identity.valid k.1 && Identity.valid k.2

theorem noneInvalid [Identity K] : Identity.valid (none : Option K) = false := rfl

theorem someValid [Identity K] (k : K) : Identity.valid (some k) = Identity.valid k := rfl

theorem pairValid [Identity A] [Identity B] (k : A × B) :
    Identity.valid k = (Identity.valid k.1 && Identity.valid k.2) := rfl

end TieredCache
