import TieredCache.Config
import TieredCache.JsonReader

/-! A configuration from a JSON document: an object that names its fields in any order, or an
array that lists them in theirs. A field left out takes its default. Members of other names
are passed over; a field named twice, a value of the wrong kind and an item too many refuse
the document. -/
namespace TieredCache

namespace Json

def flag? : Json → Option Bool
  | .bool b => some b
  | _ => none

def bound? : Json → Option (Option UInt64)
  | .null => some none
  | .natural n => if n < UInt64.size then some (some (UInt64.ofNat n)) else none
  | _ => none

end Json

namespace Config

structure Draft where
  lru : Option Bool := none
  cacheSize : Option (Option UInt64) := none
  softSize : Option (Option UInt64) := none
  reclaimAfter : Option (Option UInt64) := none
  concurrencyHint : Option (Option UInt64) := none
  deriving DecidableEq, Repr

namespace Draft

def fill (slot value : Option A) : Option A :=
  if slot.isSome then none else value

def addMember (d : Draft) (name : String) (value : Json) : Option Draft :=
  match name with
  | "lru_enabled" => (fill d.lru value.flag?).map fun v => { d with lru := some v }
  | "cache_size" => (fill d.cacheSize value.bound?).map fun v => { d with cacheSize := some v }
  | "soft_size" => (fill d.softSize value.bound?).map fun v => { d with softSize := some v }
  | "reclaim_after_ms" => (fill d.reclaimAfter value.bound?).map fun v => { d with reclaimAfter := some v }
  | "concurrency_hint" =>
      (fill d.concurrencyHint value.bound?).map fun v => { d with concurrencyHint := some v }
  | _ => some d

/- The reader has defaults of its own, those of the types but for one. -/
def config (d : Draft) : Config where
  lru := d.lru.getD default
  cacheSize := d.cacheSize.getD defaultCacheSize
  softSize := d.softSize.getD default
  reclaimAfter := d.reclaimAfter.getD default
  concurrencyHint := d.concurrencyHint.getD default

theorem fillOpen (value : Option A) : fill none value = value := rfl

theorem fillTwice (old : A) (value : Option A) : fill (some old) value = none := rfl

end Draft

def ofMembers? (members : List (String × Json)) : Option Config :=
  (members.foldlM (fun d m => Draft.addMember d m.1 m.2) {}).map Draft.config

def item? (read : Json → Option A) (default : A) : Option Json → Option A
  | none => some default
  | some value => read value

def ofItems? (items : List Json) : Option Config := do
  if 5 < items.length then failure
  let lru ← item? Json.flag? default items[0]?
  let cacheSize ← item? Json.bound? defaultCacheSize items[1]?
  let softSize ← item? Json.bound? default items[2]?
  let reclaimAfter ← item? Json.bound? default items[3]?
  let concurrencyHint ← item? Json.bound? default items[4]?
  return { lru, cacheSize, softSize, reclaimAfter, concurrencyHint }

/-- A member whose name is no text cannot be told from a field, so it refuses the object. -/
def ofJson? : Json → Option Config
  | .object members => do
      let named ← members.mapM (fun m => m.1.map (·, m.2))
      ofMembers? named
  | .array items => ofItems? items
  | _ => none

def read? (text : String) : Option Config := (Json.read? text).bind ofJson?

end Config
end TieredCache
