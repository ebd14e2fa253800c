/-! JSON documents as far as a configuration needs them. A literal of digits alone is a
natural number; any other number keeps its spelling and is not evaluated. A string is `none`
when its escapes hold an unpaired surrogate, so that it is no Unicode text. Members keep their
order and their repetitions. -/
namespace TieredCache

inductive Json where
  | null
  | bool (value : Bool)
  | natural (value : Nat)
  | number (literal : String)
  | text (value : Option String)
  | array (items : List Json)
  | object (members : List (Option String × Json))
  deriving Inhabited, Repr

namespace Json

def high (unit : Nat) : Bool := 0xD800 ≤ unit && unit < 0xDC00

def low (unit : Nat) : Bool := 0xDC00 ≤ unit && unit < 0xE000

/-- The text that code values spell, where a high surrogate and the low one after it spell one
character. -/
def spelled : List Nat → Option (List Char)
  | [] => some []
  | unit :: rest =>
      if low unit then none
      else if high unit then
        match rest with
        | second :: rest =>
            if low second then
              (Char.ofNat (0x10000 + (unit - 0xD800) * 0x400 + (second - 0xDC00)) :: ·) <$> spelled rest
            else none
        | [] => none
      else (Char.ofNat unit :: ·) <$> spelled rest

def decimal (digits : List Char) : Nat :=
  digits.foldl (fun n d => 10 * n + (d.toNat - '0'.toNat)) 0

end Json
end TieredCache
