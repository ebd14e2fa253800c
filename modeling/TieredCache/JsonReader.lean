import TieredCache.Json

/-! Reading a JSON document character by character: a lexer that closes one token at a time,
and a stack of containers that takes the tokens. Both are folds over what they are given, so
nesting may be of any depth. The grammar is that of the standard: four blank characters, no
leading zeros, no comma before a closing bracket, no control characters in strings, nothing
but blanks around the document. -/
namespace TieredCache.Json

inductive Token where
  | openArray | closeArray | openObject | closeObject | comma | colon
  | scalar (value : Json)
  deriving Repr

inductive Frame where
  | array (items : List Json)
  | object (members : List (Option String × Json))
  | member (members : List (Option String × Json)) (name : Option String)
  deriving Repr

inductive Expected where
  | value
  | valueOrClose
  | name
  | nameOrClose
  | colon
  | commaOrClose
  | nothing (document : Json)
  deriving Repr

structure Nesting where
  frames : List Frame
  expected : Expected
  deriving Repr

namespace Nesting

def start : Nesting := ⟨[], .value⟩

def deliver (value : Json) : List Frame → Option Nesting
  | [] => some ⟨[], .nothing value⟩
  | .array items :: outer => some ⟨.array (value :: items) :: outer, .commaOrClose⟩
  | .member members name :: outer => some ⟨.object ((name, value) :: members) :: outer, .commaOrClose⟩
  | .object _ :: _ => none

def beginValue (frames : List Frame) : Token → Option Nesting
  | .scalar value => deliver value frames
  | .openArray => some ⟨.array [] :: frames, .valueOrClose⟩
  | .openObject => some ⟨.object [] :: frames, .nameOrClose⟩
  | _ => none

def beginMember (frames : List Frame) (token : Token) : Option Nesting :=
  match frames, token with
  | .object members :: outer, .scalar (.text name) => some ⟨.member members name :: outer, .colon⟩
  | _, _ => none

def close (frames : List Frame) (token : Token) : Option Nesting :=
  match frames, token with
  | .array items :: outer, .closeArray => deliver (.array items.reverse) outer
  | .object members :: outer, .closeObject => deliver (.object members.reverse) outer
  | _, _ => none

def take (n : Nesting) (token : Token) : Option Nesting :=
  match n.expected, token with
  | .value, _ => beginValue n.frames token
  | .valueOrClose, .closeArray => close n.frames token
  | .valueOrClose, _ => beginValue n.frames token
  | .name, _ => beginMember n.frames token
  | .nameOrClose, .closeObject => close n.frames token
  | .nameOrClose, _ => beginMember n.frames token
  | .colon, .colon => some ⟨n.frames, .value⟩
  | .colon, _ => none
  | .commaOrClose, .comma =>
      match n.frames with
      | .array _ :: _ => some ⟨n.frames, .value⟩
      | .object _ :: _ => some ⟨n.frames, .name⟩
      | _ => none
  | .commaOrClose, _ => close n.frames token
  | .nothing _, _ => none

end Nesting

inductive NumberPart where
  | sign | zero | whole | point | fraction | mark | markSign | exponent
  deriving DecidableEq, Repr

namespace NumberPart

def extend : NumberPart → Char → Option NumberPart
  | .sign, c => if c = '0' then some .zero else if c.isDigit then some .whole else none
  | .zero, c => if c = '.' then some .point else if c = 'e' ∨ c = 'E' then some .mark else none
  | .whole, c =>
      if c.isDigit then some .whole else if c = '.' then some .point
      else if c = 'e' ∨ c = 'E' then some .mark else none
  | .point, c => if c.isDigit then some .fraction else none
  | .fraction, c =>
      if c.isDigit then some .fraction else if c = 'e' ∨ c = 'E' then some .mark else none
  | .mark, c =>
      if c.isDigit then some .exponent else if c = '+' ∨ c = '-' then some .markSign else none
  | .markSign, c => if c.isDigit then some .exponent else none
  | .exponent, c => if c.isDigit then some .exponent else none

def complete : NumberPart → Bool
  | .zero | .whole | .fraction | .exponent => true
  | _ => false

end NumberPart

inductive Pending where
  | none
  | word (rest : List Char) (value : Json)
  | number (part : NumberPart) (seen : List Char)
  | string (codes : List Nat)
  | escape (codes : List Nat)
  | unit (codes : List Nat) (value : Nat) (missing : Nat)
  deriving Repr

structure Reader where
  pending : Pending
  nesting : Nesting
  deriving Repr

def hexDigit (c : Char) : Option Nat :=
  if c.isDigit then some (c.toNat - '0'.toNat)
  else if 'a' ≤ c ∧ c ≤ 'f' then some (c.toNat - 'a'.toNat + 10)
  else if 'A' ≤ c ∧ c ≤ 'F' then some (c.toNat - 'A'.toNat + 10)
  else none

def escaped : Char → Option Char
  | '"' => some '"'
  | '\\' => some '\\'
  | '/' => some '/'
  | 'b' => some '\x08'
  | 'f' => some '\x0c'
  | 'n' => some '\n'
  | 'r' => some '\r'
  | 't' => some '\t'
  | _ => none

def blank (c : Char) : Bool := c = ' ' || c = '\t' || c = '\n' || c = '\r'

def numeral (seen : List Char) : Json :=
  let literal := seen.reverse
  if literal.all Char.isDigit then .natural (decimal literal) else .number (String.ofList literal)

namespace Reader

def start : Reader := ⟨.none, .start⟩

def emit (n : Nesting) (token : Token) : Option Reader := (n.take token).map (⟨.none, ·⟩)

def begin (n : Nesting) (c : Char) : Option Reader :=
  if blank c then some ⟨.none, n⟩ else
  match c with
  | '[' => emit n .openArray
  | ']' => emit n .closeArray
  | '{' => emit n .openObject
  | '}' => emit n .closeObject
  | ',' => emit n .comma
  | ':' => emit n .colon
  | '"' => some ⟨.string [], n⟩
  | 'n' => some ⟨.word ['u', 'l', 'l'] .null, n⟩
  | 't' => some ⟨.word ['r', 'u', 'e'] (.bool true), n⟩
  | 'f' => some ⟨.word ['a', 'l', 's', 'e'] (.bool false), n⟩
  | '-' => some ⟨.number .sign ['-'], n⟩
  | '0' => some ⟨.number .zero ['0'], n⟩
  | c => if c.isDigit then some ⟨.number .whole [c], n⟩ else none

def take (r : Reader) (c : Char) : Option Reader :=
  match r.pending with
  | .none => begin r.nesting c
  | .word [] _ => none
  | .word [last] value => if c = last then emit r.nesting (.scalar value) else none
  | .word (next :: rest) value => if c = next then some ⟨.word rest value, r.nesting⟩ else none
  | .number part seen =>
      match part.extend c with
      | some part => some ⟨.number part (c :: seen), r.nesting⟩
      | none =>
          if part.complete then do
            let r ← emit r.nesting (.scalar (numeral seen))
            begin r.nesting c
          else none
  | .string codes =>
      if c = '"' then emit r.nesting (.scalar (.text ((spelled codes.reverse).map String.ofList)))
      else if c = '\\' then some ⟨.escape codes, r.nesting⟩
      else if c.toNat < 0x20 then none
      else some ⟨.string (c.toNat :: codes), r.nesting⟩
  | .escape codes =>
      if c = 'u' then some ⟨.unit codes 0 4, r.nesting⟩
      else (escaped c).map (fun e => ⟨.string (e.toNat :: codes), r.nesting⟩)
  | .unit codes value missing => do
      let value := 16 * value + (← hexDigit c)
      if missing ≤ 1 then some ⟨.string (value :: codes), r.nesting⟩
      else some ⟨.unit codes value (missing - 1), r.nesting⟩

def finish (r : Reader) : Option Json := do
  let nesting ← match r.pending with
    | .none => some r.nesting
    | .number part seen => if part.complete then r.nesting.take (.scalar (numeral seen)) else none
    | _ => none
  match nesting.expected with
  | .nothing document => some document
  | _ => none

end Reader

def read? (text : String) : Option Json := do
  (← text.toList.foldlM Reader.take Reader.start).finish

end TieredCache.Json
