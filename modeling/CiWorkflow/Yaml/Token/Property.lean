import CiWorkflow.Decimal.Read
import CiWorkflow.Yaml.Cell
import CiWorkflow.Yaml.Token
import CiWorkflow.Yaml.Scalar

set_option autoImplicit false

namespace CiWorkflow.Yaml

open Decimal

def spanChars (p : Char → Bool) (cs : List Cell) : List Char × List Cell :=
  (chars (cs.takeWhile fun c => p c.char), cs.dropWhile fun c => p c.char)

def readAnchor? (cs : List Cell) : Option (String × List Cell) :=
  let (name, rest) := spanChars isWordChar cs
  if !name.isEmpty && (atWordEnd rest || nextIs (fun c => "?:,]\x7d%@\x60".toList.contains c) rest) then
    some (String.ofList name, rest)
  else none

/-- Characters of a tag. Commas and brackets count only where `wide`. -/
def isTagUriChar (wide : Bool) (c : Char) : Bool :=
  isWordChar c || ";/?:@&=+$.%!~*'()".toList.contains c || (wide && (c = ',' || c = '[' || c = ']'))

def percentBytes? : List Char → Option (List UInt8)
  | [] => some []
  | '%' :: a :: b :: rest => do
    let high ← digitValue? 16 a
    let low ← digitValue? 16 b
    let bytes ← percentBytes? rest
    return .ofNat (16 * high + low) :: bytes
  | '%' :: _ => none
  | c :: rest => do
    let bytes ← percentBytes? rest
    return (String.singleton c).toUTF8.toList ++ bytes

def characterWidth? (b : UInt8) : Option Nat :=
  if b < 0x80 then some 1
  else if b < 0xc0 then none
  else if b < 0xe0 then some 2
  else if b < 0xf0 then some 3
  else if b < 0xf8 then some 4
  else none

/-- Whether the bytes have the shape of characters, behind the `left` bytes that end one. Which character they make
does not count. -/
def areShaped : Nat → List UInt8 → Bool
  | left, [] => left = 0
  | 0, b :: rest => (characterWidth? b).any fun n => areShaped (n - 1) rest
  | left + 1, b :: rest => 0x80 ≤ b && b < 0xc0 && areShaped left rest

/-- What stands for bytes that are no text; only an exclamation mark in front of them matters to a reader. -/
def garbled (bytes : List UInt8) : String := if bytes.head? = some 0x21 then "!\x00" else "\x00"

def unescapeTag? (cs : List Char) : Option String := do
  let bytes ← percentBytes? cs
  if !areShaped 0 bytes then none
  else
    -- a NUL ends the tag
    let bytes := bytes.takeWhile (· ≠ 0)
    return (String.fromUTF8? ⟨bytes.toArray⟩).getD (garbled bytes)

/-- Tag characters with their escapes undone; at least one unless `mayBeEmpty`. -/
def readTagUri? (wide mayBeEmpty : Bool) (cs : List Cell) : Option (String × List Cell) := do
  let (text, rest) := spanChars (isTagUriChar wide) cs
  let tag ← unescapeTag? text
  if text.isEmpty && !mayBeEmpty then none else some (tag, rest)

/-- `!`, `!!` or `!word!`; without a second mark the word is not ended. -/
def readHandle? : List Cell → Option (List Char × List Cell)
  | [] => none
  | c :: rest =>
    if c.char ≠ '!' then none
    else
      let (word, rest) := spanChars isWordChar rest
      match rest with
      | d :: after => if d.char = '!' then some ('!' :: word ++ ['!'], after) else some ('!' :: word, rest)
      | [] => some ('!' :: word, [])

def endsTag (inFlow : Bool) (cs : List Cell) : Bool := atWordEnd cs || (inFlow && nextIs (· = ',') cs)

def readVerbatimTag? (cs : List Cell) : Option (Token × List Cell) := do
  let (uri, rest) ← readTagUri? true false cs
  match rest with
  | c :: rest => if c.char = '>' then some (.tag "" uri, rest) else none
  | [] => none

/-- A tag with a handle. One without a second mark belongs to the handle `!`. -/
def readShortTag? (cs : List Cell) : Option (Token × List Cell) := do
  let (handle, rest) ← readHandle? cs
  if handle.length ≥ 2 && handle.getLast? = some '!' then
    let (suffix, rest) ← readTagUri? false false rest
    return (.tag (String.ofList handle) suffix, rest)
  else
    let (suffix, rest) ← readTagUri? false true rest
    let name := String.ofList (handle.drop 1) ++ suffix
    return (if name.isEmpty then .tag "" "!" else .tag "!" name, rest)

def readTag? (inFlow : Bool) (cs : List Cell) : Option (Token × List Cell) := do
  let (token, rest) ← if nextIs (· = '<') (cs.drop 1) then readVerbatimTag? (cs.drop 2) else readShortTag? cs
  if endsTag inFlow rest then some (token, rest) else none

def readVersionNumber? (cs : List Cell) : Option (Nat × List Cell) :=
  let (ds, rest) := spanChars Char.isDigit cs
  if ds.isEmpty || 9 < ds.length then none else some (digitsValue ds, rest)

def readVersion? (cs : List Cell) : Option (Token × List Cell) := do
  let (major, rest) ← readVersionNumber? (skipBlanks cs)
  match rest with
  | c :: rest =>
    if c.char = '.' then
      let (minor, rest) ← readVersionNumber? rest
      return (.version major minor, rest)
    else none
  | [] => none

def readTagHandle? (cs : List Cell) : Option (Token × List Cell) := do
  let (handle, rest) ← readHandle? (skipBlanks cs)
  if handle ≠ ['!'] && handle.getLast? ≠ some '!' then none
  else if !nextIs isSpaceOrTab rest then none
  else
    let (lead, rest) ← readTagUri? true false (skipBlanks rest)
    if atWordEnd rest then some (.tagHandle (String.ofList handle) lead, rest) else none

def readDirective? (cs : List Cell) : Option (Token × List Cell) := do
  let (name, rest) := spanChars isWordChar cs
  if !atWordEnd rest then none
  else
    let (token, rest) ←
      if name = "YAML".toList then readVersion? rest
      else if name = "TAG".toList then readTagHandle? rest
      else none
    let rest ← skipRestOfLine? rest
    return (token, rest)

end CiWorkflow.Yaml
