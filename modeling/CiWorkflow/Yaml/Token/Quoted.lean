import CiWorkflow.Yaml.Scalar
import CiWorkflow.Yaml.Token.Plain

set_option autoImplicit false

namespace CiWorkflow.Yaml

abbrev Read := Option (List Char × List Cell)

def finish (out : List Char) (gap : Gap) (rest : List Cell) : Read :=
  some (out.reverse ++ gap.text, rest)

def settle (out : List Char) (gap : Gap) : List Char := gap.text.reverse ++ out

/-- `pending` tells of an apostrophe that either ends the scalar or is the first of two. -/
def readSingle (pending : Bool) (out : List Char) (gap : Gap) : List Cell → Read
  | [] => if pending then finish out gap [] else none
  | c :: rest =>
    if pending then
      if c.char = '\'' then readSingle false ('\'' :: settle out gap) .none rest
      else finish out gap (c :: rest)
    else if c.isBlank || c.isLineEnd then readSingle false out (gap.push c) rest
    else if atDocumentMarker (c :: rest) then none
    else if c.char = '\'' then readSingle true out gap rest
    else readSingle false (c.char :: settle out gap) .none rest

def unescape? (c : Char) : Option Char :=
  match c with
  | '0' => some '\x00'
  | 'a' => some '\x07'
  | 'b' => some '\x08'
  | 't' => some '\t'
  | '\t' => some '\t'
  | 'n' => some '\n'
  | 'v' => some '\x0b'
  | 'f' => some '\x0c'
  | 'r' => some '\r'
  | 'e' => some '\x1b'
  | ' ' => some ' '
  | '"' => some '"'
  | '/' => some '/'
  | '\\' => some '\\'
  | 'N' => some '\u0085'
  | '_' => some '\u00a0'
  | 'L' => some '\u2028'
  | 'P' => some '\u2029'
  | _ => none

def escapeLength? (c : Char) : Option Nat :=
  match c with
  | 'x' => some 2
  | 'u' => some 4
  | 'U' => some 8
  | _ => none

/-- The character with a code point; surrogates are none. -/
def charOf? (n : Nat) : Option Char := if n.isValidChar then some (.ofNat n) else none

inductive Escape where
  | no
  /-- After a backslash. -/
  | started
  /-- Within the digits of a code point. -/
  | digits (left value : Nat)

def readDouble (esc : Escape) (out : List Char) (gap : Gap) : List Cell → Read
  | [] => none
  | c :: rest =>
    match esc with
    | .digits left value =>
      match digitValue? 16 c.char with
      | none => none
      | some d =>
        let n := 16 * value + d
        if 1 < left then readDouble (.digits (left - 1) n) out gap rest
        else
          match charOf? n with
          | none => none
          | some x => readDouble .no (x :: out) gap rest
    | .started =>
      if c.isLineEnd then readDouble .no out (.newLines none []) rest
      else
        match escapeLength? c.char, unescape? c.char with
        | some n, _ => readDouble (.digits n 0) out gap rest
        | none, some x => readDouble .no (x :: out) gap rest
        | none, none => none
    | .no =>
      if c.isBlank || c.isLineEnd then readDouble .no out (gap.push c) rest
      else if atDocumentMarker (c :: rest) then none
      else if c.char = '"' then finish out gap rest
      else if c.char = '\\' then readDouble .started (settle out gap) .none rest
      else readDouble .no (c.char :: settle out gap) .none rest

end CiWorkflow.Yaml
