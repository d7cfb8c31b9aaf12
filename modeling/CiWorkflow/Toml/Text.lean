import CiWorkflow.Toml.Value

set_option autoImplicit false

namespace CiWorkflow.Toml

def isSpace (c : Char) : Bool := c = ' ' || c = '\t'

/-- Characters that stand in comments and, quotes and backslashes aside, in strings. -/
def isPlain (c : Char) : Bool := c = '\t' || (0x20 ≤ c.toNat && c.toNat ≤ 0x7E) || 0x80 ≤ c.toNat

def takeLineEnd? : List Char → Option (List Char)
  | '\n' :: rest => some rest
  | '\r' :: '\n' :: rest => some rest
  | _ => none

def skipLineEnd (cs : List Char) : List Char := (takeLineEnd? cs).getD cs

def hexDigit? (c : Char) : Option Nat :=
  if c.isDigit then some (c.toNat - '0'.toNat)
  else if 'a' ≤ c ∧ c ≤ 'f' then some (c.toNat - 'a'.toNat + 10)
  else if 'A' ≤ c ∧ c ≤ 'F' then some (c.toNat - 'A'.toNat + 10)
  else none

def hexValue? (ds : List Char) : Option Nat :=
  ds.foldlM (fun n d => (hexDigit? d).map (16 * n + ·)) 0

def charOf? (ds : List Char) : Option Char := do
  let n ← hexValue? ds
  if n.isValidChar then some (Char.ofNat n) else none

def escaped? : Char → Option Char
  | 'b' => some '\x08'
  | 't' => some '\t'
  | 'n' => some '\n'
  | 'f' => some '\x0c'
  | 'r' => some '\r'
  | '"' => some '"'
  | '\\' => some '\\'
  | _ => none

/-- The character that an escape stands for, and the text behind it. The backslash is gone already. -/
def readEscape? : List Char → Option (Char × List Char)
  | 'u' :: rest => (charOf? (rest.take 4)).bind fun c =>
    if rest.length < 4 then none else some (c, rest.drop 4)
  | 'U' :: rest => (charOf? (rest.take 8)).bind fun c =>
    if rest.length < 8 then none else some (c, rest.drop 8)
  | e :: rest => (escaped? e).map fun c => (c, rest)
  | [] => none

def cons? (c : Char) (r : Option (List Char × List Char)) : Option (List Char × List Char) := r.map fun (cs, rest) => (c :: cs, rest)

def readBasic? : Nat → List Char → Option (List Char × List Char)
  | 0, _ => none
  | _, [] => none
  | fuel + 1, c :: rest =>
    if c = '"' then some ([], rest)
    else if c = '\\' then
      match readEscape? rest with
      | some (e, rest) => cons? e (readBasic? fuel rest)
      | none => none
    else if isPlain c then cons? c (readBasic? fuel rest)
    else none

def readLiteral? : List Char → Option (List Char × List Char)
  | [] => none
  | c :: rest =>
    if c = '\'' then some ([], rest)
    else if isPlain c then cons? c (readLiteral? rest)
    else none

/-- Three or more quotes end a long string; up to two more of them belong to it. -/
def closeLong? (quote : Char) (cs : List Char) : Option (List Char × List Char) :=
  let n := (cs.takeWhile (· = quote)).length
  if n < 3 then none else some (List.replicate (min (n - 3) 2) quote, cs.drop (min n 5))

def skipGap : List Char → List Char
  | '\n' :: rest => skipGap rest
  | '\r' :: '\n' :: rest => skipGap rest
  | c :: rest => if isSpace c then skipGap rest else c :: rest
  | [] => []

/-- A backslash at the end of a line takes away the line end and all blanks and line ends that follow. -/
def skipLineGap? (cs : List Char) : Option (List Char) :=
  (takeLineEnd? (cs.dropWhile isSpace)).map skipGap

def readLongBasic? : Nat → List Char → Option (List Char × List Char)
  | 0, _ => none
  | _, [] => none
  | fuel + 1, c :: rest =>
    match closeLong? '"' (c :: rest), takeLineEnd? (c :: rest) with
    | some closed, _ => some closed
    | none, some rest => cons? '\n' (readLongBasic? fuel rest)
    | none, none =>
      if c = '\\' then
        match skipLineGap? rest, readEscape? rest with
        | some rest, _ => readLongBasic? fuel rest
        | none, some (e, rest) => cons? e (readLongBasic? fuel rest)
        | none, none => none
      else if isPlain c then cons? c (readLongBasic? fuel rest)
      else none

def readLongLiteral? : Nat → List Char → Option (List Char × List Char)
  | 0, _ => none
  | _, [] => none
  | fuel + 1, c :: rest =>
    match closeLong? '\'' (c :: rest), takeLineEnd? (c :: rest) with
    | some closed, _ => some closed
    | none, some rest => cons? '\n' (readLongLiteral? fuel rest)
    | none, none => if isPlain c then cons? c (readLongLiteral? fuel rest) else none

def readLine? : List Char → Option (String × List Char)
  | '"' :: rest => (readBasic? (rest.length + 1) rest).map fun (cs, rest) => (String.ofList cs, rest)
  | '\'' :: rest => (readLiteral? rest).map fun (cs, rest) => (String.ofList cs, rest)
  | _ => none

def readString? : List Char → Option (String × List Char)
  | '"' :: '"' :: '"' :: rest =>
    let rest := skipLineEnd rest
    (readLongBasic? (rest.length + 1) rest).map fun (cs, rest) => (String.ofList cs, rest)
  | '\'' :: '\'' :: '\'' :: rest =>
    let rest := skipLineEnd rest
    (readLongLiteral? (rest.length + 1) rest).map fun (cs, rest) => (String.ofList cs, rest)
  | cs => readLine? cs

end CiWorkflow.Toml
