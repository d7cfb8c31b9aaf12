import CiWorkflow.Decimal.Read
import CiWorkflow.Proofs.Expression.Call

set_option autoImplicit false

namespace CiWorkflow.Expression

open Text Decimal

inductive Operator where
  | and
  | or
  | coalesce
  | equals
  | notEquals
  deriving DecidableEq, Repr

namespace Operator

def sign : Operator → String
  | .and => "&&"
  | .or => "||"
  | .coalesce => "??"
  | .equals => "=="
  | .notEquals => "!="

def apply : Operator → Fragment → Fragment → Fragment
  | .and => Fragment.and
  | .or => Fragment.or
  | .coalesce => Fragment.coalesce
  | .equals => Fragment.equals
  | .notEquals => Fragment.notEquals

theorem apply_eq (op : Operator) (a b : Fragment) : op.apply a b = Fragment.binary op.sign a b := by
  cases op <;> rfl

end Operator

inductive Tree where
  | token (path : String)
  | literal (text : String)
  | boolean (b : Bool)
  | number (n : Int)
  | call (f : Function) (args : List Tree)
  | binary (op : Operator) (left right : Tree)
  | negate (inner : Tree)
  | group (inner : Tree)
  deriving Repr

/-- Characters of paths, numbers and names: no blanks, quotes, parentheses or operator characters. -/
def isWordChar (c : Char) : Bool :=
  !isBlank c && c ≠ '\'' && c ≠ '(' && c ≠ ')' && !isOperatorChar c

namespace Tree

mutual

def fragment : Tree → Except Error Fragment
  | .token path => Fragment.token path
  | .literal text => .ok (Fragment.raw text)
  | .boolean b => .ok (Fragment.boolean b)
  | .number n => .ok (Fragment.number n)
  | .call f args => do
    let pieces ← fragments args
    f.call (pieces.map Argument.fragment)
  | .binary op left right => do
    let a ← left.fragment
    let b ← right.fragment
    return op.apply a b
  | .negate inner => inner.fragment.map Fragment.negate
  | .group inner => inner.fragment.map Fragment.group

def fragments : List Tree → Except Error (List Fragment)
  | [] => .ok []
  | t :: rest => do
    let f ← t.fragment
    let others ← fragments rest
    return f :: others

end

mutual

def ungrouped : Tree → Tree
  | .call f args => .call f (ungroupedAll args)
  | .binary op left right => .binary op left.ungrouped right.ungrouped
  | .negate inner => .negate inner.ungrouped
  | .group inner => inner.ungrouped
  | t => t

def ungroupedAll : List Tree → List Tree
  | [] => []
  | t :: rest => t.ungrouped :: ungroupedAll rest

end

mutual

def isPlain : Tree → Bool
  | .token path => path.toList.all isWordChar
  | .call _ args => arePlain args
  | .binary _ left right => left.isPlain && right.isPlain
  | .negate inner => inner.isPlain
  | .group inner => inner.isPlain
  | _ => true

def arePlain : List Tree → Bool
  | [] => true
  | t :: rest => t.isPlain && arePlain rest

end

end Tree

abbrev Reader (α : Type) := List Char → Option (α × List Char)

def readOperator : Reader Operator
  | ' ' :: '&' :: '&' :: ' ' :: rest => some (.and, rest)
  | ' ' :: '|' :: '|' :: ' ' :: rest => some (.or, rest)
  | ' ' :: '?' :: '?' :: ' ' :: rest => some (.coalesce, rest)
  | ' ' :: '=' :: '=' :: ' ' :: rest => some (.equals, rest)
  | ' ' :: '!' :: '=' :: ' ' :: rest => some (.notEquals, rest)
  | _ => none

/-- Whether a text goes on with another argument: a comma and a blank that no operator follows. A comma in
front of an operator is the end of a word. -/
def isSeparator : List Char → Bool
  | ',' :: rest => rest.head? = some ' ' && (readOperator rest).isNone
  | _ => false

def spanWord : List Char → List Char × List Char
  | [] => ([], [])
  | c :: rest =>
    if isWordChar c && !isSeparator (c :: rest) then (c :: (spanWord rest).1, (spanWord rest).2)
    else ([], c :: rest)

def readLiteral : Reader (List Char)
  | [] => none
  | '\'' :: '\'' :: rest => (readLiteral rest).map fun (s, r) => ('\'' :: s, r)
  | '\'' :: rest => some ([], rest)
  | c :: rest => (readLiteral rest).map fun (s, r) => (c :: s, r)

def readInteger? (cs : List Char) : Option Int :=
  let (negative, ds) := takeSign cs
  if ds.isEmpty || !ds.all Char.isDigit then none
  else some (if negative then -digitsValue ds else digitsValue ds)

def ofWord? (word : String) : Option Tree :=
  if word = "true" then some (.boolean true)
  else if word = "false" then some (.boolean false)
  else if isTokenPath word then some (.token word)
  else (readInteger? word.toList).map .number

def plainFunctions : List Function :=
  [.always, .success, .failure, .cancelled, .contains, .startsWith, .endsWith, .toJson, .fromJson, .hashFiles]

def ofCall? (name : String) (args : List Tree) : Option Tree :=
  if name = "format" then
    match args with
    | .literal template :: values => some (.call (.format template) values)
    | _ => none
  else if name = "join" then
    match args.getLast? with
    | some (.literal separator) => some (.call (.join separator) args.dropLast)
    | _ => none
  else (plainFunctions.find? fun f => f.name = name).map fun f => .call f args

/-- One operand, `!` and one operand, or two operands around one operator. -/
def readExpression (operand : Reader Tree) : Reader Tree
  | '!' :: rest => (operand rest).map fun (t, r) => (.negate t, r)
  | cs => do
    let (left, r) ← operand cs
    match readOperator r with
    | some (op, r) => (operand r).map fun (right, r) => (.binary op left right, r)
    | none => some (left, r)

def readArguments (expression : Reader Tree) : Nat → Reader (List Tree)
  | 0, _ => none
  | n + 1, cs => do
    let (t, r) ← expression cs
    match r with
    | ')' :: r => some ([t], r)
    | ',' :: ' ' :: r => (readArguments expression n r).map fun (ts, r) => (t :: ts, r)
    | _ => none

/-- What stands between the parentheses of a call, up to the closing one. -/
def readArgumentList (expression : Reader Tree) : Reader (List Tree)
  | ')' :: r => some ([], r)
  | cs => readArguments expression cs.length cs

def readBehind (expression : Reader Tree) (word : String) : Reader Tree
  | '(' :: rest => do
    let (args, r) ← readArgumentList expression rest
    (ofCall? word args).map fun t => (t, r)
  | rest => (ofWord? word).map fun t => (t, rest)

/-- An atom, or an expression in parentheses; `depth` bounds how deep those may nest. -/
def readOperand : Nat → Reader Tree
  | 0, _ => none
  | depth + 1, '(' :: rest =>
    match readExpression (readOperand depth) rest with
    | some (t, ')' :: r) => some (t, r)
    | _ => none
  | _ + 1, '\'' :: rest => (readLiteral rest).map fun (s, r) => (.literal (String.ofList s), r)
  | depth + 1, cs =>
    readBehind (readExpression (readOperand depth)) (String.ofList (spanWord cs).1) (spanWord cs).2

/-- The tree of a whole text. No text nests deeper than it is long. -/
def Tree.read? (text : String) : Option Tree :=
  match readExpression (readOperand text.toList.length) text.toList with
  | some (t, []) => some t
  | _ => none

end CiWorkflow.Expression
