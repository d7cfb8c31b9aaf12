import CiWorkflow.Expression.Wrapped

set_option autoImplicit false

namespace CiWorkflow

open Text

namespace Expression

inductive FragmentKind where
  /-- A dotted context path. -/
  | token
  /-- A quoted text, a number or a boolean. -/
  | literal
  | call
  /-- Made by an operator, or expression text as given. -/
  | composed
  deriving DecidableEq, Repr

structure Fragment where
  inner : String
  kind : FragmentKind
  deriving DecidableEq, Repr

/-- Whether a path starts with a known context, goes on below it and has no empty part. -/
def isTokenPath (path : String) : Bool :=
  match splitAt '.' path.toList with
  | [] => false
  | head :: rest =>
    contextNames.contains (String.ofList head) && !rest.isEmpty && rest.all fun part => !part.isEmpty

def quote (text : String) : String :=
  String.ofList ('\'' :: (text.toList.flatMap fun c => if c = '\'' then ['\'', '\''] else [c]) ++ ['\''])

def isOperatorChar (c : Char) : Bool :=
  c = '&' || c = '|' || c = '?' || c = '!' || c = '<' || c = '>' || c = '='

def hasOperator (inLiteral : Bool) : List Char → Bool
  | [] => false
  | c :: rest =>
    if c = '\'' then hasOperator (!inLiteral) rest
    else (!inLiteral && isOperatorChar c) || hasOperator inLiteral rest

/-- Whether the parentheses outside literals close for good at the last character. A closing
parenthesis without an opening one counts as closed. -/
def closesAtEnd (depth : Nat) (inLiteral : Bool) : List Char → Bool
  | [] => depth = 0
  | c :: rest =>
    if c = '\'' then closesAtEnd depth (!inLiteral) rest
    else if !inLiteral && c = '(' then closesAtEnd (depth + 1) inLiteral rest
    else if !inLiteral && c = ')' then
      if depth - 1 = 0 && !rest.isEmpty then false else closesAtEnd (depth - 1) inLiteral rest
    else closesAtEnd depth inLiteral rest

def isSingleGroup (text : String) : Bool :=
  let cs := text.toList
  cs.head? = some '(' && cs.getLast? = some ')' && closesAtEnd 0 false cs

namespace Fragment

def ofPath (path : String) : Fragment := ⟨path, .token⟩

def token (path : String) : Except Error Fragment :=
  if isTokenPath path then .ok (ofPath path) else .error (.invalidTokenPrefix path)

theorem token_eq_ok_iff {path : String} {f : Fragment} :
    token path = .ok f ↔ isTokenPath path = true ∧ f = ofPath path := by
  rw [token]
  split
  · rename_i h
    simp [h, eq_comm]
  · rename_i h
    simp [h]

def raw (text : String) : Fragment := ⟨quote text, .literal⟩

def boolean (b : Bool) : Fragment := ⟨if b then "true" else "false", .literal⟩

def number (n : Int) : Fragment := ⟨toString n, .literal⟩

def expression (text : String) : Except Error Fragment := do
  rejectWrapped text
  let trimmed := trim text.toList
  if trimmed.isEmpty then .error .emptyExpression else .ok ⟨String.ofList trimmed, .composed⟩

def wrap (f : Fragment) : Except Error Wrapped := Expression.wrap f.inner

def inParens (text : String) : String := "(" ++ text ++ ")"

def operand (f : Fragment) : String :=
  if f.kind = .composed && !isSingleGroup f.inner && hasOperator false f.inner.toList then inParens f.inner
  else f.inner

def binary (operator : String) (a b : Fragment) : Fragment :=
  ⟨a.operand ++ " " ++ operator ++ " " ++ b.operand, .composed⟩

def and (a b : Fragment) : Fragment := binary "&&" a b
def or (a b : Fragment) : Fragment := binary "||" a b
def coalesce (a b : Fragment) : Fragment := binary "??" a b
def equals (a b : Fragment) : Fragment := binary "==" a b
def notEquals (a b : Fragment) : Fragment := binary "!=" a b
def negate (a : Fragment) : Fragment := ⟨"!" ++ a.operand, .composed⟩

/-- The piece in parentheses; one group stays as it is. -/
def group (a : Fragment) : Fragment :=
  if isSingleGroup a.inner then a else ⟨inParens a.inner, .composed⟩

end Fragment

end Expression

end CiWorkflow
