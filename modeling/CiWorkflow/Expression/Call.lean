import CiWorkflow.Expression.Argument
import CiWorkflow.Text.Digit

set_option autoImplicit false

namespace CiWorkflow

open Text

namespace Expression

def hasPlaceholder : List Char → Bool
  | [] => false
  | c :: rest =>
    (c = '\x7b' && !(rest.takeWhile isDecimalDigit).isEmpty &&
      (rest.dropWhile isDecimalDigit).head? = some '\x7d') || hasPlaceholder rest

namespace Call

def make (name : String) (args : List String) : Fragment :=
  ⟨name ++ "(" ++ ", ".intercalate args ++ ")", .call⟩

def argument (name : String) (a : Argument) : Except Error String := do
  match ← a.inCall with
  | some text => return text
  | none => .error (.missingArgument name)

/-- A call with its arguments in the given order; the first that is missing fails. -/
def ofArguments (name : String) (args : List Argument) : Except Error Fragment := do
  return make name (← args.mapM (argument name))

def always : Fragment := make "always" []
def success : Fragment := make "success" []
def failure : Fragment := make "failure" []
def cancelled : Fragment := make "cancelled" []

def contains (search item : Argument) : Except Error Fragment := ofArguments "contains" [search, item]
def startsWith (value start : Argument) : Except Error Fragment := ofArguments "startsWith" [value, start]
def endsWith (value tail : Argument) : Except Error Fragment := ofArguments "endsWith" [value, tail]
def toJson (value : Argument) : Except Error Fragment := ofArguments "toJSON" [value]
def fromJson (value : Argument) : Except Error Fragment := ofArguments "fromJSON" [value]

def format (template : String) (values : List Argument) : Except Error Fragment :=
  if hasPlaceholder template.toList then do
    return make "format" (quote template :: (← values.mapM (argument "format")))
  else .error (.missingPlaceholder template)

def join (array : Argument) (separator : Option String) : Except Error Fragment := do
  return make "join" [← argument "join" array, quote (separator.getD ",")]

def hashFiles (paths : List Argument) : Except Error Fragment := do
  let args ← paths.mapM (argument "hashFiles")
  if args.isEmpty then .error (.missingArgument "hashFiles") else return make "hashFiles" args

end Call

end Expression

end CiWorkflow
