import CiWorkflow.Error
import CiWorkflow.Text.Blank
import CiWorkflow.Text.Split

set_option autoImplicit false

namespace CiWorkflow

open Text

namespace Expression

def openText : String := "$\x7b\x7b "
def closeText : String := " \x7d\x7d"

def isWrappable (content : String) : Bool :=
  !content.toList.isEmpty && trim content.toList = content.toList && !contains content openMark

structure Wrapped where
  inner : String
  wrappable : isWrappable inner = true
  deriving DecidableEq, Repr

def Wrapped.text (w : Wrapped) : String := openText ++ w.inner ++ closeText

def dropOpens : List Char → List Char
  | '$' :: '\x7b' :: '\x7b' :: rest => dropOpens rest
  | cs => cs

def dropCloses : List Char → List Char
  | '\x7d' :: '\x7d' :: rest => dropCloses rest
  | cs => cs

/-- What was probably meant by a text that holds an opening mark: the text without delimiters. -/
def bareText (text : String) : String :=
  String.ofList (trim (dropCloses (dropOpens (trim text.toList)).reverse).reverse)

def rejectWrapped (text : String) : Except Error Unit :=
  if contains text openMark then .error (.alreadyWrapped text (bareText text)) else .ok ()

theorem isWrappable_trim (text : String) (ho : contains text openMark = false)
    (hb : (trim text.toList).isEmpty = false) : isWrappable (String.ofList (trim text.toList)) = true := by
  have hc : contains (String.ofList (trim text.toList)) openMark = false := by
    rw [contains, String.toList_ofList]
    exact occursIn_of_infix (isInfix_trim _) ho
  simp only [isWrappable, hc, String.toList_ofList, trim_trim, hb]
  decide

def wrap (text : String) : Except Error Wrapped :=
  if ho : contains text openMark = true then .error (.alreadyWrapped text (bareText text))
  else if hb : (trim text.toList).isEmpty = true then .error .emptyExpression
  else .ok ⟨String.ofList (trim text.toList), isWrappable_trim text (by simpa using ho) (by simpa using hb)⟩

def unwrap (text : String) : Except Error String :=
  match (stripPrefix? openText.toList text.toList).bind (stripSuffix? closeText.toList) with
  | some content => .ok (String.ofList content)
  | none => .error (.malformedExpression text)

def Wrapped.ofText (text : String) : Except Error Wrapped := do
  let content ← unwrap text
  let w ← wrap content
  if w.text = text then .ok w else .error (.malformedExpression text)

end Expression

end CiWorkflow
