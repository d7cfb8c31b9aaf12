import CiWorkflow.Expression.Fragment

set_option autoImplicit false

namespace CiWorkflow

open Text Expression

namespace Context

def isPart (name : String) : Bool :=
  !name.toList.isEmpty && !contains name openMark && !contains name closeMark &&
    !name.toList.any fun c => c = '.' || isBlank c

def child (parent name : String) : Except Error String :=
  if isPart name then .ok (parent ++ "." ++ name) else .error (.invalidContextName parent name)

theorem child_eq_ok_iff {parent name path : String} :
    child parent name = .ok path ↔ isPart name = true ∧ path = parent ++ "." ++ name := by
  rw [child]
  split
  · rename_i h
    simp [h, eq_comm]
  · rename_i h
    simp [h]

def descend (parent : String) (names : List String) : Except Error String := names.foldlM child parent

structure Path where
  text : String
  deriving DecidableEq, Repr

namespace Path

def event : Path := ⟨"github.event"⟩

def root (path : String) : Except Error Path := (Fragment.token path).map fun _ => ⟨path⟩

def get (p : Path) (name : String) : Except Error Path := (child p.text name).map Path.mk

def along (p : Path) (dotted : String) : Except Error Path :=
  ((splitAt '.' dotted.toList).map String.ofList).foldlM get p

def index (p : Path) (i : Nat) : Path := ⟨p.text ++ "[" ++ toString i ++ "]"⟩

def fragment (p : Path) : Fragment := .ofPath p.text

def wrap (p : Path) : Except Error Wrapped := p.fragment.wrap

end Path

end Context

end CiWorkflow
