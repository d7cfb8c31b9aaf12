import CiWorkflow.Files.Path
import CiWorkflow.Text.Lowercase

set_option autoImplicit false

namespace CiWorkflow

open Text

def foldBlanks : List Char → List Char
  | [] => []
  | c :: rest =>
    if isBlank c then (if rest.head?.any isBlank then foldBlanks rest else '-' :: foldBlanks rest)
    else c :: foldBlanks rest

def dropMain (stem : String) : String :=
  match stripSuffix? ".main".toList stem.toList with
  | some cs => String.ofList cs
  | none => stem

def outputFileName (stem suffix : String) : String :=
  String.ofList (foldBlanks (lowercase (dropMain stem)).toList) ++ suffix

/-- The generated file of a definition in the directory of the definition. -/
def outputPathBeside (source suffix : String) : String :=
  Path.withFileName source (dropMain (Path.stem source) ++ suffix)

theorem foldBlanks_eq_self {cs : List Char} (h : ∀ c ∈ cs, isBlank c = false) : foldBlanks cs = cs := by
  induction cs with
  | nil => rfl
  | cons c rest ih =>
    simp only [List.mem_cons, forall_eq_or_imp] at h
    simp [foldBlanks, h.1, ih h.2]

theorem isBlank_of_mem_foldBlanks {c : Char} {cs : List Char} (h : c ∈ foldBlanks cs) :
    isBlank c = false := by
  induction cs with
  | nil => simp [foldBlanks] at h
  | cons d rest ih =>
    rw [foldBlanks] at h
    split at h
    · split at h
      · exact ih h
      · rcases List.mem_cons.mp h with rfl | h
        · decide
        · exact ih h
    · rename_i hd
      rcases List.mem_cons.mp h with rfl | h
      · simpa using hd
      · exact ih h

theorem foldBlanks_foldBlanks (cs : List Char) : foldBlanks (foldBlanks cs) = foldBlanks cs :=
  foldBlanks_eq_self fun _ h => isBlank_of_mem_foldBlanks h

end CiWorkflow
