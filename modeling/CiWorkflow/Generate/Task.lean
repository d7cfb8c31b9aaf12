import CiWorkflow.Files.Access
import CiWorkflow.Log.Event
import CiWorkflow.Render.Document

set_option autoImplicit false

namespace CiWorkflow

open Log

abbrev Task (ε : Type) (m : Type → Type) := ExceptT ε (StateT (List Event) m)

namespace Task

variable {ε : Type} {m : Type → Type} [Monad m] [Files m]

def report (e : Event) : Task ε m Unit := modify fun events => events ++ [e]

def access {α : Type} (path : String) (act : m (Except FileFault α)) : Task Error m α := do
  match ← act with
  | .ok a => return a
  | .error fault => throw (.io path fault)

def read (path : String) : Task Error m String := access path (Files.read path)

def validated (w : Workflow) : Event :=
  ⟨.debug, "ghaflow::core::workflow::validate", "workflow passed validation",
    [("workflow", .text w.name), ("jobs", .number w.jobs.toList.length)]⟩

def serialised (w : Workflow) (body : String) : Event :=
  ⟨.debug, "ghaflow::core::render", "serialised workflow",
    [("workflow", .text w.name), ("bytes", .number body.utf8ByteSize)]⟩

def loadWorkflow (path : String) : Task Error m Workflow := do
  let text ← read path
  let w ← Workflow.load path text
  report (validated w)
  return w

def renderWorkflow (r : Render.Renderer) (w : Workflow) : Task Error m String := do
  let v ← w.canonical
  report (validated w)
  let body ← r.body v
  report (serialised w body)
  return Render.commentBlock r.header ++ body

def run {α : Type} (t : Task ε m α) : m (Except ε α × List Event) := StateT.run (ExceptT.run t) []

end Task

end CiWorkflow
