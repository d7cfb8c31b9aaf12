import CiWorkflow.Error

set_option autoImplicit false

namespace CiWorkflow

class Files (m : Type → Type) where
  isPresent : String → m Bool
  /-- Whether there is a file, not a directory. -/
  isFile : String → m Bool
  read : String → m (Except FileFault String)
  /-- The names in a directory, in any order. -/
  names : String → m (Except FileFault (List String))
  /-- Creates a directory and those around it, as far as they are missing. -/
  createDirectories : String → m (Except FileFault Unit)
  /-- Replaces the contents of a file, which need not be there before. -/
  write : String → String → m (Except FileFault Unit)

end CiWorkflow
