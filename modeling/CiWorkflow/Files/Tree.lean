import CiWorkflow.Files.Access
import CiWorkflow.Files.Path

set_option autoImplicit false

namespace CiWorkflow

open Text

abbrev Place := List String

inductive TreeEntry where
  | directory
  | file (bytes : ByteArray)

structure Tree where
  entries : List (Place × TreeEntry)
  /-- The directory at which relative paths start. -/
  base : Place

def entryAt? (place : Place) : List (Place × TreeEntry) → Option TreeEntry
  | [] => none
  | f :: rest => if f.1 = place then some f.2 else entryAt? place rest

def putAt (place : Place) (e : TreeEntry) : List (Place × TreeEntry) → List (Place × TreeEntry)
  | [] => [(place, e)]
  | f :: rest => if f.1 = place then (place, e) :: rest else f :: putAt place e rest

namespace Tree

def ofBase (base : String) : Tree := ⟨[([base], .directory)], [base]⟩

/-- What is at a place. The root is always there. -/
def get? (t : Tree) (place : Place) : Option TreeEntry :=
  if place.isEmpty then some .directory else entryAt? place t.entries

def put (t : Tree) (place : Place) (e : TreeEntry) : Tree := { t with entries := putAt place e t.entries }

def nameLimit : Nat := 255

/-- The place that names lead to from a directory; whether something is there is open for the last name
only. -/
def follow (t : Tree) (place : Place) : List String → Except FileFault Place
  | [] => .ok place
  | name :: rest =>
    match t.get? place with
    | none => .error .missing
    | some (.file _) => .error .notDirectory
    | some .directory =>
      if name = "." then follow t place rest
      else if name = ".." then follow t place.dropLast rest
      else if nameLimit < name.utf8ByteSize then .error .nameTooLong
      else follow t (place ++ [name]) rest

def pathNames (path : String) : List String :=
  ((splitAt '/' path.toList).filter fun piece => !piece.isEmpty).map String.ofList

def locate (t : Tree) (path : String) : Except FileFault Place :=
  if path.isEmpty then .error .missing
  else if path.toList.contains '\x00' then .error .nulInName
  else t.follow (if path.toList.head? = some '/' then [] else t.base) (pathNames path)

def meansDirectory (path : String) : Bool := path.toList.getLast? = some '/'

def find (t : Tree) (path : String) : Except FileFault TreeEntry := do
  let place ← t.locate path
  match t.get? place with
  | none => .error .missing
  | some .directory => return .directory
  | some (.file bytes) => if meansDirectory path then .error .notDirectory else return .file bytes

def isPresent (t : Tree) (path : String) : Bool := (t.find path).isOk

def isDirectory (t : Tree) (path : String) : Bool :=
  match t.find path with
  | .ok .directory => true
  | _ => false

def isFile (t : Tree) (path : String) : Bool :=
  match t.find path with
  | .ok (.file _) => true
  | _ => false

def read (t : Tree) (path : String) : Except FileFault String := do
  match ← t.find path with
  | .directory => .error .isDirectory
  | .file bytes =>
    match String.fromUTF8? bytes with
    | some text => return text
    | none => .error .notText

def nameIn? (dir place : Place) : Option String :=
  match place.getLast? with
  | some name => if place.dropLast = dir then some name else none
  | none => none

def names (t : Tree) (path : String) : Except FileFault (List String) := do
  match ← t.find path with
  | .directory =>
    let place ← t.locate path
    return t.entries.filterMap fun e => nameIn? place e.1
  | .file _ => .error .notDirectory

def createDirectory (t : Tree) (path : String) : Except FileFault Tree := do
  let place ← t.locate path
  match t.get? place with
  | some _ => .error .alreadyExists
  | none => return t.put place .directory

def ensureDirectory (t : Tree) (path : String) : Except FileFault Unit × Tree :=
  match t.createDirectory path with
  | .ok t => (.ok (), t)
  | .error fault => if t.isDirectory path then (.ok (), t) else (.error fault, t)

/-- Creates the first of the paths; where the directory around it is missing, the others come first.
Each path is the parent of the one before it. -/
def createAll (t : Tree) : List String → Except FileFault Unit × Tree
  | [] => (.ok (), t)
  | path :: parents =>
    if path.isEmpty then (.ok (), t)
    else
      match t.createDirectory path with
      | .error .missing =>
        match createAll t parents with
        | (.ok (), t) => t.ensureDirectory path
        | failed => failed
      | _ => t.ensureDirectory path

/-- A path and the paths of the directories around it, from the inside to the outside. -/
def withParents : Nat → String → List String
  | 0, path => [path]
  | fuel + 1, path =>
    path :: match Path.parent? path with
      | some parent => withParents fuel parent
      | none => []

def createDirectories (t : Tree) (path : String) : Except FileFault Unit × Tree :=
  t.createAll (withParents path.length path)

def writeBytes (t : Tree) (path : String) (bytes : ByteArray) : Except FileFault Tree := do
  let place ← t.locate path
  match t.get? place with
  | some .directory => .error .isDirectory
  | some (.file _) => if meansDirectory path then .error .notDirectory else return t.put place (.file bytes)
  | none => if meansDirectory path then .error .isDirectory else return t.put place (.file bytes)

def write (t : Tree) (path text : String) : Except FileFault Unit × Tree :=
  match t.writeBytes path text.toUTF8 with
  | .ok t => (.ok (), t)
  | .error fault => (.error fault, t)

instance : Files (StateM Tree) where
  isPresent path := fun t => (t.isPresent path, t)
  isFile path := fun t => (t.isFile path, t)
  read path := fun t => (t.read path, t)
  names path := fun t => (t.names path, t)
  createDirectories path := fun t => t.createDirectories path
  write path text := fun t => t.write path text

def files (t : Tree) : List (String × ByteArray) :=
  t.entries.filterMap fun (place, e) =>
    match e with
    | .file bytes =>
      if t.base.isPrefixOf place then some ("/".intercalate (place.drop t.base.length), bytes) else none
    | .directory => none

theorem entryAt?_putAt (place other : Place) (e : TreeEntry) (es : List (Place × TreeEntry)) :
    entryAt? other (putAt place e es) = if other = place then some e else entryAt? other es := by
  induction es with
  | nil => by_cases h : place = other <;> simp [putAt, entryAt?, h, Ne.symm]
  | cons f rest ih =>
    rw [putAt]
    by_cases h : f.1 = place
    · by_cases ho : place = other <;> simp [entryAt?, h, ho, Ne.symm]
    · by_cases ho : f.1 = other
      · subst ho
        simp [entryAt?, h]
      · simp [entryAt?, h, ho, ih]

theorem get?_put (t : Tree) (place other : Place) (e : TreeEntry) (h : place ≠ []) :
    (t.put place e).get? other = if other = place then some e else t.get? other := by
  by_cases ho : other = []
  · subst ho
    simp [get?, Ne.symm h]
  · simp [get?, put, entryAt?_putAt, ho]

end Tree

end CiWorkflow
