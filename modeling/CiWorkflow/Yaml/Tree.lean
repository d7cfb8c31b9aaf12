import CiWorkflow.Yaml.Token

set_option autoImplicit false

namespace CiWorkflow.Yaml

inductive Tree (α : Type) where
  | alias (target : α)
  | scalar (anchor : Option α) (tag : Option String) (form : ScalarForm) (text : String)
  | sequence (anchor : Option α) (tag : Option String) (items : List (Tree α))
  | mapping (anchor : Option α) (tag : Option String) (entries : List (Tree α × Tree α))
  deriving Inhabited

namespace Tree

def empty {α : Type} : Tree α := .scalar none none .plain ""

end Tree

abbrev Handles := List (String × String)

def standardHandles : Handles := [("!", "!"), ("!!", "tag:yaml.org,2002:")]

/-- The full tag. A tag without handle is full already; an unknown handle is an error. -/
def fullTag? (handles : Handles) (handle suffix : String) : Option String :=
  if handle.isEmpty then some suffix else (handles.lookup handle).map (· ++ suffix)

structure Properties where
  anchor : Option String
  tag : Option String

def Properties.isNone (p : Properties) : Bool := p.anchor.isNone && p.tag.isNone

def readProperties? (handles : Handles) : List Token → Option (Properties × List Token)
  | .anchor name :: .tag handle suffix :: rest =>
    (fullTag? handles handle suffix).map fun t => (⟨some name, some t⟩, rest)
  | .anchor name :: rest => some (⟨some name, none⟩, rest)
  | .tag handle suffix :: .anchor name :: rest =>
    (fullTag? handles handle suffix).map fun t => (⟨some name, some t⟩, rest)
  | .tag handle suffix :: rest => (fullTag? handles handle suffix).map fun t => (⟨none, some t⟩, rest)
  | rest => some (⟨none, none⟩, rest)

def nextAmong (ts : List Token) : List Token → Bool
  | [] => false
  | t :: _ => ts.contains t

abbrev Entry := Tree String × Tree String

mutual

/-- A node. Block collections may start only where `block`, and a sequence without indentation of its
own only where `bare`. -/
def parseNode (handles : Handles) (block bare : Bool) : Nat → List Token → Option (Tree String × List Token)
  | 0, _ => none
  | _ + 1, .alias name :: rest => some (.alias name, rest)
  | fuel + 1, ts => do
    let (p, ts) ← readProperties? handles ts
    match ts with
    | .scalar form text :: rest => some (.scalar p.anchor p.tag form text, rest)
    | .flowSequence :: rest => do
      let (items, rest) ← parseFlowItems handles true fuel rest
      return (.sequence p.anchor p.tag items, rest)
    | .flowMapping :: rest => do
      let (entries, rest) ← parseFlowEntries handles true fuel rest
      return (.mapping p.anchor p.tag entries, rest)
    | t :: rest =>
      if bare && t = .blockEntry then do
        let (items, rest) ← parseItems handles false fuel (t :: rest)
        return (.sequence p.anchor p.tag items, rest)
      else if block && t = .blockSequence then do
        let (items, rest) ← parseItems handles true fuel rest
        return (.sequence p.anchor p.tag items, rest)
      else if block && t = .blockMapping then do
        let (entries, rest) ← parseEntries handles fuel rest
        return (.mapping p.anchor p.tag entries, rest)
      else if p.isNone then none
      else some (.scalar p.anchor p.tag .plain "", t :: rest)
    | [] => if p.isNone then none else some (.scalar p.anchor p.tag .plain "", [])

def parseOptional (handles : Handles) (block bare : Bool) (stops : List Token) :
    Nat → List Token → Option (Tree String × List Token)
  | 0, _ => none
  | fuel + 1, ts =>
    if nextAmong stops ts then some (.empty, ts) else parseNode handles block bare fuel ts

/-- The items of a block sequence. One without indentation of its own ends at any other token. -/
def parseItems (handles : Handles) (indented : Bool) : Nat → List Token → Option (List (Tree String) × List Token)
  | 0, _ => none
  | fuel + 1, .blockEntry :: rest => do
    let stops := if indented then [.blockEntry, .blockEnd] else [.blockEntry, .key, .value, .blockEnd]
    let (item, rest) ← parseOptional handles true false stops fuel rest
    let (items, rest) ← parseItems handles indented fuel rest
    return (item :: items, rest)
  | _ + 1, ts =>
    if !indented then some ([], ts)
    else
      match ts with
      | .blockEnd :: rest => some ([], rest)
      | _ => none

def parseValue (handles : Handles) : Nat → List Token → Option (Tree String × List Token)
  | 0, _ => none
  | fuel + 1, .value :: rest => parseOptional handles true true [.key, .value, .blockEnd] fuel rest
  | _ + 1, ts => some (.empty, ts)

def parseEntries (handles : Handles) : Nat → List Token → Option (List Entry × List Token)
  | 0, _ => none
  | fuel + 1, .key :: rest => do
    let (key, rest) ← parseOptional handles true true [.key, .value, .blockEnd] fuel rest
    let (value, rest) ← parseValue handles fuel rest
    let (entries, rest) ← parseEntries handles fuel rest
    return ((key, value) :: entries, rest)
  | _ + 1, .blockEnd :: rest => some ([], rest)
  | _ + 1, _ => none

def parseFlowValue (handles : Handles) (close : Token) : Nat → List Token → Option (Tree String × List Token)
  | 0, _ => none
  | fuel + 1, .value :: rest => parseOptional handles false false [.flowEntry, close] fuel rest
  | _ + 1, ts => some (.empty, ts)

/-- The single pair that a key between square brackets starts. A key left out takes the token that
shows it along. -/
def parsePair (handles : Handles) : Nat → List Token → Option (Entry × List Token)
  | 0, _ => none
  | fuel + 1, ts => do
    let (key, rest) ←
      if nextAmong [.value, .flowEntry, .flowSequenceEnd] ts then some (.empty, ts.drop 1)
      else parseNode handles false false fuel ts
    let (value, rest) ← parseFlowValue handles .flowSequenceEnd fuel rest
    return ((key, value), rest)

def parseFlowItem (handles : Handles) : Nat → List Token → Option (Tree String × List Token)
  | 0, _ => none
  | fuel + 1, .key :: rest => do
    let (entry, rest) ← parsePair handles fuel rest
    return (.mapping none none [entry], rest)
  | fuel + 1, ts => parseNode handles false false fuel ts

/-- Items up to the closing bracket; a comma stands between two items and may stand behind the last. -/
def parseFlowItems (handles : Handles) (first : Bool) :
    Nat → List Token → Option (List (Tree String) × List Token)
  | 0, _ => none
  | _ + 1, .flowSequenceEnd :: rest => some ([], rest)
  | fuel + 1, ts => do
    let ts ← if first then some ts else match ts with
      | .flowEntry :: rest => some rest
      | _ => none
    match ts with
    | .flowSequenceEnd :: rest => some ([], rest)
    | _ => do
      let (item, rest) ← parseFlowItem handles fuel ts
      let (items, rest) ← parseFlowItems handles false fuel rest
      return (item :: items, rest)

/-- An entry between curly brackets; without a key token it is a key alone. -/
def parseFlowEntry (handles : Handles) : Nat → List Token → Option (Entry × List Token)
  | 0, _ => none
  | fuel + 1, .key :: rest => do
    let (key, rest) ← parseOptional handles false false [.value, .flowEntry, .flowMappingEnd] fuel rest
    let (value, rest) ← parseFlowValue handles .flowMappingEnd fuel rest
    return ((key, value), rest)
  | fuel + 1, ts => do
    let (key, rest) ← parseNode handles false false fuel ts
    return ((key, .empty), rest)

def parseFlowEntries (handles : Handles) (first : Bool) : Nat → List Token → Option (List Entry × List Token)
  | 0, _ => none
  | _ + 1, .flowMappingEnd :: rest => some ([], rest)
  | fuel + 1, ts => do
    let ts ← if first then some ts else match ts with
      | .flowEntry :: rest => some rest
      | _ => none
    match ts with
    | .flowMappingEnd :: rest => some ([], rest)
    | _ => do
      let (entry, rest) ← parseFlowEntry handles fuel ts
      let (entries, rest) ← parseFlowEntries handles false fuel rest
      return (entry :: entries, rest)

end

/-- The directives in front of a document: at most one version, 1.1 or 1.2, and no handle twice. -/
def readDirectives? (version : Bool) (handles : Handles) : List Token → Option (Handles × List Token)
  | .version major minor :: rest =>
    if version || major ≠ 1 || (minor ≠ 1 && minor ≠ 2) then none else readDirectives? true handles rest
  | .tagHandle handle lead :: rest =>
    if (handles.lookup handle).isSome then none
    else readDirectives? version (handles ++ [(handle, lead)]) rest
  | rest => some (handles, rest)

def atDocumentEnd : List Token → Bool
  | [] => true
  | .version .. :: _ => true
  | .tagHandle .. :: _ => true
  | .documentStart :: _ => true
  | .documentEnd :: _ => true
  | _ => false

def parseDocument (fuel : Nat) (ts : List Token) : Option (Tree String × List Token) := do
  let (handles, rest) ← readDirectives? false [] ts
  let handles := handles ++ standardHandles
  match ts, rest with
  | [], _ => some (.empty, [])
  | _, .documentStart :: rest =>
    if atDocumentEnd rest then some (.empty, rest) else parseNode handles true false fuel rest
  | .version .. :: _, _ => none
  | .tagHandle .. :: _, _ => none
  | _, _ => parseNode handles true false fuel ts

/-- The only document. Behind it stand at most markers of its end. -/
def parse? (ts : List Token) : Option (Tree String) := do
  let (root, rest) ← parseDocument (4 * ts.length + 4) ts
  if rest.all (· = .documentEnd) then some root else none

end CiWorkflow.Yaml
