import CiWorkflow.Proofs.Render.ScriptBlock
import CiWorkflow.Proofs.Render.Fresh
import CiWorkflow.Proofs.Yaml.NodeText

/-!
# The text of a document with its scripts

The encoder's text with the script of every entry in its place: as a block behind a plain `run` key that nothing but
spaces and dashes stands in front of, and in quotes everywhere else. Without scripts it is the text of the encoder.
-/
set_option autoImplicit false

namespace CiWorkflow.Render

open Yaml Yaml.Scanner Yaml.Value Position

def isPlainRun : Value → Bool
  | .string s => s = "run"
  | _ => false

/-- A line feed ends the text, so that what follows starts a line of its own. -/
def endsInFeed (cs : List Char) : Bool := endsIn (· = '\n') cs

def scriptText (indent n : Nat) (asBlock : Bool) (s : String) : List Char :=
  ' ' :: (if asBlock then scriptBlock n indent s else Json.quoted s.toList ++ ['\n'])

section Layout

variable (script : Value → Value → Option String) (indent : Nat)

mutual

/-- A node; `alone` tells whether spaces and dashes are all that its line starts with. -/
def laidNode (p : Yaml.Place) (alone : Bool) (tag : Option String) : Value → List Char
  | .tagged t v => laidNode p alone (some t) v
  | .sequence (v :: rest) =>
    let n := p.sequenceColumn tag.isSome
    p.opening tag ++ laidItems n (p.lead tag n) (p.startsLine tag || alone) (v :: rest)
  | .mapping (e :: rest) =>
    let n := p.mappingColumn
    p.opening tag ++ laidEntries n (p.lead tag n) (p.startsLine tag || alone) (e :: rest)
  | v => closeLine (p.gap ++ (tagLead tag ++ (atomText? p.scalarWidth v).getD []))

/-- The items of a sequence in column `n`, the first of them behind `k` spaces. -/
def laidItems (n k : Nat) (alone : Bool) : List Value → List Char
  | [] => []
  | v :: rest =>
    let item := laidNode (.item n) alone none v
    spaces k ++ '-' :: (item ++ laidItems n n (endsInFeed item) rest)

def laidEntry (n : Nat) (alone : Bool) : Value × Value → List Char
  | (key, v) =>
    match simpleKey? key with
    | some text => text ++ ':' :: (match script key v with
      | some s => scriptText indent n (alone && isPlainRun key) s
      | none => laidNode (.value n) false none v)
    | none => '?' :: (nodeText (.slot n) none key ++ (spaces n ++ ':' :: (match script key v with
      | some s => scriptText indent n false s
      | none => laidNode (.slot n) false none v)))

def laidEntries (n k : Nat) (alone : Bool) : List (Value × Value) → List Char
  | [] => []
  | e :: rest =>
    let entry := laidEntry n alone e
    spaces k ++ (entry ++ laidEntries n n (endsInFeed entry) rest)

end

mutual

def nodeBlocks (p : Yaml.Place) (alone : Bool) (tag : Option String) : Value → List String
  | .tagged t v => nodeBlocks p alone (some t) v
  | .sequence items => itemBlocks (p.sequenceColumn tag.isSome) (p.startsLine tag || alone) items
  | .mapping entries => entriesBlocks p.mappingColumn (p.startsLine tag || alone) entries
  | _ => []

def itemBlocks (n : Nat) (alone : Bool) : List Value → List String
  | [] => []
  | v :: rest =>
    nodeBlocks (.item n) alone none v ++ itemBlocks n (endsInFeed (laidNode script indent (.item n) alone none v)) rest

def entryBlocks (n : Nat) (alone : Bool) : Value × Value → List String
  | (key, v) =>
    match simpleKey? key with
    | some _ => (match script key v with
      | some s => if alone && isPlainRun key then [s] else []
      | none => nodeBlocks (.value n) false none v)
    | none => (match script key v with
      | some _ => []
      | none => nodeBlocks (.slot n) false none v)

def entriesBlocks (n : Nat) (alone : Bool) : List (Value × Value) → List String
  | [] => []
  | e :: rest =>
    entryBlocks n alone e ++ entriesBlocks n (endsInFeed (laidEntry script indent n alone e)) rest

end

end Layout

/-! ## The last line -/

section Ends

variable {script : Value → Value → Option String} {indent : Nat}

theorem endsIn_scriptText (n : Nat) (asBlock : Bool) (s : String) :
    endsIn isBreak (scriptText indent n asBlock s) = true := by
  unfold scriptText
  split
  · obtain ⟨cs, hcs⟩ := scriptBlock_ends n indent s
    rw [hcs, ← List.cons_append, endsIn_concat]
    rfl
  · rw [← List.cons_append, endsIn_concat]
    rfl

mutual

theorem endsIn_laidNode (p : Yaml.Place) (alone : Bool) (tag : Option String) (v : Value) :
    endsIn isBreak (laidNode script indent p alone tag v) = true := by
  cases v with
  | tagged t v => exact endsIn_laidNode p alone (some t) v
  | sequence items =>
    cases items with
    | nil => exact endsIn_closeLine _
    | cons v vs => exact endsIn_behind (endsIn_laidItems _ _ _ (v :: vs) (List.cons_ne_nil v vs)) _
  | mapping entries =>
    cases entries with
    | nil => exact endsIn_closeLine _
    | cons e es => exact endsIn_behind (endsIn_laidEntries _ _ _ (e :: es) (List.cons_ne_nil e es)) _
  | _ => exact endsIn_closeLine _

theorem endsIn_laidItems (n k : Nat) (alone : Bool) (vs : List Value) (hne : vs ≠ []) :
    endsIn isBreak (laidItems script indent n k alone vs) = true := by
  cases vs with
  | nil => exact absurd rfl hne
  | cons v vs =>
    rw [laidItems, List.append_cons]
    refine endsIn_behind ?_ _
    by_cases hvs : vs = []
    · rw [hvs, laidItems, List.append_nil]
      exact endsIn_laidNode _ _ none v
    · exact endsIn_behind (endsIn_laidItems _ _ _ vs hvs) _

theorem endsIn_laidEntry (n : Nat) (alone : Bool) (e : Value × Value) :
    endsIn isBreak (laidEntry script indent n alone e) = true := by
  obtain ⟨key, v⟩ := e
  rw [laidEntry]
  split
  · rw [List.append_cons]
    refine endsIn_behind ?_ _
    split
    · exact endsIn_scriptText n _ _
    · exact endsIn_laidNode _ _ none v
  · refine endsIn_behind (endsIn_behind (endsIn_behind (endsIn_behind ?_ [':']) _) _) ['?']
    split
    · exact endsIn_scriptText n _ _
    · exact endsIn_laidNode _ _ none v

theorem endsIn_laidEntries (n k : Nat) (alone : Bool) (es : List (Value × Value)) (hne : es ≠ []) :
    endsIn isBreak (laidEntries script indent n k alone es) = true := by
  cases es with
  | nil => exact absurd rfl hne
  | cons e es =>
    rw [laidEntries]
    refine endsIn_behind ?_ _
    by_cases hes : es = []
    · rw [hes, laidEntries, List.append_nil]
      exact endsIn_laidEntry _ _ e
    · exact endsIn_behind (endsIn_laidEntries _ _ _ es hes) _

end

end Ends

theorem spaces_eq (n : Nat) : spaces n = Yaml.spaces n := rfl

/-! ## Without scripts -/

theorem laidNode_leaf {p : Yaml.Place} {v : Value} {A : List Char} (h : atomText? p.scalarWidth v = some A)
    (script : Value → Value → Option String) (indent : Nat) (alone : Bool) (tag : Option String) :
    laidNode script indent p alone tag v = closeLine (p.gap ++ (tagLead tag ++ A)) := by
  cases v with
  | sequence items =>
    cases items with
    | nil => simp [laidNode, h]
    | cons v vs => cases h
  | mapping entries =>
    cases entries with
    | nil => simp [laidNode, h]
    | cons e es => cases h
  | tagged t v => cases h
  | _ => simp [laidNode, h]

section Unscripted

variable (indent : Nat)

mutual

theorem laidNode_none (p : Yaml.Place) (alone : Bool) (tag : Option String) (v : Value) :
    laidNode (fun _ _ => none) indent p alone tag v = nodeText p tag v := by
  cases v with
  | tagged t v => rw [laidNode, nodeText, laidNode_none p alone (some t) v]
  | sequence items =>
    cases items with
    | nil => rw [laidNode_leaf rfl, nodeText_leaf rfl]
    | cons v vs =>
      rw [nodeText_sequence, laidNode, laidItems, laidNode_none _ _ none v, laidItems_none _ _ vs]
      rfl
  | mapping entries =>
    cases entries with
    | nil => rw [laidNode_leaf rfl, nodeText_leaf rfl]
    | cons e es =>
      rw [nodeText_mapping, laidNode, laidEntries, laidEntry_none _ _ e, laidEntries_none _ _ es]
      rfl
  | _ => rw [laidNode_leaf rfl, nodeText_leaf rfl]

theorem laidItems_none (n : Nat) (alone : Bool) (vs : List Value) :
    laidItems (fun _ _ => none) indent n n alone vs = itemsText n vs := by
  cases vs with
  | nil => rfl
  | cons v vs =>
    rw [laidItems, itemsText_cons, laidNode_none _ _ none v, laidItems_none _ _ vs]
    rfl

theorem laidEntry_none (n : Nat) (alone : Bool) (e : Value × Value) :
    laidEntry (fun _ _ => none) indent n alone e = entryText n e := by
  obtain ⟨key, v⟩ := e
  rw [laidEntry, entryText]
  cases simpleKey? key with
  | some text => simp only [laidNode_none _ _ none v]
  | none => simp only [laidNode_none _ _ none v, spaces_eq]

theorem laidEntries_none (n : Nat) (alone : Bool) (es : List (Value × Value)) :
    laidEntries (fun _ _ => none) indent n n alone es = entriesText n es := by
  cases es with
  | nil => rfl
  | cons e es =>
    rw [laidEntries, entriesText_cons, laidEntry_none _ alone e, laidEntries_none _ _ es]
    rfl

end

theorem endsIn_nodeText (p : Yaml.Place) (tag : Option String) (v : Value) : endsIn isBreak (nodeText p tag v) = true := by
  rw [← laidNode_none 0 p false tag v]
  exact endsIn_laidNode p false tag v

mutual

theorem nodeBlocks_none (p : Yaml.Place) (alone : Bool) (tag : Option String) (v : Value) :
    nodeBlocks (fun _ _ => none) indent p alone tag v = [] := by
  cases v with
  | tagged t v => exact nodeBlocks_none p alone (some t) v
  | sequence items => exact itemBlocks_none _ _ items
  | mapping entries => exact entriesBlocks_none _ _ entries
  | _ => rfl

theorem itemBlocks_none (n : Nat) (alone : Bool) (vs : List Value) :
    itemBlocks (fun _ _ => none) indent n alone vs = [] := by
  cases vs with
  | nil => rfl
  | cons v rest => rw [itemBlocks, nodeBlocks_none _ _ none v, itemBlocks_none _ _ rest, List.append_nil]

theorem entriesBlocks_none (n : Nat) (alone : Bool) (es : List (Value × Value)) :
    entriesBlocks (fun _ _ => none) indent n alone es = [] := by
  cases es with
  | nil => rfl
  | cons e rest =>
    have hentry : entryBlocks (fun _ _ => none) indent n alone e = [] := by
      obtain ⟨key, v⟩ := e
      rw [entryBlocks]
      split <;> exact nodeBlocks_none _ _ none v
    rw [entriesBlocks, hentry, entriesBlocks_none _ _ rest, List.append_nil]

end

end Unscripted

end CiWorkflow.Render
