import CiWorkflow.Decimal.Layout
import CiWorkflow.Json.Fault
import CiWorkflow.Json.Quoted
import CiWorkflow.Yaml.Value

set_option autoImplicit false

namespace CiWorkflow.Json

open Decimal Yaml

/-- Exponents carry their sign; what is not finite is written as `null` before the layout applies. -/
def floatLayout : Layout := ⟨some (-5, 15), true, true, "null", "null", "null"⟩

def floatText? (x : Binary64) : Option (List Char) :=
  match x.kind with
  | .finite .. => some (floatLayout.write x).toList
  | _ => none

def keyName : Value → Except JsonFault (List Char)
  | .string s => .ok s.toList
  | .bool b => .ok (if b then "true".toList else "false".toList)
  | .int n => .ok (toString n).toList
  | .float x =>
    match floatText? x with
    | some text => .ok text
    | none => .error .keyNotFinite
  | _ => .error .keyNotText

def newLine (indent depth : Nat) : List Char := '\n' :: List.replicate (depth * indent) ' '

def member (indent depth : Nat) (name text : List Char) : List Char :=
  newLine indent depth ++ quoted name ++ ':' :: ' ' :: text

mutual

def valueText (indent depth : Nat) : Value → Except JsonFault (List Char)
  | .null => .ok "null".toList
  | .bool b => .ok (if b then "true".toList else "false".toList)
  | .int n => .ok (toString n).toList
  | .float x => .ok ((floatText? x).getD "null".toList)
  | .string s => .ok (quoted s.toList)
  | .sequence [] => .ok ['[', ']']
  | .sequence (v :: rest) => do
    let text ← valueText indent (depth + 1) v
    let others ← itemsText indent (depth + 1) rest
    return '[' :: newLine indent (depth + 1) ++ text ++ others ++ newLine indent depth ++ [']']
  | .mapping [] => .ok ['\x7b', '\x7d']
  | .mapping ((k, v) :: rest) => do
    let name ← keyName k
    let text ← valueText indent (depth + 1) v
    let others ← entriesText indent (depth + 1) rest
    return '\x7b' :: member indent (depth + 1) name text ++ others ++ newLine indent depth ++ ['\x7d']
  | .tagged t v => do
    let text ← valueText indent (depth + 1) v
    return '\x7b' :: member indent (depth + 1) (Value.shownTag t).toList text ++
      newLine indent depth ++ ['\x7d']

def itemsText (indent depth : Nat) : List Value → Except JsonFault (List Char)
  | [] => .ok []
  | v :: rest => do
    let text ← valueText indent depth v
    let others ← itemsText indent depth rest
    return ',' :: newLine indent depth ++ text ++ others

def entriesText (indent depth : Nat) : List (Value × Value) → Except JsonFault (List Char)
  | [] => .ok []
  | (k, v) :: rest => do
    let name ← keyName k
    let text ← valueText indent depth v
    let others ← entriesText indent depth rest
    return ',' :: member indent depth name text ++ others

end

/-- The text of a value; nesting is shown by at least one blank. -/
def write (indent : Nat) (v : Value) : Except JsonFault String :=
  (valueText (max indent 1) 0 v).map String.ofList

end CiWorkflow.Json
