import Mathlib.Algebra.Group.Int.Defs
import CiWorkflow.Render.Marker

set_option autoImplicit false

namespace CiWorkflow.Yaml.Value

open Render

mutual

def depth : Value → Nat
  | .sequence items => itemsDepth items + 1
  | .mapping entries => entriesDepth entries + 1
  | .tagged _ v => depth v
  | _ => 0

def itemsDepth : List Value → Nat
  | [] => 0
  | v :: rest => max (depth v) (itemsDepth rest)

def entriesDepth : List (Value × Value) → Nat
  | [] => 0
  | (k, v) :: rest => max (max (depth k) (depth v)) (entriesDepth rest)

end

mutual

def inRange : Value → Bool
  | .int n => decide (-2 ^ 63 ≤ n ∧ n < 2 ^ 64)
  | .sequence items => itemsInRange items
  | .mapping entries => entriesInRange entries
  | .tagged _ v => inRange v
  | _ => true

def itemsInRange : List Value → Bool
  | [] => true
  | v :: rest => inRange v && itemsInRange rest

def entriesInRange : List (Value × Value) → Bool
  | [] => true
  | (k, v) :: rest => inRange k && inRange v && entriesInRange rest

end

mutual

def mapTexts (f : String → String) : Value → Value
  | .string s => .string (f s)
  | .sequence items => .sequence (mapItemTexts f items)
  | .mapping entries => .mapping (mapEntryTexts f entries)
  | .tagged t v => .tagged t (mapTexts f v)
  | v => v

def mapItemTexts (f : String → String) : List Value → List Value
  | [] => []
  | v :: rest => mapTexts f v :: mapItemTexts f rest

def mapEntryTexts (f : String → String) : List (Value × Value) → List (Value × Value)
  | [] => []
  | (k, v) :: rest => (mapTexts f k, mapTexts f v) :: mapEntryTexts f rest

end

mutual

theorem mapTexts_eq_self (f : String → String) (v : Value) :
    v.mapTexts f = v ↔ ∀ s ∈ texts v, f s = s := by
  cases v with
  | string s => simp [mapTexts, texts]
  | sequence items => simpa [mapTexts, texts] using mapItemTexts_eq_self f items
  | mapping entries => simpa [mapTexts, texts] using mapEntryTexts_eq_self f entries
  | tagged t v => simpa [mapTexts, texts] using mapTexts_eq_self f v
  | _ => simp [mapTexts, texts]

theorem mapItemTexts_eq_self (f : String → String) (vs : List Value) :
    mapItemTexts f vs = vs ↔ ∀ s ∈ itemTexts vs, f s = s := by
  cases vs with
  | nil => simp [mapItemTexts, itemTexts]
  | cons v rest =>
    simp only [mapItemTexts, itemTexts, List.cons.injEq, mapTexts_eq_self f v, mapItemTexts_eq_self f rest,
      List.forall_mem_append]

theorem mapEntryTexts_eq_self (f : String → String) (es : List (Value × Value)) :
    mapEntryTexts f es = es ↔ ∀ s ∈ entryTexts es, f s = s := by
  cases es with
  | nil => simp [mapEntryTexts, entryTexts]
  | cons e rest =>
    obtain ⟨k, v⟩ := e
    simp only [mapEntryTexts, entryTexts, List.cons.injEq, Prod.mk.injEq, mapTexts_eq_self f k,
      mapTexts_eq_self f v, mapEntryTexts_eq_self f rest, List.forall_mem_append]

end

end CiWorkflow.Yaml.Value
