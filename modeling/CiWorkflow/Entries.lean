set_option autoImplicit false

namespace CiWorkflow

def putIn {α : Type} (name : String) (value : α) : List (String × α) → List (String × α)
  | [] => [(name, value)]
  | e :: rest => if e.1 = name then (name, value) :: rest else e :: putIn name value rest

theorem mem_names_putIn {α : Type} (name other : String) (value : α) (es : List (String × α)) :
    other ∈ (putIn name value es).map Prod.fst ↔ other = name ∨ other ∈ es.map Prod.fst := by
  induction es with
  | nil => simp [putIn]
  | cons e rest ih =>
    rw [putIn]
    split
    · rename_i h
      subst h
      simp
    · simp only [List.map_cons, List.mem_cons, ih]
      constructor
      · rintro (h | h | h) <;> simp [h]
      · rintro (h | h | h) <;> simp [h]

theorem nodup_putIn {α : Type} (name : String) (value : α) (es : List (String × α))
    (h : (es.map Prod.fst).Nodup) : ((putIn name value es).map Prod.fst).Nodup := by
  induction es with
  | nil => simp [putIn]
  | cons e rest ih =>
    simp only [List.map_cons, List.nodup_cons] at h
    rw [putIn]
    split
    · rename_i he
      simpa [← he] using h
    · rename_i he
      simp only [List.map_cons, List.nodup_cons]
      refine ⟨?_, ih h.2⟩
      rw [mem_names_putIn]
      rintro (h' | h')
      · exact he h'
      · exact h.1 h'

structure Entries (α : Type) where
  toList : List (String × α)
  nodup : (toList.map Prod.fst).Nodup
  deriving DecidableEq

namespace Entries

variable {α : Type}

def empty : Entries α := ⟨[], List.nodup_nil⟩

instance : Inhabited (Entries α) := ⟨empty⟩

def isEmpty (es : Entries α) : Bool := es.toList.isEmpty

def insert (name : String) (value : α) (es : Entries α) : Entries α :=
  ⟨putIn name value es.toList, nodup_putIn name value es.toList es.nodup⟩

/-- The entries one after another; a later one replaces the value of an earlier one. -/
def ofList (es : List (String × α)) : Entries α := es.foldl (fun m e => m.insert e.1 e.2) empty

def names (es : Entries α) : List String := es.toList.map Prod.fst

def contains (name : String) (es : Entries α) : Bool := es.names.contains name

@[ext]
theorem ext {a b : Entries α} (h : a.toList = b.toList) : a = b := by
  cases a
  cases b
  simpa using h

@[simp]
theorem toList_insert (name : String) (value : α) (es : Entries α) :
    (es.insert name value).toList = putIn name value es.toList := rfl

@[simp]
theorem toList_empty : (empty : Entries α).toList = [] := rfl

theorem mem_names_insert (name other : String) (value : α) (es : Entries α) :
    other ∈ (es.insert name value).names ↔ other = name ∨ other ∈ es.names :=
  mem_names_putIn name other value es.toList

end Entries

end CiWorkflow
