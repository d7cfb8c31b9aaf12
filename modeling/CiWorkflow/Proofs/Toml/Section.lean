import CiWorkflow.Toml.Value

set_option autoImplicit false

namespace CiWorkflow.Toml

/-- The fields of a closed section: a table with known names only, or an array with values in the order of the
names. -/
inductive IsSection (names : List String) : Value → Section → Prop where
  | table {entries : List (String × Value)} (h : ∀ e ∈ entries, e.1 ∈ names) : IsSection names (.table entries) entries
  | array (items : List Value) : IsSection names (.array items) (names.zip items)

theorem section?_eq_some_iff {names : List String} {v : Value} {s : Section} : section? names true v = some s ↔
    IsSection names v s := by
  constructor
  · intro h
    cases v with
    | table entries =>
      simp only [section?, Bool.true_and] at h
      split at h
      · cases h
      · rename_i hknown
        cases h
        exact .table (by simpa using hknown)
    | array items =>
      cases h
      exact .array items
    | _ => cases h
  · rintro (h | items)
    · have hknown : (s.any fun e => !names.contains e.1) = false := by simpa using h
      rw [section?, hknown, Bool.and_false, if_neg Bool.false_ne_true]
    · rfl

namespace Value

/-- A word is written as a string, or as the one name of a table with nothing behind it. -/
inductive IsWord : Value → String → Prop where
  | string (word : String) : IsWord (.string word) word
  | emptyTable (word : String) : IsWord (.table [(word, .table [])]) word
  | emptyArray (word : String) : IsWord (.table [(word, .array [])]) word

theorem word?_eq_some_iff {v : Value} {word : String} : v.word? = some word ↔ v.IsWord word := by
  constructor
  · intro h
    unfold word? at h
    split at h
    · cases h
      exact .string _
    · rename_i v
      split at h
      · rename_i hempty
        cases h
        unfold isEmptyCollection at hempty
        split at hempty
        · exact .emptyArray _
        · exact .emptyTable _
        · cases hempty
      · cases h
    · cases h
  · rintro (_ | _ | _) <;> rfl

def IsText (v : Value) (s : String) : Prop := v = .string s

def IsCount (v : Value) (n : Nat) : Prop := v = .integer n

def IsChoice {α : Type} (choices : List (String × α)) (v : Value) (a : α) : Prop :=
  ∃ word, v.IsWord word ∧ choices.lookup word = some a

theorem text?_eq_some_iff {v : Value} {s : String} : v.text? = some s ↔ v.IsText s := by
  cases v <;> simp [text?, IsText]

theorem count?_eq_some_iff {v : Value} {n : Nat} : v.count? = some n ↔ v.IsCount n := by
  cases v with
  | integer i =>
    simp only [count?, IsCount, Value.integer.injEq]
    grind
  | _ => simp [count?, IsCount]

theorem choice?_eq_some_iff {α : Type} {choices : List (String × α)} {v : Value} {a : α} :
    v.choice? choices = some a ↔ v.IsChoice choices a := by
  simp only [choice?, Option.bind_eq_some_iff, word?_eq_some_iff, IsChoice]

end Value

namespace Section

variable {α : Type} {s : Section} {name : String} {read : Value → Option α} {means : Value → α → Prop}

/-- What a section says of a field: nothing, or something with a meaning. -/
def Says (s : Section) (name : String) (means : Value → α → Prop) : Option α → Prop
  | none => s.lookup name = none
  | some a => ∃ v, s.lookup name = some v ∧ means v a

theorem optional?_eq_some_iff {x : Option α} (h : ∀ {v a}, read v = some a ↔ means v a) :
    s.optional? name read = some x ↔ s.Says name means x := by
  rw [optional?]
  cases x with
  | none => cases hv : s.lookup name <;> simp [Says, hv]
  | some a => cases hv : s.lookup name <;> simp [Says, hv, h]

theorem defaulted?_eq_some_iff {value a : α} (h : ∀ {v a}, read v = some a ↔ means v a) :
    s.defaulted? name value read = some a ↔ ∃ x, s.Says name means x ∧ x.getD value = a := by
  simp only [defaulted?, Option.map_eq_some_iff, optional?_eq_some_iff h]

end Section

end CiWorkflow.Toml
