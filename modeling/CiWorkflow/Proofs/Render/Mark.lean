import CiWorkflow.Render.Marker

set_option autoImplicit false

namespace CiWorkflow.Render

open Yaml

/-- The value of an entry, with its script or the scripts in it taken out. -/
def markMember (number i : Nat) (key value : Value) : Value × List String :=
  match script? key value with
  | some s => (.string (reference number i), [s])
  | none => markFrom number i value

variable (number i : Nat)

theorem markFrom_sequence (vs : List Value) :
    markFrom number i (.sequence vs) = (.sequence (markItems number i vs).1, (markItems number i vs).2) := by
  rw [markFrom]

theorem markFrom_mapping (es : List (Value × Value)) :
    markFrom number i (.mapping es) = (.mapping (markEntries number i es).1, (markEntries number i es).2) := by
  rw [markFrom]

theorem markFrom_tagged (t : String) (v : Value) :
    markFrom number i (.tagged t v) = (.tagged t (markFrom number i v).1, (markFrom number i v).2) := by
  rw [markFrom]

theorem markItems_cons (v : Value) (rest : List Value) :
    markItems number i (v :: rest) =
      ((markFrom number i v).1 :: (markItems number (i + (markFrom number i v).2.length) rest).1,
        (markFrom number i v).2 ++ (markItems number (i + (markFrom number i v).2.length) rest).2) := by
  rw [markItems]

theorem markEntries_cons (k v : Value) (rest : List (Value × Value)) :
    markEntries number i ((k, v) :: rest) =
      ((k, (markMember number i k v).1) :: (markEntries number (i + (markMember number i k v).2.length) rest).1,
        (markMember number i k v).2 ++
          (markEntries number (i + (markMember number i k v).2.length) rest).2) := by
  rw [markEntries]
  rfl

theorem eq_string_of_script {key value : Value} {s : String} (h : script? key value = some s) :
    value = .string s := by
  cases value <;> simp [script?] at h
  simp [h]

mutual

theorem markFrom_eq_self (i : Nat) (v : Value) (h : (markFrom number i v).2 = []) : (markFrom number i v).1 = v := by
  cases v with
  | sequence vs =>
    rw [markFrom_sequence] at h ⊢
    rw [markItems_eq_self i vs h]
  | mapping es =>
    rw [markFrom_mapping] at h ⊢
    rw [markEntries_eq_self i es h]
  | tagged t v =>
    rw [markFrom_tagged] at h ⊢
    rw [markFrom_eq_self i v h]
  | _ => simp [markFrom]

theorem markItems_eq_self (i : Nat) (vs : List Value) (h : (markItems number i vs).2 = []) :
    (markItems number i vs).1 = vs := by
  cases vs with
  | nil => rw [markItems]
  | cons v rest =>
    rw [markItems_cons] at h ⊢
    obtain ⟨hv, hrest⟩ := List.append_eq_nil_iff.mp h
    rw [markFrom_eq_self i v hv, markItems_eq_self _ rest hrest]

theorem markEntries_eq_self (i : Nat) (es : List (Value × Value)) (h : (markEntries number i es).2 = []) :
    (markEntries number i es).1 = es := by
  cases es with
  | nil => rw [markEntries]
  | cons e rest =>
    obtain ⟨k, v⟩ := e
    rw [markEntries_cons] at h ⊢
    obtain ⟨hv, hrest⟩ := List.append_eq_nil_iff.mp h
    have hmember : markMember number i k v = markFrom number i v := by
      unfold markMember at hv ⊢
      split at hv
      · cases hv
      · rfl
    rw [hmember] at hv hrest ⊢
    rw [markFrom_eq_self i v hv, markEntries_eq_self _ rest hrest]

end

/-- The scripts of a part stand in the order of the list from some place on. -/
def HoldsFrom (b : Blocks) (i : Nat) (scripts : List String) : Prop := scripts <+: b.scripts.drop i

variable {b : Blocks} {i}

theorem HoldsFrom.split {ss us : List String} (h : HoldsFrom b i (ss ++ us)) :
    HoldsFrom b i ss ∧ HoldsFrom b (i + ss.length) us := by
  obtain ⟨tail, htail⟩ := h
  refine ⟨⟨us ++ tail, by rw [← htail, List.append_assoc]⟩, ⟨tail, ?_⟩⟩
  rw [← List.drop_drop, ← htail, List.append_assoc, List.drop_left]

theorem HoldsFrom.get {s : String} (h : HoldsFrom b i [s]) : b.scripts[i]? = some s := by
  obtain ⟨tail, htail⟩ := h
  have := congrArg (·[0]?) htail
  simpa using this.symm

end CiWorkflow.Render
