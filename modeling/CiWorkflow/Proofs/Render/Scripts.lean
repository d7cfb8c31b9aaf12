import CiWorkflow.Proofs.Render.Fresh
import CiWorkflow.Proofs.Render.Mark
import CiWorkflow.Proofs.Render.Restore
import CiWorkflow.Proofs.Yaml.Value

/-!
# The scripts of a value and their places

Marking takes out the texts of several lines under the key `run`, in document order, and nothing else. Since
no text of the value holds the marker, putting the scripts in place of the references gives the value back.
-/
set_option autoImplicit false

namespace CiWorkflow

/-! ## Places in a value -/

namespace Yaml.Value

/-- The part at a place: each number tells which item, or the value of which entry, comes next. What stands
under a tag has number 0; keys have no places. -/
def part? : List Nat → Value → Option Value
  | [], v => some v
  | i :: p, .sequence items => items[i]?.bind (part? p)
  | i :: p, .mapping entries => entries[i]?.bind fun e => part? p e.2
  | 0 :: p, .tagged _ v => part? p v
  | _, _ => none

/-- What a value holds beside the parts that have places: a scalar, the number of items, the keys in their order,
or the tag. -/
def outline : Value → Value
  | .sequence items => .sequence (items.map fun _ => .null)
  | .mapping entries => .mapping (entries.map fun e => (e.1, .null))
  | .tagged t _ => .tagged t .null
  | v => v

@[simp] theorem part?_nil (v : Value) : v.part? [] = some v := by
  cases v <;> rfl

@[simp] theorem part?_sequence (i : Nat) (p : List Nat) (items : List Value) :
    (Value.sequence items).part? (i :: p) = items[i]?.bind (part? p) := rfl

@[simp] theorem part?_mapping (i : Nat) (p : List Nat) (entries : List (Value × Value)) :
    (Value.mapping entries).part? (i :: p) = entries[i]?.bind fun e => e.2.part? p := rfl

@[simp] theorem part?_tagged_zero (p : List Nat) (t : String) (v : Value) :
    (Value.tagged t v).part? (0 :: p) = v.part? p := rfl

@[simp] theorem part?_tagged_succ (i : Nat) (p : List Nat) (t : String) (v : Value) :
    (Value.tagged t v).part? ((i + 1) :: p) = none := rfl

@[simp] theorem part?_string_cons (i : Nat) (p : List Nat) (s : String) : (Value.string s).part? (i :: p) = none := rfl

end Yaml.Value

namespace Render

open Text Yaml Value

/-! ## Scripts -/

/-- A text of several lines that a literal block can show and that stands under a key `run`, whatever tags the key
has. -/
def IsScript (v : Value) (p : List Nat) (s : String) : Prop :=
  ∃ q i entries key, p = q ++ [i] ∧ v.part? q = some (.mapping entries) ∧ entries[i]? = some (key, .string s) ∧
    isRunKey key = true ∧ '\n' ∈ s.toList ∧ isBlockSafe s = true

theorem script_eq_some {key value : Value} {s : String} :
    script? key value = some s ↔
      value = .string s ∧ isRunKey key = true ∧ '\n' ∈ s.toList ∧ isBlockSafe s = true := by
  cases value with
  | string t =>
    simp only [script?, Bool.and_eq_true, List.contains_eq_mem, decide_eq_true_eq, string.injEq]
    constructor
    · intro h
      split at h <;> cases h
      rename_i h
      exact ⟨rfl, h.1.1, h.1.2, h.2⟩
    · rintro ⟨rfl, hkey, hline, hsafe⟩
      rw [if_pos ⟨⟨hkey, hline⟩, hsafe⟩]
  | _ => simp [script?]

section IsScript

variable {p : List Nat} {s : String}

theorem isScript_sequence {items : List Value} :
    IsScript (.sequence items) p s ↔ ∃ i q v, p = i :: q ∧ items[i]? = some v ∧ IsScript v q s := by
  constructor
  · rintro ⟨q, i, entries, key, rfl, hq, hs⟩
    cases q with
    | nil => simp at hq
    | cons j q =>
      obtain ⟨v, hv, hq⟩ := Option.bind_eq_some_iff.mp ((part?_sequence j q items).symm.trans hq)
      exact ⟨j, q ++ [i], v, rfl, hv, q, i, entries, key, rfl, hq, hs⟩
  · rintro ⟨i, q, v, rfl, hv, q', j, entries, key, rfl, hq, hs⟩
    exact ⟨i :: q', j, entries, key, rfl, by simp [hv, hq], hs⟩

theorem isScript_mapping {entries : List (Value × Value)} :
    IsScript (.mapping entries) p s ↔
      (∃ i key value, p = [i] ∧ entries[i]? = some (key, value) ∧ script? key value = some s) ∨
        ∃ i q e, p = i :: q ∧ entries[i]? = some e ∧ IsScript e.2 q s := by
  constructor
  · rintro ⟨q, i, es, key, rfl, hq, he, hs⟩
    cases q with
    | nil =>
      obtain rfl : entries = es := by simpa using hq
      exact .inl ⟨i, key, .string s, rfl, he, script_eq_some.mpr ⟨rfl, hs⟩⟩
    | cons j q =>
      obtain ⟨e, hje, hq⟩ := Option.bind_eq_some_iff.mp ((part?_mapping j q entries).symm.trans hq)
      exact .inr ⟨j, q ++ [i], e, rfl, hje, q, i, es, key, rfl, hq, he, hs⟩
  · rintro (⟨i, key, value, rfl, he, hs⟩ | ⟨i, q, e, rfl, he, q', j, es, key, rfl, hq, hs⟩)
    · obtain ⟨rfl, hscript⟩ := script_eq_some.mp hs
      exact ⟨[], i, entries, key, rfl, part?_nil _, he, hscript⟩
    · exact ⟨i :: q', j, es, key, rfl, by simp [he, hq], hs⟩

theorem isScript_tagged {t : String} {v : Value} :
    IsScript (.tagged t v) p s ↔ ∃ q, p = 0 :: q ∧ IsScript v q s := by
  constructor
  · rintro ⟨q, i, entries, key, rfl, hq, hs⟩
    match q with
    | [] => simp at hq
    | 0 :: q => exact ⟨q ++ [i], rfl, q, i, entries, key, rfl, by simpa using hq, hs⟩
    | (j + 1) :: q => simp at hq
  · rintro ⟨q, rfl, q', j, entries, key, rfl, hq, hs⟩
    exact ⟨0 :: q', j, entries, key, rfl, by simpa using hq, hs⟩

theorem not_isScript {v : Value} (h : ∀ i q, v.part? (i :: q) = none) (hv : ∀ entries, v ≠ .mapping entries) :
    ¬ IsScript v p s := by
  rintro ⟨q, i, entries, key, rfl, hq, -⟩
  cases q with
  | nil => exact hv entries (by simpa using hq)
  | cons j q => simp [h] at hq

end IsScript

/-! ## The list of scripts -/

def below (i : Nat) (e : List Nat × String) : List Nat × String := (i :: e.1, e.2)

mutual

/-- The scripts of a value with their places, as they come. -/
def scripts : Value → List (List Nat × String)
  | .sequence items => itemScripts 0 items
  | .mapping entries => entryScripts 0 entries
  | .tagged _ v => (scripts v).map (below 0)
  | _ => []

def itemScripts (i : Nat) : List Value → List (List Nat × String)
  | [] => []
  | v :: rest => (scripts v).map (below i) ++ itemScripts (i + 1) rest

def entryScripts (i : Nat) : List (Value × Value) → List (List Nat × String)
  | [] => []
  | (k, v) :: rest =>
    (match script? k v with
      | some s => [([i], s)]
      | none => (scripts v).map (below i)) ++ entryScripts (i + 1) rest

end

def memberScripts (i : Nat) (key value : Value) : List (List Nat × String) :=
  match script? key value with
  | some s => [([i], s)]
  | none => (scripts value).map (below i)

theorem entryScripts_cons (i : Nat) (k v : Value) (rest : List (Value × Value)) :
    entryScripts i ((k, v) :: rest) = memberScripts i k v ++ entryScripts (i + 1) rest := by
  rw [entryScripts]
  rfl

section List

variable {p : List Nat} {s : String}

theorem mem_below {i : Nat} {es : List (List Nat × String)} :
    (p, s) ∈ es.map (below i) ↔ ∃ q, p = i :: q ∧ (q, s) ∈ es := by
  simp only [List.mem_map, below, Prod.mk.injEq, Prod.exists]
  constructor
  · rintro ⟨q, t, hmem, rfl, rfl⟩
    exact ⟨q, rfl, hmem⟩
  · rintro ⟨q, rfl, hmem⟩
    exact ⟨q, s, hmem, rfl, rfl⟩

theorem mem_memberScripts {i : Nat} {key value : Value} (h : ∀ q, (q, s) ∈ scripts value ↔ IsScript value q s) :
    (p, s) ∈ memberScripts i key value ↔
      p = [i] ∧ script? key value = some s ∨ ∃ q, p = i :: q ∧ IsScript value q s := by
  unfold memberScripts
  cases hs : script? key value with
  | none => simp only [mem_below, h, reduceCtorEq, and_false, false_or]
  | some t =>
    obtain ⟨rfl, -⟩ := script_eq_some.mp hs
    have hnone (q : List Nat) : ¬ IsScript (.string t) q s := not_isScript (by simp) (by simp)
    simp [hnone, eq_comm]

mutual

theorem mem_scripts (v : Value) (p : List Nat) : (p, s) ∈ scripts v ↔ IsScript v p s := by
  cases v with
  | sequence items =>
    rw [scripts, isScript_sequence, mem_itemScripts]
    simp only [Nat.zero_add]
  | mapping entries =>
    rw [scripts, isScript_mapping, mem_entryScripts]
    simp only [Nat.zero_add]
  | tagged t v => simp only [scripts, isScript_tagged, mem_below, mem_scripts v]
  | _ =>
    simp only [scripts, List.not_mem_nil, false_iff]
    exact not_isScript (fun i q => by rw [part?] <;> simp) (by simp)

theorem mem_itemScripts (vs : List Value) (i : Nat) (p : List Nat) :
    (p, s) ∈ itemScripts i vs ↔ ∃ j q v, p = (i + j) :: q ∧ vs[j]? = some v ∧ IsScript v q s := by
  cases vs with
  | nil => simp [itemScripts]
  | cons v rest =>
    rw [itemScripts, List.mem_append, mem_below, mem_itemScripts rest]
    constructor
    · rintro (⟨q, rfl, hs⟩ | ⟨j, q, w, rfl, hw, hs⟩)
      · exact ⟨0, q, v, rfl, rfl, (mem_scripts v q).mp hs⟩
      · exact ⟨j + 1, q, w, by rw [Nat.add_right_comm, Nat.add_assoc], hw, hs⟩
    · rintro ⟨j, q, w, rfl, hw, hs⟩
      cases j with
      | zero =>
        cases hw
        exact .inl ⟨q, rfl, (mem_scripts v q).mpr hs⟩
      | succ j => exact .inr ⟨j, q, w, by rw [Nat.add_right_comm, Nat.add_assoc], hw, hs⟩

theorem mem_entryScripts (es : List (Value × Value)) (i : Nat) (p : List Nat) :
    (p, s) ∈ entryScripts i es ↔
      (∃ j key value, p = [i + j] ∧ es[j]? = some (key, value) ∧ script? key value = some s) ∨
        ∃ j q e, p = (i + j) :: q ∧ es[j]? = some e ∧ IsScript e.2 q s := by
  cases es with
  | nil => simp [entryScripts]
  | cons e rest =>
    obtain ⟨k, v⟩ := e
    rw [entryScripts_cons, List.mem_append, mem_memberScripts (mem_scripts v), mem_entryScripts rest]
    constructor
    · rintro ((⟨rfl, hs⟩ | ⟨q, rfl, hs⟩) | ⟨j, key, value, rfl, he, hs⟩ | ⟨j, q, e, rfl, he, hs⟩)
      · exact .inl ⟨0, k, v, rfl, rfl, hs⟩
      · exact .inr ⟨0, q, (k, v), rfl, rfl, hs⟩
      · exact .inl ⟨j + 1, key, value, by rw [Nat.add_right_comm, Nat.add_assoc], he, hs⟩
      · exact .inr ⟨j + 1, q, e, by rw [Nat.add_right_comm, Nat.add_assoc], he, hs⟩
    · rintro (⟨j, key, value, rfl, he, hs⟩ | ⟨j, q, e, rfl, he, hs⟩)
      · cases j with
        | zero =>
          cases he
          exact .inl (.inl ⟨rfl, hs⟩)
        | succ j => exact .inr (.inl ⟨j, key, value, by rw [Nat.add_right_comm, Nat.add_assoc], he, hs⟩)
      · cases j with
        | zero =>
          cases he
          exact .inl (.inr ⟨q, rfl, hs⟩)
        | succ j => exact .inr (.inr ⟨j, q, e, by rw [Nat.add_right_comm, Nat.add_assoc], he, hs⟩)

end

/-! ## Document order -/

def Precedes (a b : List Nat × String) : Prop := a.1 < b.1

theorem pairwise_below (i : Nat) {es : List (List Nat × String)} (h : es.Pairwise Precedes) :
    (es.map (below i)).Pairwise Precedes := by
  rw [List.pairwise_map]
  exact h.imp fun hlt => List.cons_lt_cons_iff.mpr (.inr ⟨rfl, hlt⟩)

theorem pairwise_append_below {i : Nat} {es fs : List (List Nat × String)} (he : es.Pairwise Precedes)
    (hf : fs.Pairwise Precedes) (hhead : ∀ e ∈ es, ∃ q, e.1 = i :: q)
    (htail : ∀ f ∈ fs, ∃ j q, f.1 = (i + 1 + j) :: q) : (es ++ fs).Pairwise Precedes := by
  refine List.pairwise_append.mpr ⟨he, hf, fun e hmem f hmem' => ?_⟩
  obtain ⟨q, hq⟩ := hhead e hmem
  obtain ⟨j, q', hq'⟩ := htail f hmem'
  rw [Precedes, hq, hq']
  exact List.cons_lt_cons_iff.mpr (.inl (by omega))

theorem pairwise_memberScripts (i : Nat) (key value : Value) (h : (scripts value).Pairwise Precedes) :
    (memberScripts i key value).Pairwise Precedes := by
  unfold memberScripts
  split
  · exact List.pairwise_singleton _ _
  · exact pairwise_below i h

mutual

theorem pairwise_scripts (v : Value) : (scripts v).Pairwise Precedes := by
  cases v with
  | sequence items => exact (pairwise_itemScripts items 0 : (itemScripts 0 items).Pairwise Precedes)
  | mapping entries => exact (pairwise_entryScripts entries 0 : (entryScripts 0 entries).Pairwise Precedes)
  | tagged t v =>
    rw [scripts]
    exact pairwise_below 0 (pairwise_scripts v)
  | _ => exact List.Pairwise.nil

theorem pairwise_itemScripts (vs : List Value) (i : Nat) : (itemScripts i vs).Pairwise Precedes := by
  cases vs with
  | nil => exact List.Pairwise.nil
  | cons v rest =>
    rw [itemScripts]
    have hfirst := pairwise_below i (pairwise_scripts v)
    refine pairwise_append_below (i := i) hfirst (pairwise_itemScripts rest (i + 1)) ?_ ?_
    · rintro ⟨p, s⟩ hmem
      obtain ⟨q, hq, -⟩ := mem_below.mp hmem
      exact ⟨q, hq⟩
    · rintro ⟨p, s⟩ hmem
      obtain ⟨j, q, -, hq, -⟩ := (mem_itemScripts rest (i + 1) p).mp hmem
      exact ⟨j, q, hq⟩

theorem pairwise_entryScripts (es : List (Value × Value)) (i : Nat) : (entryScripts i es).Pairwise Precedes := by
  cases es with
  | nil => exact List.Pairwise.nil
  | cons e rest =>
    obtain ⟨k, v⟩ := e
    rw [entryScripts_cons]
    refine pairwise_append_below (i := i) (pairwise_memberScripts i k v (pairwise_scripts v))
      (pairwise_entryScripts rest (i + 1)) ?_ ?_
    · rintro ⟨p, s⟩ hmem
      obtain ⟨rfl, -⟩ | ⟨q, hq, -⟩ := (mem_memberScripts (mem_scripts v)).mp hmem
      · exact ⟨[], rfl⟩
      · exact ⟨q, hq⟩
    · rintro ⟨p, s⟩ hmem
      obtain ⟨j, -, -, hq, -⟩ | ⟨j, q, -, hq, -⟩ := (mem_entryScripts rest (i + 1) p).mp hmem
      · exact ⟨j, [], hq⟩
      · exact ⟨j, q, hq⟩

end

end List

/-! ## What becomes of the scripts -/

section Marking

variable (number : Nat)

theorem map_snd_below (i : Nat) (es : List (List Nat × String)) :
    (es.map (below i)).map Prod.snd = es.map Prod.snd := by
  simp [below, Function.comp_def]

theorem snd_markMember {i j : Nat} {key value : Value}
    (h : (markFrom number i value).2 = (scripts value).map Prod.snd) :
    (markMember number i key value).2 = (memberScripts j key value).map Prod.snd := by
  unfold markMember memberScripts
  cases script? key value with
  | some s => rfl
  | none => rw [map_snd_below, h]

mutual

theorem snd_markFrom (i : Nat) (v : Value) : (markFrom number i v).2 = (scripts v).map Prod.snd := by
  cases v with
  | sequence items =>
    rw [markFrom_sequence, scripts]
    exact snd_markItems i 0 items
  | mapping entries =>
    rw [markFrom_mapping, scripts]
    exact snd_markEntries i 0 entries
  | tagged t v =>
    rw [markFrom_tagged, scripts, map_snd_below]
    exact snd_markFrom i v
  | _ => rw [markFrom, scripts, List.map_nil] <;> simp

theorem snd_markItems (i j : Nat) (vs : List Value) :
    (markItems number i vs).2 = (itemScripts j vs).map Prod.snd := by
  cases vs with
  | nil => rfl
  | cons v rest => rw [markItems_cons, itemScripts, List.map_append, map_snd_below, ← snd_markFrom i v, snd_markItems]

theorem snd_markEntries (i j : Nat) (es : List (Value × Value)) :
    (markEntries number i es).2 = (entryScripts j es).map Prod.snd := by
  cases es with
  | nil => rfl
  | cons e rest =>
    obtain ⟨k, v⟩ := e
    rw [markEntries_cons, entryScripts_cons, List.map_append, ← snd_markMember number (snd_markFrom i v),
      snd_markEntries]

end

/-- Parts of a list: a script of the list is one of the first part, or one of the others further on. -/
theorem getElem?_append_cases {α : Type} {as bs : List α} {n : Nat} {a : α} (h : (as ++ bs)[n]? = some a) :
    as[n]? = some a ∨ ∃ m, n = as.length + m ∧ bs[m]? = some a := by
  rcases Nat.lt_or_ge n as.length with hn | hn
  · exact .inl (by rwa [List.getElem?_append_left hn] at h)
  · exact .inr ⟨n - as.length, by omega, by rwa [List.getElem?_append_right hn] at h⟩

theorem getElem?_below {i n : Nat} {es : List (List Nat × String)} {p : List Nat} {s : String}
    (h : (es.map (below i))[n]? = some (p, s)) : ∃ q, p = i :: q ∧ es[n]? = some (q, s) := by
  rw [List.getElem?_map, Option.map_eq_some_iff] at h
  obtain ⟨⟨q, t⟩, hn, heq⟩ := h
  cases heq
  exact ⟨q, rfl, hn⟩

theorem reference_at_member {i j n : Nat} {key value : Value} {p : List Nat} {s : String}
    (h : ∀ q, (scripts value)[n]? = some (q, s) →
      (markFrom number i value).1.part? q = some (.string (reference number (i + n))))
    (hn : (memberScripts j key value)[n]? = some (p, s)) :
    ∃ q, p = j :: q ∧ (markMember number i key value).1.part? q = some (.string (reference number (i + n))) := by
  unfold memberScripts at hn
  unfold markMember
  cases hs : script? key value with
  | none =>
    rw [hs] at hn
    obtain ⟨q, rfl, hq⟩ := getElem?_below hn
    exact ⟨q, rfl, h q hq⟩
  | some t =>
    rw [hs] at hn
    cases n with
    | zero =>
      cases hn
      exact ⟨[], rfl, part?_nil _⟩
    | succ n => simp at hn

mutual

theorem reference_at (i n : Nat) (v : Value) (p : List Nat) {s : String} (h : (scripts v)[n]? = some (p, s)) :
    (markFrom number i v).1.part? p = some (.string (reference number (i + n))) := by
  cases v with
  | sequence items =>
    rw [scripts] at h
    obtain ⟨j, q, rfl, hq⟩ := reference_at_item i 0 n items p h
    rw [Nat.zero_add, markFrom_sequence, part?_sequence, hq]
  | mapping entries =>
    rw [scripts] at h
    obtain ⟨j, q, rfl, hq⟩ := reference_at_entry i 0 n entries p h
    rw [Nat.zero_add, markFrom_mapping, part?_mapping, hq]
  | tagged t v =>
    rw [scripts] at h
    obtain ⟨q, rfl, hn⟩ := getElem?_below h
    rw [markFrom_tagged, part?_tagged_zero]
    exact reference_at i n v q hn
  | _ => simp [scripts] at h

theorem reference_at_item (i j n : Nat) (vs : List Value) (p : List Nat) {s : String}
    (h : (itemScripts j vs)[n]? = some (p, s)) :
    ∃ l q, p = (j + l) :: q ∧
      (markItems number i vs).1[l]?.bind (part? q) = some (.string (reference number (i + n))) := by
  cases vs with
  | nil => simp [itemScripts] at h
  | cons v rest =>
    rw [itemScripts] at h
    rw [markItems_cons]
    obtain hfirst | ⟨m, rfl, hrest⟩ := getElem?_append_cases h
    · obtain ⟨q, rfl, hn⟩ := getElem?_below hfirst
      exact ⟨0, q, rfl, reference_at i n v q hn⟩
    · obtain ⟨l, q, rfl, hq⟩ := reference_at_item (i + (markFrom number i v).2.length) (j + 1) m rest p hrest
      refine ⟨l + 1, q, by rw [Nat.add_right_comm, Nat.add_assoc], ?_⟩
      rw [List.getElem?_cons_succ, hq, snd_markFrom, List.length_map, List.length_map, Nat.add_assoc]

theorem reference_at_entry (i j n : Nat) (es : List (Value × Value)) (p : List Nat) {s : String}
    (h : (entryScripts j es)[n]? = some (p, s)) :
    ∃ l q, p = (j + l) :: q ∧
      ((markEntries number i es).1[l]?.bind fun e => e.2.part? q) = some (.string (reference number (i + n))) := by
  cases es with
  | nil => simp [entryScripts] at h
  | cons e rest =>
    obtain ⟨k, v⟩ := e
    rw [entryScripts_cons] at h
    rw [markEntries_cons]
    obtain hfirst | ⟨m, rfl, hrest⟩ := getElem?_append_cases h
    · obtain ⟨q, rfl, hq⟩ := reference_at_member number (fun q => reference_at i n v q) hfirst
      exact ⟨0, q, rfl, hq⟩
    · obtain ⟨l, q, rfl, hq⟩ := reference_at_entry (i + (markMember number i k v).2.length) (j + 1) m rest p hrest
      refine ⟨l + 1, q, by rw [Nat.add_right_comm, Nat.add_assoc], ?_⟩
      rw [List.getElem?_cons_succ, hq, snd_markMember number (snd_markFrom number i v), List.length_map, Nat.add_assoc]

end

/-! ## What stays -/

theorem getElem?_markItems (i j : Nat) (vs : List Value) :
    ∃ k, (markItems number i vs).1[j]? = vs[j]?.map fun v => (markFrom number k v).1 := by
  induction vs generalizing i j with
  | nil => exact ⟨i, by simp [markItems]⟩
  | cons v rest ih =>
    rw [markItems_cons]
    cases j with
    | zero => exact ⟨i, rfl⟩
    | succ j => exact ih _ j

theorem getElem?_markEntries (i j : Nat) (es : List (Value × Value)) :
    ∃ k, (markEntries number i es).1[j]? = es[j]?.map fun e => (e.1, (markMember number k e.1 e.2).1) := by
  induction es generalizing i j with
  | nil => exact ⟨i, by simp [markEntries]⟩
  | cons e rest ih =>
    obtain ⟨k, v⟩ := e
    rw [markEntries_cons]
    cases j with
    | zero => exact ⟨i, rfl⟩
    | succ j => exact ih _ j

theorem outline_markFrom (i : Nat) (v : Value) : (markFrom number i v).1.outline = v.outline := by
  cases v with
  | sequence items =>
    rw [markFrom_sequence, outline, outline, sequence.injEq]
    refine List.ext_getElem? fun j => ?_
    obtain ⟨k, hk⟩ := getElem?_markItems number i j items
    rw [List.getElem?_map, List.getElem?_map, hk, Option.map_map]
    rfl
  | mapping entries =>
    rw [markFrom_mapping, outline, outline, mapping.injEq]
    refine List.ext_getElem? fun j => ?_
    obtain ⟨k, hk⟩ := getElem?_markEntries number i j entries
    rw [List.getElem?_map, List.getElem?_map, hk, Option.map_map]
    rfl
  | tagged t v => rw [markFrom_tagged, outline, outline]
  | _ => rw [markFrom] <;> simp

theorem outline_at (i : Nat) (v : Value) (p : List Nat) (h : ∀ s, ¬ IsScript v p s) :
    ((markFrom number i v).1.part? p).map outline = (v.part? p).map outline := by
  induction p generalizing i v with
  | nil => simp [outline_markFrom]
  | cons j q ih =>
    cases v with
    | sequence items =>
      obtain ⟨k, hk⟩ := getElem?_markItems number i j items
      rw [markFrom_sequence, part?_sequence, part?_sequence, hk]
      cases hv : items[j]? with
      | none => rfl
      | some v => exact ih k v fun s hs => h s (isScript_sequence.mpr ⟨j, q, v, rfl, hv, hs⟩)
    | mapping entries =>
      obtain ⟨k, hk⟩ := getElem?_markEntries number i j entries
      rw [markFrom_mapping, part?_mapping, part?_mapping, hk]
      cases he : entries[j]? with
      | none => rfl
      | some e =>
        obtain ⟨key, value⟩ := e
        change ((markMember number k key value).1.part? q).map outline = (value.part? q).map outline
        unfold markMember
        cases hs : script? key value with
        | none => exact ih k value fun s hs => h s (isScript_mapping.mpr (.inr ⟨j, q, (key, value), rfl, he, hs⟩))
        | some s =>
          obtain ⟨rfl, -⟩ := script_eq_some.mp hs
          cases q with
          | nil => exact absurd (isScript_mapping.mpr (.inl ⟨j, key, .string s, rfl, he, hs⟩)) (h s)
          | cons l q => rw [part?_string_cons, part?_string_cons]
    | tagged t v =>
      rw [markFrom_tagged]
      cases j with
      | zero =>
        rw [part?_tagged_zero, part?_tagged_zero]
        exact ih i v fun s hs => h s (isScript_tagged.mpr ⟨q, rfl, hs⟩)
      | succ j => rw [part?_tagged_succ, part?_tagged_succ]
    | _ => rw [markFrom] <;> simp

end Marking

/-! ## Back to the value -/

namespace Blocks

variable (b : Blocks)

/-- A text that is a reference to one of the scripts becomes the script. -/
def fillText (s : String) : String :=
  match readReference? s.toList with
  | some (number, index, []) => (b.find? number index).getD s
  | _ => s

/-- The value with scripts in place of all texts that refer to them. -/
def fill (v : Value) : Value := v.mapTexts b.fillText

theorem fillText_reference {i : Nat} {s : String} (h : b.scripts[i]? = some s) :
    b.fillText (reference b.number i) = s := by
  have hread : readReference? (reference b.number i).toList =
      some (Nat.toDigits 10 b.number, Nat.toDigits 10 i, []) := by
    rw [readReference_iff, reference_eq, List.append_nil]
    exact ⟨rfl, areDigits_toDigits _, areDigits_toDigits _, rfl⟩
  rw [fillText, hread]
  simp only [find_reference, h, Option.getD_some]

theorem fillText_self {s : String} (h : contains s (marker b.number) = false) : b.fillText s = s := by
  unfold fillText
  split
  · rename_i number index hread
    cases hfind : b.find? number index with
    | none => rfl
    | some t =>
      obtain ⟨heq, hn, hi, -⟩ := readReference_iff.mp hread
      have hrefers : b.Refers s.toList := ⟨[], number, index, [], heq, hn, hi, by rw [hfind]; rfl⟩
      rw [contains, (occursIn_iff _ _).mpr (b.marker_of_refers hrefers)] at h
      cases h
  · rfl

theorem fill_eq_self {v : Value} (h : ∀ s ∈ texts v, contains s (marker b.number) = false) : b.fill v = v :=
  (mapTexts_eq_self b.fillText v).mpr fun s hs => b.fillText_self (h s hs)

variable {b}

theorem fill_markMember {i : Nat} {key value : Value} (h : HoldsFrom b i (markMember b.number i key value).2)
    (hv : HoldsFrom b i (markFrom b.number i value).2 → b.fill (markFrom b.number i value).1 = value) :
    b.fill (markMember b.number i key value).1 = value := by
  unfold markMember at h ⊢
  cases hs : script? key value with
  | none =>
    rw [hs] at h
    exact hv h
  | some s =>
    rw [hs] at h
    rw [eq_string_of_script hs, fill, mapTexts, b.fillText_reference h.get]

mutual

/-- A value whose texts do not hold the marker comes back when the scripts are filled in. -/
theorem fill_markFrom (i : Nat) (v : Value) (hf : ∀ s ∈ texts v, contains s (marker b.number) = false)
    (h : HoldsFrom b i (markFrom b.number i v).2) : b.fill (markFrom b.number i v).1 = v := by
  cases v with
  | sequence items =>
    rw [markFrom_sequence] at h ⊢
    exact congrArg Value.sequence (fill_markItems i items hf h)
  | mapping entries =>
    rw [markFrom_mapping] at h ⊢
    exact congrArg Value.mapping (fill_markEntries i entries hf h)
  | tagged t v =>
    rw [markFrom_tagged] at h ⊢
    exact congrArg (Value.tagged t) (fill_markFrom i v hf h)
  | _ =>
    rw [markFrom]
    · exact b.fill_eq_self hf
    all_goals simp

theorem fill_markItems (i : Nat) (vs : List Value) (hf : ∀ s ∈ itemTexts vs, contains s (marker b.number) = false)
    (h : HoldsFrom b i (markItems b.number i vs).2) :
    mapItemTexts b.fillText (markItems b.number i vs).1 = vs := by
  cases vs with
  | nil => rw [markItems, mapItemTexts]
  | cons v rest =>
    rw [markItems_cons] at h ⊢
    simp only [itemTexts, List.forall_mem_append] at hf
    obtain ⟨hfirst, hothers⟩ := h.split
    rw [mapItemTexts, fill_markItems _ rest hf.2 hothers]
    exact congrArg (· :: rest) (fill_markFrom i v hf.1 hfirst)

theorem fill_markEntries (i : Nat) (es : List (Value × Value))
    (hf : ∀ s ∈ entryTexts es, contains s (marker b.number) = false)
    (h : HoldsFrom b i (markEntries b.number i es).2) :
    mapEntryTexts b.fillText (markEntries b.number i es).1 = es := by
  cases es with
  | nil => rw [markEntries, mapEntryTexts]
  | cons e rest =>
    obtain ⟨k, v⟩ := e
    rw [markEntries_cons] at h ⊢
    simp only [entryTexts, List.forall_mem_append] at hf
    obtain ⟨hfirst, hothers⟩ := h.split
    have hkey : k.mapTexts b.fillText = k := b.fill_eq_self hf.1.1
    have hvalue : (markMember b.number i k v).1.mapTexts b.fillText = v :=
      fill_markMember hfirst fun h => fill_markFrom i v hf.1.2 h
    rw [mapEntryTexts, hkey, hvalue, fill_markEntries _ rest hf.2 hothers]

end

end Blocks

theorem fresh_mark (v : Value) : ∀ s ∈ texts v, contains s (marker (mark v).2.number) = false := by
  have hfresh : isFresh (texts v) (mark v).2.number = true := isFresh_freshNumber (texts v)
  simpa [isFresh] using hfresh

/-- Marking takes out exactly the scripts of a value, in document order, and leaves at the place of each the
reference with its number; everything else stays, and the value comes back when every text that is a reference
is filled in again. -/
theorem mark_scripts (v : Value) :
    ∃ found : List (List Nat × String),
      found.Pairwise (fun a b => a.1 < b.1) ∧ (∀ p s, (p, s) ∈ found ↔ IsScript v p s) ∧
      (mark v).2.scripts = found.map Prod.snd ∧
      (∀ i p s, found[i]? = some (p, s) →
        (mark v).1.part? p = some (.string (reference (mark v).2.number i))) ∧
      (∀ p, (∀ s, ¬ IsScript v p s) → ((mark v).1.part? p).map outline = (v.part? p).map outline) ∧
      (mark v).2.fill (mark v).1 = v := by
  refine ⟨scripts v, pairwise_scripts v, fun p s => mem_scripts v p, snd_markFrom _ 0 v, fun i p s h => ?_,
    fun p h => outline_at _ 0 v p h, ?_⟩
  · have hreference := reference_at (mark v).2.number 0 i v p h
    rwa [Nat.zero_add] at hreference
  · exact Blocks.fill_markFrom 0 v (fresh_mark v) (List.prefix_refl _)

end Render

end CiWorkflow
