import CiWorkflow.Proofs.Yaml.AtPlace

/-!
# The text of a node part by part

A value that holds no other values is written on what is left of its line or as a block. A collection is written as
what stands in front of its first entry, and its entries, each behind the spaces of the column. Whatever the value
holds, only printable characters are written of it, and a document may hold all of them.
-/
set_option autoImplicit false

namespace CiWorkflow.Yaml

theorem placeBlock_spaces (p : Place) (tag : Option String) (n : Nat) (X : List Char) :
    placeBlock p tag n (spaces n ++ X) = p.opening tag ++ (spaces (p.lead tag n) ++ X) := by
  have hdrop : (spaces n ++ X).drop n = X := by simp [spaces]
  cases tag with
  | some t => simp [placeBlock, Place.opening, Place.lead, Place.startsLine]
  | none =>
    cases hcontinues : p.continuesLine with
    | true =>
      rw [placeBlock, if_pos hcontinues, hdrop, p.gap_eq_spaces]
      simp [Place.opening, Place.lead, Place.startsLine, hcontinues, spaces]
    | false => simp [placeBlock, Place.opening, Place.lead, Place.startsLine, hcontinues]

def entryText (n : Nat) : Value × Value → List Char
  | (key, v) =>
    match simpleKey? key with
    | some text => text ++ ':' :: nodeText (.value n) none v
    | none => '?' :: (nodeText (.slot n) none key ++ (spaces n ++ ':' :: nodeText (.slot n) none v))

theorem itemsText_cons (n : Nat) (v : Value) (vs : List Value) :
    itemsText n (v :: vs) = spaces n ++ '-' :: (nodeText (.item n) none v ++ itemsText n vs) := by
  simp [itemsText]

theorem entriesText_cons (n : Nat) (e : Value × Value) (es : List (Value × Value)) :
    entriesText n (e :: es) = spaces n ++ (entryText n e ++ entriesText n es) := by
  obtain ⟨key, v⟩ := e
  rw [entriesText, entryText]
  cases simpleKey? key <;> simp

variable (p : Place) (tag : Option String)

theorem nodeText_leaf {p : Place} {v : Value} {A : List Char} (h : atomText? p.scalarWidth v = some A)
    (tag : Option String) : nodeText p tag v = closeLine (p.gap ++ (tagLead tag ++ A)) := by
  cases v with
  | sequence items =>
    cases items with
    | nil => cases tag <;> simp [nodeText, tagLead, h]
    | cons v vs => cases h
  | mapping entries =>
    cases entries with
    | nil => cases tag <;> simp [nodeText, tagLead, h]
    | cons e es => cases h
  | tagged t v => cases h
  | _ => cases tag <;> simp [nodeText, tagLead, h]

theorem nodeText_sequence (v : Value) (vs : List Value) : nodeText p tag (.sequence (v :: vs)) =
    p.opening tag ++ (spaces (p.lead tag (p.sequenceColumn tag.isSome)) ++
      '-' :: (nodeText (.item (p.sequenceColumn tag.isSome)) none v ++
        itemsText (p.sequenceColumn tag.isSome) vs)) := by
  rw [nodeText, itemsText_cons, placeBlock_spaces]

theorem nodeText_mapping (e : Value × Value) (es : List (Value × Value)) : nodeText p tag (.mapping (e :: es)) =
    p.opening tag ++ (spaces (p.lead tag p.mappingColumn) ++
      (entryText p.mappingColumn e ++ entriesText p.mappingColumn es)) := by
  rw [nodeText, entriesText_cons, placeBlock_spaces]

/-! ## Printable characters -/

section Printable

open Decimal

theorem isAllowed_of_isPrintable {c : Char} (h : isPrintable c = true) : isAllowed c = true := by
  simp only [isPrintable, isAllowed, Bool.or_eq_true, Bool.and_eq_true, decide_eq_true_eq] at h ⊢
  omega

def IsPrintable (cs : List Char) : Prop := ∀ c ∈ cs, isPrintable c = true

theorem IsPrintable.append {A B : List Char} (hA : IsPrintable A) (hB : IsPrintable B) : IsPrintable (A ++ B) :=
  List.forall_mem_append.mpr ⟨hA, hB⟩

theorem IsPrintable.cons {c : Char} {cs : List Char} (hc : isPrintable c = true) (h : IsPrintable cs) :
    IsPrintable (c :: cs) :=
  List.forall_mem_cons.mpr ⟨hc, h⟩

theorem isPrintable_nil : IsPrintable [] := by
  simp [IsPrintable]

theorem isPrintable_spaces (n : Nat) : IsPrintable (spaces n) := fun c hc => by
  rw [List.eq_of_mem_replicate hc]
  rfl

/-! ### Characters -/

theorem isPrintable_of_isAlphanum {c : Char} (h : c.isAlphanum = true) : isPrintable c = true := by
  have hrange : 48 ≤ c.toNat ∧ c.toNat ≤ 122 := by
    change ((decide (65 ≤ c.val ∧ c.val ≤ 90) || (decide (97 ≤ c.val) && decide (c.val ≤ 122))) ||
      (decide (48 ≤ c.val) && decide (c.val ≤ 57))) = true at h
    have hparts : ((65 ≤ c.toNat ∧ c.toNat ≤ 90) ∨ (97 ≤ c.toNat ∧ c.toNat ≤ 122)) ∨ 48 ≤ c.toNat ∧ c.toNat ≤ 57 := by
      simpa [UInt32.le_iff_toNat_le] using h
    omega
  simp only [isPrintable, Bool.or_eq_true, Bool.and_eq_true, decide_eq_true_eq]
  omega

theorem isPrintable_of_isWordChar {c : Char} (h : isWordChar c = true) : isPrintable c = true := by
  simp only [isWordChar, Bool.or_eq_true, decide_eq_true_eq] at h
  obtain (h | rfl) | rfl := h
  · exact isPrintable_of_isAlphanum h
  · rfl
  · rfl

theorem isPrintable_of_isTagChar {c : Char} (h : isTagChar c = true) : isPrintable c = true := by
  simp only [isTagChar, Bool.or_eq_true, List.contains_eq_mem, decide_eq_true_eq] at h
  obtain h | h := h
  · exact isPrintable_of_isAlphanum h
  · have hall : ∀ d ∈ "-_;/?:@&=+$,.~*'()[]".toList, isPrintable d = true := Text.forall_mem_of_all (by decide)
    exact hall c h

theorem isPrintable_hexDigits (places n : Nat) : IsPrintable (hexDigits places n) := fun _ hc =>
  isPrintable_of_isWordChar (isWordChar_of_mem_hexDigits hc)

/-! ### Tags and scalars -/

theorem isPrintable_escapeTag (cs : List Char) : IsPrintable (escapeTag cs) := fun c hc => by
  obtain ⟨-, hc⟩ | rfl | hc := mem_escapeTag hc
  · exact isPrintable_of_isTagChar hc
  · rfl
  · exact isPrintable_of_isWordChar hc

theorem isPrintable_tagText (tag : String) : IsPrintable (tagText tag) := by
  unfold tagText
  split
  · exact .cons rfl (.cons rfl ((isPrintable_escapeTag _).append (.cons rfl isPrintable_nil)))
  · exact .cons rfl (isPrintable_escapeTag _)

theorem isPrintable_tagLead (tag : Option String) : IsPrintable (tagLead tag) := by
  cases tag with
  | none => exact isPrintable_nil
  | some t => exact (isPrintable_tagText t).append (.cons rfl isPrintable_nil)

theorem isPrintable_escape (c : Char) : IsPrintable (escape c) := by
  have hname {name : Char} (h : escapeName? c = some name) : isPrintable name = true := by
    unfold escapeName? at h
    split at h <;> cases h <;> rfl
  unfold escape
  split
  · rename_i hplain
    simp only [needsEscape, Bool.not_eq_true', Bool.or_eq_false_iff, Bool.not_eq_false'] at hplain
    exact .cons hplain.1.1.1 isPrintable_nil
  · split
    · exact .cons rfl (.cons (hname ‹_›) isPrintable_nil)
    · dsimp only
      split
      · exact .cons rfl (.cons rfl (isPrintable_hexDigits _ _))
      · split
        · exact .cons rfl (.cons rfl (isPrintable_hexDigits _ _))
        · exact .cons rfl (.cons rfl (isPrintable_hexDigits _ _))

theorem isPrintable_indentLines {cs : List Char} (h : IsPrintable cs) (w : Nat) (fresh : Bool) :
    IsPrintable (indentLines w fresh cs) := fun c hc => by
  obtain rfl | hc := mem_indentLines hc
  · rfl
  · exact h c hc

theorem isPrintable_of_not_needsEscapes {cs : List Char} (h : needsEscapes cs = false) : IsPrintable cs := by
  rw [needsEscapes, Bool.or_eq_false_iff, List.any_eq_false] at h
  exact fun c hc => by simpa using h.1 c hc

theorem isPrintable_indentHint (cs : List Char) : IsPrintable (indentHint cs) := by
  obtain h | h := indentHint_cases cs <;> rw [h]
  · exact isPrintable_nil
  · exact .cons rfl isPrintable_nil

theorem isPrintable_chomping (cs : List Char) : IsPrintable (chomping cs) := by
  unfold chomping
  split
  · exact .cons rfl isPrintable_nil
  · split
    · exact .cons rfl isPrintable_nil
    · split
      · exact .cons rfl isPrintable_nil
      · exact isPrintable_nil

theorem isPrintable_scalarText (w : Nat) (s : String) : IsPrintable (scalarText w s) := by
  have hspec := style_spec s
  unfold scalarText
  cases hstyle : style s with
  | plain =>
    rw [hstyle] at hspec
    exact (isPlain_of_allowsPlain hspec.1).printable
  | single =>
    rw [hstyle] at hspec
    obtain ⟨hallows, -⟩ := hspec
    rw [allowsSingle, Bool.and_eq_true, Bool.not_eq_true'] at hallows
    have hdoubled : IsPrintable (doubleApostrophes s.toList) := fun c hc =>
      isPrintable_of_not_needsEscapes hallows.1 c (Render.mem_doubleApostrophes hc)
    refine .append (.cons rfl (.append (isPrintable_indentLines hdoubled w false) ?_)) (.cons rfl isPrintable_nil)
    split
    · exact isPrintable_spaces w
    · exact isPrintable_nil
  | double =>
    refine .append (.cons rfl fun c hc => ?_) (.cons rfl isPrintable_nil)
    obtain ⟨d, -, hc⟩ := List.mem_flatMap.mp hc
    exact isPrintable_escape d c hc
  | literal =>
    rw [hstyle] at hspec
    simp only [allowsLiteral, Bool.and_eq_true, Bool.not_eq_true'] at hspec
    have hlines := isPrintable_indentLines (isPrintable_of_not_needsEscapes hspec.1.2) w true
    exact .append (.append (.cons rfl (isPrintable_indentHint _)) (isPrintable_chomping _)) (.cons rfl hlines)

theorem isPrintable_atom {w : Nat} {v : Value} {A : List Char} (h : atomText? w v = some A) : IsPrintable A := by
  unfold atomText? at h
  split at h <;> cases h
  · exact Text.forall_mem_of_all (by decide)
  · split <;> exact Text.forall_mem_of_all (by decide)
  · exact (isPlain_of_isNumberText (isNumberText_int _)).printable
  · exact (isPlain_float _).printable
  · exact isPrintable_scalarText w _
  · exact Text.forall_mem_of_all (by decide)
  · exact Text.forall_mem_of_all (by decide)

/-! ### Nodes -/

theorem isPrintable_gap (p : Place) : IsPrintable p.gap := p.gap_eq_spaces ▸ isPrintable_spaces _

theorem isPrintable_opening (p : Place) (tag : Option String) : IsPrintable (p.opening tag) := by
  cases tag with
  | none =>
    rw [Place.opening]
    split
    · exact isPrintable_nil
    · exact .cons rfl isPrintable_nil
  | some t => exact ((isPrintable_gap p).append (isPrintable_tagText t)).append (.cons rfl isPrintable_nil)

theorem isPrintable_leaf {p : Place} {v : Value} {A : List Char} (h : atomText? p.scalarWidth v = some A)
    (tag : Option String) : IsPrintable (nodeText p tag v) := by
  have hline := (isPrintable_gap p).append ((isPrintable_tagLead tag).append (isPrintable_atom h))
  rw [nodeText_leaf h, closeLine]
  split
  · exact hline
  · exact hline.append (.cons rfl isPrintable_nil)

theorem isPrintable_simpleKey {key : Value} {text : List Char} (h : simpleKey? key = some text) : IsPrintable text := by
  obtain ⟨A, hA, rfl, -⟩ := simpleKey_spec h
  exact (isPrintable_tagLead _).append (isPrintable_atom hA)

mutual

theorem isPrintable_nodeText (p : Place) (tag : Option String) (v : Value) : IsPrintable (nodeText p tag v) := by
  cases v with
  | tagged t v =>
    rw [nodeText]
    exact isPrintable_nodeText p (some t) v
  | sequence items =>
    cases items with
    | nil => exact isPrintable_leaf rfl tag
    | cons v vs =>
      rw [nodeText_sequence]
      exact (isPrintable_opening p tag).append ((isPrintable_spaces _).append
        (.cons rfl ((isPrintable_nodeText _ none v).append (isPrintable_itemsText _ vs))))
  | mapping entries =>
    cases entries with
    | nil => exact isPrintable_leaf rfl tag
    | cons e es =>
      rw [nodeText_mapping]
      exact (isPrintable_opening p tag).append ((isPrintable_spaces _).append
        ((isPrintable_entryText _ e).append (isPrintable_entriesText _ es)))
  | _ => exact isPrintable_leaf rfl tag

theorem isPrintable_itemsText (n : Nat) (vs : List Value) : IsPrintable (itemsText n vs) := by
  cases vs with
  | nil => exact isPrintable_nil
  | cons v vs =>
    rw [itemsText_cons]
    exact (isPrintable_spaces n).append
      (.cons rfl ((isPrintable_nodeText _ none v).append (isPrintable_itemsText n vs)))

theorem isPrintable_entryText (n : Nat) (e : Value × Value) : IsPrintable (entryText n e) := by
  obtain ⟨key, v⟩ := e
  rw [entryText]
  split
  · exact (isPrintable_simpleKey ‹_›).append (.cons rfl (isPrintable_nodeText _ none v))
  · exact .cons rfl ((isPrintable_nodeText _ none key).append ((isPrintable_spaces n).append
      (.cons rfl (isPrintable_nodeText _ none v))))

theorem isPrintable_entriesText (n : Nat) (es : List (Value × Value)) : IsPrintable (entriesText n es) := by
  cases es with
  | nil => exact isPrintable_nil
  | cons e es =>
    rw [entriesText_cons]
    exact (isPrintable_spaces n).append ((isPrintable_entryText n e).append (isPrintable_entriesText n es))

end

end Printable

end CiWorkflow.Yaml
