import CiWorkflow.Yaml.Reader

set_option autoImplicit false

namespace CiWorkflow.Yaml

open Decimal Text

def EndsInFeed (cs : List Char) : Prop := cs.getLast? = some '\n'

namespace EndsInFeed

variable {cs rest : List Char} {c : Char}

theorem of_append (cs : List Char) : EndsInFeed (cs ++ ['\n']) := by simp [EndsInFeed]

theorem mem (h : EndsInFeed cs) : '\n' ∈ cs := List.mem_of_getLast? h

theorem tail (h : EndsInFeed (c :: rest)) (hc : c ≠ '\n') : EndsInFeed rest := by
  cases rest with
  | nil => simp [EndsInFeed, hc] at h
  | cons d rest => simpa [EndsInFeed] using h

theorem ne_nil (h : EndsInFeed cs) : cs ≠ [] := by
  rintro rfl
  cases h

theorem spanDigits (h : EndsInFeed cs) : EndsInFeed (spanDigits cs).2 := by
  induction cs with
  | nil => exact h
  | cons c rest ih =>
    unfold Decimal.spanDigits at ih ⊢
    rw [List.dropWhile_cons]
    split
    · rename_i hc
      refine ih (h.tail ?_)
      rintro rfl
      cases hc
    · exact h

theorem takeSign (h : EndsInFeed cs) : EndsInFeed (takeSign cs).2 := by
  unfold Decimal.takeSign
  split
  · exact h.tail (by decide)
  · exact h.tail (by decide)
  · exact h

theorem ne_ofList (h : EndsInFeed cs) {word : String} (hw : word.toList.getLast? ≠ some '\n') :
    String.ofList cs ≠ word := by
  rintro rfl
  exact hw (by simpa [EndsInFeed] using h)

theorem readRadix (h : EndsInFeed cs) (radix : Nat) : readRadix? radix cs = none := by
  have hfold (ds : List Char) (hd : '\n' ∈ ds) (n : Nat) :
      ds.foldlM (fun n c => (digitValue? radix c).map (radix * n + ·)) n = none := by
    induction ds generalizing n with
    | nil => cases hd
    | cons d rest ih =>
      rw [List.foldlM_cons]
      obtain rfl | hrest := List.mem_cons.mp hd
      · rfl
      · cases digitValue? radix d with
        | none => rfl
        | some v => exact ih hrest _
  unfold readRadix?
  rw [hfold cs h.mem]
  split <;> rfl

theorem readPrefixed (h : EndsInFeed cs) : readPrefixed? cs = none := by
  unfold readPrefixed?
  split
  · exact ((h.tail (by decide)).tail (by decide)).readRadix 16
  · exact ((h.tail (by decide)).tail (by decide)).readRadix 8
  · exact ((h.tail (by decide)).tail (by decide)).readRadix 2
  · rfl

theorem readUnsigned (h : EndsInFeed cs) : readUnsigned? cs = none := by
  have hbody (body : List Char) (hb : EndsInFeed body) :
      (readPrefixed? body).or (if isZeroPadded cs then none else readRadix? 10 body) = none := by
    rw [hb.readPrefixed, hb.readRadix, ite_self]
    rfl
  unfold readUnsigned?
  split
  · exact hbody _ (h.tail (by decide))
  · exact hbody _ h

theorem readNegative (h : EndsInFeed cs) : readNegative? cs = none := by
  unfold readNegative?
  split
  · have hb := h.tail (by decide)
    rw [hb.readPrefixed, hb.readRadix, ite_self]
    rfl
  · rfl

theorem integerMeaning (h : EndsInFeed cs) : integerMeaning? cs = none := by
  rw [integerMeaning?, h.readUnsigned, h.readNegative]

theorem readExponent (h : EndsInFeed cs) : readExponent? cs = none := by
  unfold readExponent?
  split
  · exact absurd rfl h.ne_nil
  · rename_i c rest
    split
    · rename_i hc
      have hrest : EndsInFeed rest := h.tail (by rintro rfl; simp at hc)
      have hdigits : (Decimal.takeSign rest).2.all Char.isDigit = false :=
        List.all_eq_false.mpr ⟨'\n', hrest.takeSign.mem, by decide⟩
      simp [hdigits]
    · rfl

theorem readMantissa (h : EndsInFeed cs) {ds rest : List Char} {places : Nat}
    (hread : readMantissa? cs = some (ds, places, rest)) : EndsInFeed rest := by
  have hspan := h.spanDigits
  unfold readMantissa? at hread
  revert hread
  generalize Decimal.spanDigits cs = r at hspan
  obtain ⟨whole, after⟩ := r
  simp only
  split
  · have hfraction := (hspan.tail (by decide)).spanDigits
    split
    · simp
    · intro hread
      simp only [Option.some.injEq, Prod.mk.injEq] at hread
      exact hread.2.2 ▸ hfraction
  · split
    · simp
    · intro hread
      simp only [Option.some.injEq, Prod.mk.injEq] at hread
      exact hread.2.2 ▸ hspan

theorem readDecimal (h : EndsInFeed cs) : readDecimal? cs = none := by
  unfold readDecimal?
  cases hread : readMantissa? (Decimal.takeSign cs).2 with
  | none => simp [hread]
  | some r => simp [hread, (h.takeSign.readMantissa hread).readExponent]

theorem floatMeaning (h : EndsInFeed cs) : floatMeaning? cs = none := by
  have hinf {cs : List Char} (h : EndsInFeed cs) :
      String.ofList cs ≠ ".inf" ∧ String.ofList cs ≠ ".Inf" ∧ String.ofList cs ≠ ".INF" :=
    ⟨h.ne_ofList (by decide), h.ne_ofList (by decide), h.ne_ofList (by decide)⟩
  have hminus : String.ofList cs ≠ "-.inf" ∧ String.ofList cs ≠ "-.Inf" ∧ String.ofList cs ≠ "-.INF" :=
    ⟨h.ne_ofList (by decide), h.ne_ofList (by decide), h.ne_ofList (by decide)⟩
  have hnan : String.ofList cs ≠ ".nan" ∧ String.ofList cs ≠ ".NaN" ∧ String.ofList cs ≠ ".NAN" :=
    ⟨h.ne_ofList (by decide), h.ne_ofList (by decide), h.ne_ofList (by decide)⟩
  unfold floatMeaning?
  split
  · rfl
  · rfl
  · have hb := h.tail (by decide)
    simp [-String.ofList_cons, hinf hb, hminus, hnan, hb.readDecimal]
  · simp [hinf h, hminus, hnan, h.readDecimal]

theorem boolWord (h : EndsInFeed cs) : boolWord? (String.ofList cs) = none := by
  simp [boolWord?, h.ne_ofList]

theorem isNullWord (h : EndsInFeed cs) : isNullWord (String.ofList cs) = false := by
  have htilde : String.ofList cs ≠ "~" := h.ne_ofList (by decide)
  simp [Yaml.isNullWord, h.ne_ofList, htilde]

end EndsInFeed

/-- A scalar in quotes or a block that ends in a line feed has no value but its text, which may be cut. -/
theorem scalarValue_feed {tag : Option String} {form : ScalarForm} (hform : form ≠ .plain) {text : String} {v : Value}
    (h : scalarValue? tag form (text ++ "\n") = some v) :
    v = .string (text ++ "\n") ∧ scalarValue? tag form text = some (.string text) := by
  have hend : EndsInFeed (text ++ "\n").toList := by
    rw [String.toList_append]
    exact .of_append _
  have hlist : text ++ "\n" = String.ofList (text ++ "\n").toList := by rw [String.ofList_toList]
  have hbool : boolWord? (text ++ "\n") = none := by
    rw [hlist]
    exact hend.boolWord
  have hnull : isNullWord (text ++ "\n") = false := by
    rw [hlist]
    exact hend.isNullWord
  cases tag with
  | none =>
    simp only [scalarValue?, if_neg hform, Option.some.injEq] at h ⊢
    exact ⟨h.symm, trivial⟩
  | some tag =>
    simp only [scalarValue?, hbool, hnull, hend.integerMeaning, hend.floatMeaning] at h ⊢
    split at h
    · cases h
    split at h
    · cases h
    split at h
    · cases h
    split at h
    · cases h
    · rename_i hb hi hf hn
      have hmarked : (decide (form = .plain) && decide (tag.toList.head? = some '!')) = false := by simp [hform]
      simp only [if_neg hb, if_neg hi, if_neg hf, if_neg hn, hmarked, Bool.false_eq_true, ↓reduceIte,
        Option.some.injEq] at h ⊢
      exact ⟨h.symm, trivial⟩

end CiWorkflow.Yaml
