import CiWorkflow.Proofs.Text.Every
import CiWorkflow.Proofs.Yaml.Handles
import CiWorkflow.Proofs.Yaml.Shift
import CiWorkflow.Yaml.Reader
import Mathlib.Data.List.TakeWhile

set_option autoImplicit false

namespace CiWorkflow.Yaml

open Position

theorem byteArray_loop (bs : ByteArray) (i : Nat) (seen : List UInt8) :
    ByteArray.toList.loop bs i seen = seen.reverse ++ bs.data.toList.drop i := by
  induction i, seen using ByteArray.toList.loop.induct bs with
  | case1 i seen hlt ih =>
    have hi : i < bs.data.toList.length := by simpa using hlt
    have hget : bs.get! i = bs.data.toList[i] := by
      rw [ByteArray.get!, Array.getElem_toList]
      exact getElem!_pos bs.data i (by simpa using hlt)
    rw [ByteArray.toList.loop, if_pos hlt, ih, List.drop_eq_getElem_cons hi, hget]
    simp
  | case2 i seen hge =>
    have hlen : bs.data.toList.length ≤ i := by simpa using hge
    rw [ByteArray.toList.loop, if_neg hge, List.drop_eq_nil_of_le hlen, List.append_nil]

theorem toList_byteArray (bs : ByteArray) : bs.toList = bs.data.toList := byteArray_loop bs 0 []

theorem percentBytes_plain (cs : List Char) (h : '%' ∉ cs) :
    percentBytes? cs = some cs.utf8Encode.data.toList := by
  induction cs with
  | nil => simp [percentBytes?]
  | cons c rest ih =>
    have hc : c ≠ '%' := fun hc => h (by simp [hc])
    have hrest := ih fun hr => h (by simp [hr])
    rw [percentBytes?]
    · rw [hrest, List.utf8Encode_cons]
      simp [toList_byteArray]
    · rintro a b others rfl
      exact absurd rfl hc
    · exact hc

theorem characterWidth_ofNat {n : Nat} (h : n < 256) : characterWidth? (.ofNat n) =
    if n < 0x80 then some 1 else if n < 0xc0 then none else if n < 0xe0 then some 2 else if n < 0xf0 then some 3
    else if n < 0xf8 then some 4 else none := by
  simp [characterWidth?, UInt8.lt_iff_toNat_lt, Nat.mod_eq_of_lt h]

theorem areShaped_first {b : UInt8} {n : Nat} (h : characterWidth? b = some (n + 1)) (rest : List UInt8) :
    areShaped 0 (b :: rest) = areShaped n rest := by
  simp [areShaped, h]

theorem areShaped_trail (n left : Nat) (rest : List UInt8) :
    areShaped (left + 1) (.ofNat (n % 64 + 128) :: rest) = areShaped left rest := by
  have hbyte : (n % 64 + 128) % 256 = n % 64 + 128 := Nat.mod_eq_of_lt (by omega)
  have hhigh : n % 64 + 128 < 192 := by omega
  simp [areShaped, UInt8.lt_iff_toNat_lt, UInt8.le_iff_toNat_le, hbyte, hhigh]

theorem areShaped_utf8EncodeChar (c : Char) (rest : List UInt8) :
    areShaped 0 (String.utf8EncodeChar c ++ rest) = areShaped 0 rest := by
  unfold String.utf8EncodeChar
  generalize c.val.toNat = n
  dsimp only
  -- one case for each number of bytes
  split
  · have hwidth : characterWidth? (.ofNat n) = some 1 := by
      rw [characterWidth_ofNat (by omega), if_pos (by omega)]
    exact areShaped_first hwidth rest
  split
  · have hwidth : characterWidth? (.ofNat (n / 64 % 32 + 192)) = some 2 := by
      rw [characterWidth_ofNat (by omega), if_neg (by omega), if_neg (by omega), if_pos (by omega)]
    exact (areShaped_first hwidth _).trans (areShaped_trail _ 0 rest)
  split
  · have hwidth : characterWidth? (.ofNat (n / 4096 % 16 + 224)) = some 3 := by
      rw [characterWidth_ofNat (by omega), if_neg (by omega), if_neg (by omega), if_neg (by omega),
        if_pos (by omega)]
    exact (areShaped_first hwidth _).trans ((areShaped_trail _ 1 _).trans (areShaped_trail _ 0 rest))
  · have hwidth : characterWidth? (.ofNat (n / 262144 % 8 + 240)) = some 4 := by
      rw [characterWidth_ofNat (by omega), if_neg (by omega), if_neg (by omega), if_neg (by omega),
        if_neg (by omega), if_pos (by omega)]
    exact (areShaped_first hwidth _).trans
      ((areShaped_trail _ 2 _).trans ((areShaped_trail _ 1 _).trans (areShaped_trail _ 0 rest)))

theorem utf8Encode_eq_flatMap (cs : List Char) :
    cs.utf8Encode.data.toList = cs.flatMap String.utf8EncodeChar := by
  simp [List.utf8Encode]

theorem areShaped_utf8Encode (cs : List Char) : areShaped 0 cs.utf8Encode.data.toList = true := by
  rw [utf8Encode_eq_flatMap]
  induction cs with
  | nil => rfl
  | cons c cs ih => rw [List.flatMap_cons, areShaped_utf8EncodeChar, ih]

theorem ne_zero_of_mem_utf8EncodeChar {c : Char} (hc : c ≠ '\x00') {b : UInt8} (h : b ∈ String.utf8EncodeChar c) :
    b ≠ 0 := by
  have hpos : c.val.toNat ≠ 0 := fun hzero => hc (Char.ext (UInt32.toNat_inj.mp hzero))
  unfold String.utf8EncodeChar at h
  generalize c.val.toNat = n at *
  dsimp only at h
  rintro rfl
  repeat' split at h
  all_goals
    simp only [List.mem_cons, List.not_mem_nil, or_false, ← UInt8.toNat_inj, UInt8.toNat_ofNat',
      UInt8.toNat_zero] at h
    omega

theorem takeWhile_utf8Encode {cs : List Char} (h : '\x00' ∉ cs) :
    cs.utf8Encode.data.toList.takeWhile (· ≠ 0) = cs.utf8Encode.data.toList := by
  refine List.takeWhile_eq_self_iff.mpr fun b hb => ?_
  rw [utf8Encode_eq_flatMap] at hb
  obtain ⟨c, hc, hb⟩ := List.mem_flatMap.mp hb
  have hne : c ≠ '\x00' := fun hnul => h (hnul ▸ hc)
  exact decide_eq_true (ne_zero_of_mem_utf8EncodeChar hne hb)

theorem unescapeTag_of_bytes {cs text : List Char} (h : percentBytes? cs = some text.utf8Encode.data.toList)
    (hnul : '\x00' ∉ text) : unescapeTag? cs = some (String.ofList text) := by
  have harray : (⟨text.utf8Encode.data.toList.toArray⟩ : ByteArray) = text.utf8Encode := by simp
  have hdecoded : String.fromUTF8? text.utf8Encode = some (String.ofList text) :=
    dif_pos ByteArray.isValidUTF8_utf8Encode
  rw [unescapeTag?, h]
  simp only [Option.bind_eq_bind, Option.bind_some, areShaped_utf8Encode, takeWhile_utf8Encode hnul, harray, hdecoded]
  rfl

theorem spanChars_cells (q : Position) (p : Char → Bool) (word : List Char) (d : Char) (rest : List Char)
    (hword : ∀ c ∈ word, p c = true ∧ isBreak c = false) (hd : p (normalBreak d) = false) (hr : d ≠ '\r') :
    spanChars p (q.cells (word ++ d :: rest)) = (word, (q.after word).cells (d :: rest)) := by
  induction word generalizing q with
  | nil =>
    rw [List.nil_append, cells_cons q d rest hr]
    simp [spanChars, chars, cell, hd, cells_cons q d rest hr]
  | cons c word ih =>
    obtain ⟨hc, hb⟩ := hword c (by simp)
    have hcr : c ≠ '\r' := by
      rintro rfl
      cases hb
    have hspan := ih (q.next c) fun x hx => hword x (by simp [hx])
    simp only [spanChars, Prod.mk.injEq] at hspan
    have hchar : (q.cell c).char = c := cell_char q c hb
    rw [List.cons_append, cells_cons q c _ hcr]
    simp [spanChars, chars, hchar, hc, hspan.2, after_cons]
    simpa [chars] using hspan.1

def letterHandle (n : Nat) : List Char := '!' :: (List.replicate n 'x' ++ ['!'])

/-- A directive for the handle with `n` letters, up to the text that the handle stands for. -/
def handleDirective (n : Nat) : List Char := "%TAG ".toList ++ (letterHandle n ++ [' '])

theorem mem_handleDirective {n : Nat} {c : Char} (h : c ∈ handleDirective n) : c ∈ "%TAG !x".toList := by
  simp only [handleDirective, letterHandle, List.mem_append, List.mem_cons, List.mem_replicate,
    List.not_mem_nil, or_false] at h
  rcases h with h | (rfl | ⟨-, rfl⟩ | rfl) | rfl
  · exact (Text.forall_mem_of_all (by decide) : ∀ c ∈ "%TAG ".toList, c ∈ "%TAG !x".toList) c h
  all_goals decide

theorem isBreak_letterHandle (n : Nat) : ∀ c ∈ letterHandle n, isBreak c = false := by
  intro c hc
  simp only [letterHandle, List.mem_cons, List.mem_append, List.mem_replicate, List.not_mem_nil, or_false] at hc
  rcases hc with rfl | ⟨-, rfl⟩ | rfl <;> decide

theorem skipBlanks_blank (q : Position) (d : Char) (rest : List Char) (hd : isSpaceOrTab d = false)
    (hr : d ≠ '\r') : skipBlanks (q.cells (' ' :: d :: rest)) = (q.next ' ').cells (d :: rest) := by
  have hblank : (q.cell ' ').isBlank = true := isBlank_cell q ' '
  have hword : ((q.next ' ').cell d).isBlank = false := (isBlank_cell _ d).trans hd
  rw [cells_cons q ' ' _ (by decide), cells_cons _ d rest hr, skipBlanks, List.dropWhile_cons_of_pos hblank,
    List.dropWhile_cons_of_neg (by simp [hword])]

theorem readHandle_letters (q : Position) (n : Nat) (rest : List Char) :
    readHandle? (q.cells (letterHandle n ++ rest)) =
      some (letterHandle n, (q.after (letterHandle n)).cells rest) := by
  have hletters : ∀ c ∈ List.replicate n 'x', isWordChar c = true ∧ isBreak c = false := by
    intro c hc
    rw [List.eq_of_mem_replicate hc]
    decide
  have hspan := spanChars_cells (q.next '!') isWordChar (List.replicate n 'x') '!' rest hletters
    (by decide) (by decide)
  have hcells : q.cells (letterHandle n ++ rest) =
      q.cell '!' :: (q.next '!').cells (List.replicate n 'x' ++ '!' :: rest) := by
    rw [letterHandle, List.cons_append, List.append_assoc, List.singleton_append, cells_cons q '!' _ (by decide)]
  rw [hcells, readHandle?, hspan, cells_cons _ '!' _ (by decide)]
  simp [cell_char _ '!' rfl, letterHandle]

theorem readTagHandle_letters (q : Position) (n : Nat) (d : Char) (rest : List Char)
    (hd : isSpaceOrTab d = false) (hr : d ≠ '\r') :
    readTagHandle? (q.cells (' ' :: (letterHandle n ++ ' ' :: d :: rest))) =
      (readTagUri? true false ((q.after (' ' :: (letterHandle n ++ [' ']))).cells (d :: rest))).bind fun r =>
        if atWordEnd r.2 then some (.tagHandle (String.ofList (letterHandle n)) r.1, r.2) else none := by
  have hblanks : skipBlanks (q.cells (' ' :: (letterHandle n ++ ' ' :: d :: rest))) =
      (q.next ' ').cells (letterHandle n ++ ' ' :: d :: rest) := skipBlanks_blank q '!' _ (by decide) (by decide)
  have hlast : (letterHandle n).getLast? = some '!' := by
    rw [letterHandle, ← List.cons_append, List.getLast?_append]
    rfl
  have hnext : nextIs isSpaceOrTab (((q.next ' ').after (letterHandle n)).cells (' ' :: d :: rest)) = true := by
    rw [cells_cons _ ' ' _ (by decide)]
    rfl
  rw [readTagHandle?, hblanks, readHandle_letters]
  simp only [Option.bind_eq_bind, Option.bind_some, hlast, hnext, skipBlanks_blank _ d rest hd hr]
  simp

theorem readDirective_letters (q : Position) (n : Nat) (d : Char) (rest : List Char)
    (hd : isSpaceOrTab d = false) (hr : d ≠ '\r') :
    readDirective? (q.cells ("TAG ".toList ++ (letterHandle n ++ ' ' :: d :: rest))) =
      ((readTagUri? true false ((q.after ("TAG ".toList ++ (letterHandle n ++ [' ']))).cells (d :: rest))).bind fun r =>
        if atWordEnd r.2 then some (.tagHandle (String.ofList (letterHandle n)) r.1, r.2) else none).bind fun r =>
          (skipRestOfLine? r.2).bind fun rest => some (r.1, rest) := by
  have hname := spanChars_cells q isWordChar "TAG".toList ' ' (letterHandle n ++ ' ' :: d :: rest)
    (Text.forall_mem_of_all (by decide)) (by decide) (by decide)
  have hend : atWordEnd ((q.after "TAG".toList).cells (' ' :: (letterHandle n ++ ' ' :: d :: rest))) = true := by
    rw [cells_cons _ ' ' _ (by decide)]
    rfl
  have hcells : "TAG ".toList ++ (letterHandle n ++ ' ' :: d :: rest) =
      "TAG".toList ++ ' ' :: (letterHandle n ++ ' ' :: d :: rest) := rfl
  rw [hcells, readDirective?, hname]
  simp only [hend, readTagHandle_letters _ n d rest hd hr]
  simp [after_append, after_cons]

namespace Scanner

section Directives

variable {rest : List Char}

theorem ready_start_percent :
    (start (Position.start.cells ('%' :: rest))).ready = start (Position.start.cells ('%' :: rest)) := by
  rw [cells_cons _ '%' rest (by decide)]
  rfl

theorem directive_start : (start (Position.start.cells ('%' :: rest))).directive? =
    (readDirective? ((Position.start.next '%').cells rest)).map fun r => ⟨r.2, [], [], none, false, [r.1]⟩ := by
  rw [cells_cons _ '%' rest (by decide)]
  cases hread : readDirective? ((Position.start.next '%').cells rest) with
  | none => simp [directive?, leaveBlocks?, closeBlocks, dropKey?, start, currentKey, setKey, allowKey, inFlow, hread]
  | some r =>
    simp [directive?, leaveBlocks?, closeBlocks, dropKey?, start, currentKey, setKey, allowKey, inFlow, emit,
      remaining, hread]

theorem rest_ready_percent : (start (Position.start.cells ('%' :: rest))).ready.rest =
    Position.start.cell '%' :: (Position.start.next '%').cells rest := by
  rw [ready_start_percent]
  exact cells_cons Position.start '%' rest (by decide)

theorem token_percent :
    (((start (Position.start.cells ('%' :: rest))).ready.fresh (Position.start.cell '%')).closeBlocks
      (some (Position.start.cell '%').column)).token? (Position.start.cell '%')
        ((Position.start.next '%').cells rest) =
      (start (Position.start.cells ('%' :: rest))).directive? := by
  rw [ready_start_percent]
  rfl

theorem leads_of_directive {t : Token} {cs : List Cell}
    (h : readDirective? ((Position.start.next '%').cells rest) = some (t, cs))
    (hle : cs.length ≤ ((Position.start.next '%').cells rest).length) :
    Leads (start (Position.start.cells ('%' :: rest))) ⟨cs, [], [], none, false, [t]⟩ := by
  refine leads_of_token rest_ready_percent ?_ ?_ ?_
  · rintro k ⟨⟩
  · rw [token_percent, directive_start, h]
    rfl
  · simp only [start, cells_cons Position.start '%' rest (by decide), List.length_cons]
    omega

theorem fails_of_directive (h : readDirective? ((Position.start.next '%').cells rest) = none) :
    Fails (start (Position.start.cells ('%' :: rest))) := by
  refine fails_of_token rest_ready_percent ?_ ?_
  · rintro k ⟨⟩
  · rw [token_percent, directive_start, h]
    rfl

end Directives

theorem fails_handleDirective (n : Nat) (d : Char) (rest : List Char) (hd : isSpaceOrTab d = false)
    (hr : d ≠ '\r') (hu : isTagUriChar true (normalBreak d) = false) :
    Fails (start (Position.start.cells (handleDirective n ++ d :: rest))) := by
  have hcells : handleDirective n ++ d :: rest =
      '%' :: ("TAG ".toList ++ (letterHandle n ++ ' ' :: d :: rest)) := by simp [handleDirective]
  have huri (q : Position) : readTagUri? true false (q.cells (d :: rest)) = none := by
    have hspan := spanChars_cells q (isTagUriChar true) [] d rest (by simp) hu hr
    rw [List.nil_append] at hspan
    rw [readTagUri?, hspan]
    rfl
  rw [hcells]
  refine fails_of_directive ?_
  rw [readDirective_letters _ n d rest hd hr, huri]
  rfl

theorem leads_handleDirective (n : Nat) (lead rest : List Char) (hne : lead ≠ [])
    (h : ∀ c ∈ lead, isTagUriChar true c = true ∧ isBreak c = false ∧ c ≠ '%') :
    Leads (start (Position.start.cells (handleDirective n ++ (lead ++ '\n' :: rest))))
      ⟨(Position.start.after (handleDirective n ++ (lead ++ ['\n']))).cells rest, [], [], none, false,
        [.tagHandle (String.ofList (letterHandle n)) (String.ofList lead)]⟩ := by
  obtain ⟨d, ds, rfl⟩ := List.exists_cons_of_ne_nil hne
  obtain ⟨hd, hb, -⟩ := h d (by simp)
  have hblank : isSpaceOrTab d = false := by
    unfold isSpaceOrTab
    simp only [Bool.or_eq_false_iff, decide_eq_false_iff_not]
    constructor <;> rintro rfl <;> cases hd
  have hcr : d ≠ '\r' := by
    rintro rfl
    cases hb
  have hcells : handleDirective n ++ (d :: ds ++ '\n' :: rest) =
      '%' :: ("TAG ".toList ++ (letterHandle n ++ ' ' :: d :: (ds ++ '\n' :: rest))) := by simp [handleDirective]
  have huri (q : Position) : readTagUri? true false (q.cells (d :: (ds ++ '\n' :: rest))) =
      some (String.ofList (d :: ds), (q.after (d :: ds)).cells ('\n' :: rest)) := by
    have hspan := spanChars_cells q (isTagUriChar true) (d :: ds) '\n' rest
      (fun c hc => ⟨(h c hc).1, (h c hc).2.1⟩) (by decide) (by decide)
    rw [readTagUri?, ← List.cons_append, hspan]
    have hnul : '\x00' ∉ d :: ds := fun hc => by cases (h _ hc).1
    simp only [unescapeTag_of_bytes (percentBytes_plain (d :: ds) fun hc => (h _ hc).2.2 rfl) hnul]
    rfl
  have hline (q : Position) : skipRestOfLine? (q.cells ('\n' :: rest)) = some ((q.next '\n').cells rest) := by
    rw [cells_cons q '\n' rest (by decide)]
    rfl
  have hend (q : Position) : atWordEnd (q.cells ('\n' :: rest)) = true := by
    rw [cells_cons q '\n' rest (by decide)]
    rfl
  rw [hcells]
  refine leads_of_directive ?_ ?_
  · rw [readDirective_letters _ n d _ hblank hcr, huri]
    simp only [Option.bind_some, hend, ↓reduceIte, hline]
    simp [handleDirective, after_append, after_cons]
  · have hno : '\r' ∉ "TAG ".toList ++ (letterHandle n ++ ' ' :: (d :: ds ++ ['\n'])) := by
      intro hmem
      simp only [List.mem_append, List.mem_cons, List.not_mem_nil, or_false] at hmem
      rcases hmem with hm | hm | hm | (hm | hm) | hm
      · exact absurd hm (by decide)
      · exact absurd (isBreak_letterHandle n _ hm) (by decide)
      · cases hm
      · exact hcr hm.symm
      · exact absurd (h '\r' (by simp [hm])).2.1 (by decide)
      · cases hm
    have hlen := length_cells_after_le (Position.start.next '%') _ rest hno
    simpa [handleDirective, after_append, after_cons] using hlen

theorem run_succ_of_some {n : Nat} {s : Scanner} {ts : List Token} (h : run n s = some ts) :
    run (n + 1) s = some ts := by
  induction n generalizing s with
  | zero => cases h
  | succ n ih =>
    rw [run_succ] at h ⊢
    split at h
    · cases h
    · split at h
      · exact h
      · split at h
        · cases h
        · exact ih h

theorem ends_of_tokens {s : String} {ts : List Token} (h : tokens? s = some ts) :
    Ends (start (Position.start.cells s.toList)) ts := by
  have hcells : cells? s.toList = some (Position.start.cells s.toList) := if_pos (isAllowed_of_tokens h)
  rw [tokens?, hcells] at h
  intro k hk
  obtain ⟨n, rfl⟩ : ∃ n, k = (Position.start.cells s.toList).length + 1 + n :=
    ⟨k - ((Position.start.cells s.toList).length + 1), by simp only [start] at hk; omega⟩
  induction n with
  | zero => exact h
  | succ n ih => exact run_succ_of_some (ih (by simp only [start]; omega))

/-- The same text further on, at the start of a line and behind further tokens. -/
theorem ends_further {s : String} {ts : List Token} (h : tokens? s = some ts) (before : List Token) (p : Position)
    (hp : p.column = 0) : Ends ⟨p.cells s.toList, [], [], none, true, before.reverse⟩ (before ++ ts) := by
  have hcells : p.cells s.toList = (Position.start.cells s.toList).map (Cell.shift p.index p.line) := by
    have hshift := cellsFrom_shift p.index p.line 0 0 0 s.toList
    rw [Nat.zero_add, Nat.zero_add] at hshift
    unfold cells
    rw [hp]
    exact hshift
  have hstate : (⟨p.cells s.toList, [], [], none, true, before.reverse⟩ : Scanner) =
      (start (Position.start.cells s.toList)).shift before p.index p.line := by
    rw [hcells]
    simp [shift, start]
  intro k hk
  rw [hstate, run_shift, ends_of_tokens h k (by simpa [hcells, start] using hk)]
  rfl

theorem leads_newline (p : Position) (rest : List Char) (allowed : Bool) (tokens : List Token) :
    Leads ⟨p.cells ('\n' :: rest), [], [], none, allowed, tokens⟩
      ⟨(p.next '\n').cells rest, [], [], none, true, tokens⟩ := by
  have hcells := cells_cons p '\n' rest (by decide)
  refine leads_of_run_eq (run_eq_of_ready ?_) ?_
  · have hskip : skipToToken false allowed false (p.cells ('\n' :: rest)) =
        skipToToken false true false ((p.next '\n').cells rest) := by
      rw [hcells, skipToToken]
      cases allowed <;> rfl
    simp only [ready, inFlow, List.isEmpty_nil, Bool.not_true, hskip]
  · simp [hcells]

theorem leads_documentStart (p : Position) (hp : p.column = 0) (rest : List Char) (allowed : Bool)
    (tokens : List Token) :
    Leads ⟨p.cells ("---\n".toList ++ rest), [], [], none, allowed, tokens⟩
      ⟨(p.after "---\n".toList).cells rest, [], [], none, true, .documentStart :: tokens⟩ := by
  have hcells : p.cells ("---\n".toList ++ rest) = p.cell '-' :: (p.next '-').cell '-' ::
      ((p.next '-').next '-').cell '-' :: (p.after "---".toList).cells ('\n' :: rest) := by
    have hlist : "---\n".toList ++ rest = '-' :: '-' :: '-' :: '\n' :: rest := rfl
    rw [hlist, cells_cons p '-' _ (by decide), cells_cons _ '-' _ (by decide), cells_cons _ '-' _ (by decide)]
    rfl
  have hend : atWordEnd ((p.after "---".toList).cells ('\n' :: rest)) = true := by
    rw [cells_cons _ '\n' _ (by decide)]
    rfl
  have hready : (⟨p.cells ("---\n".toList ++ rest), [], [], none, allowed, tokens⟩ : Scanner).ready =
      ⟨p.cells ("---\n".toList ++ rest), [], [], none, allowed, tokens⟩ := by
    simp [ready, skipToToken, cell_char p '-' rfl, isBreak]
  refine Leads.trans ?_ (leads_newline (p.after "---".toList) rest false _)
  refine leads_of_token ((congrArg Scanner.rest hready).trans hcells) ?_ ?_ ?_
  · rintro k ⟨⟩
  · have hmarker : isMarker '-' (p.cell '-' :: (p.next '-').cell '-' :: ((p.next '-').next '-').cell '-' ::
        (p.after "---".toList).cells ('\n' :: rest)) = true := by
      simp only [isMarker, cell_char _ '-' rfl, hend]
      simp [cell, hp]
    rw [hready, hcells]
    have hpercent : ((p.cell '-').column = 0 && (p.cell '-').char = '%') = false := by simp [cell_char p '-' rfl]
    rw [token?, hpercent, hmarker]
    rfl
  · simp

theorem isAllowed_handleDirective (n : Nat) : (handleDirective n).all isAllowed = true :=
  List.all_eq_true.mpr fun c hc =>
    (Text.forall_mem_of_all (by decide) : ∀ c ∈ "%TAG !x".toList, isAllowed c = true) c (mem_handleDirective hc)

/-- A document behind a directive for a handle, with a marker of its start where it has none. -/
theorem tokens_behind_handle {s : String} {ts : List Token} (h : tokens? s = some ts) (n : Nat) (lead : List Char)
    (hne : lead ≠ [])
    (hlead : ∀ c ∈ lead, isTagUriChar true c = true ∧ isBreak c = false ∧ c ≠ '%')
    (hallowed : lead.all isAllowed = true) (marked : Bool) :
    tokens? (String.ofList (handleDirective n ++ (lead ++ '\n' ::
        ((if marked then ['\n'] else "---\n".toList) ++ s.toList)))) =
      some (.tagHandle (String.ofList (letterHandle n)) (String.ofList lead) ::
        (if marked then ts else .documentStart :: ts)) := by
  have hline (rest : List Char) := leads_handleDirective n lead rest hne hlead
  have hcolumn : (Position.start.after (handleDirective n ++ (lead ++ ['\n']))).column = 0 := by
    rw [← List.append_assoc, after_concat_break _ _ _ rfl]
  refine tokens_of_ends ?_ ?_
  · have hs := isAllowed_of_tokens h
    rw [String.toList_ofList, List.all_append, List.all_append, List.all_cons, List.all_append,
      isAllowed_handleDirective, hallowed, hs]
    cases marked <;> decide
  · rw [String.toList_ofList]
    cases marked with
    | true =>
      have hblank := leads_newline (Position.start.after (handleDirective n ++ (lead ++ ['\n']))) s.toList false
        [.tagHandle (String.ofList (letterHandle n)) (String.ofList lead)]
      exact ((hline _).trans hblank).ends (ends_further h [_] _ rfl)
    | false =>
      have hstart := leads_documentStart _ hcolumn s.toList false
        [.tagHandle (String.ofList (letterHandle n)) (String.ofList lead)]
      exact ((hline _).trans hstart).ends (ends_further h [_, _] _ rfl)

end Scanner

theorem exists_fresh_handle (ts : List Token) :
    ∃ n, standardHandles.lookup (String.ofList (letterHandle n)) = none ∧
      ∀ l, .tagHandle (String.ofList (letterHandle n)) l ∉ ts := by
  have hbound : ∃ n, 0 < n ∧ ∀ h l, .tagHandle h l ∈ ts → h.length < n := by
    induction ts with
    | nil => exact ⟨1, by simp⟩
    | cons t ts ih =>
      obtain ⟨n, hn, hlt⟩ := ih
      cases t with
      | tagHandle h l =>
        refine ⟨n + h.length + 1, by omega, ?_⟩
        intro h' l' hmem
        rcases List.mem_cons.mp hmem with heq | hmem
        · cases heq
          omega
        · have := hlt h' l' hmem
          omega
      | _ =>
        refine ⟨n, hn, ?_⟩
        intro h' l' hmem
        rcases List.mem_cons.mp hmem with heq | hmem
        · cases heq
        · exact hlt h' l' hmem
  obtain ⟨n, hn, hlt⟩ := hbound
  have hlength : (String.ofList (letterHandle n)).length = n + 2 := by
    rw [String.length_ofList]
    simp [letterHandle]
  have hne (h : String) (hh : h.length ≤ 2) : String.ofList (letterHandle n) ≠ h := by
    rintro rfl
    omega
  refine ⟨n, ?_, ?_⟩
  · rw [standardHandles, lookup_cons_of_ne _ _ (hne "!" (by decide)), lookup_cons_of_ne _ _ (hne "!!" (by decide))]
    rfl
  · intro l hl
    have := hlt _ l hl
    omega

/-- Every text that can be read can be read behind a directive that mentions `lead`. -/
theorem exists_read_behind {s : String} {v : Value} (h : read? s = some v) (lead : List Char) (hne : lead ≠ [])
    (hlead : ∀ c ∈ lead, isTagUriChar true c = true ∧ isBreak c = false ∧ c ≠ '%')
    (hallowed : lead.all isAllowed = true) :
    ∃ n rest, read? (String.ofList (handleDirective n ++ (lead ++ '\n' :: rest))) = some v := by
  obtain ⟨root, hroot, hvalue⟩ := Option.bind_eq_some_iff.mp h
  obtain ⟨ts, hts, hroot⟩ := Option.bind_eq_some_iff.mp hroot
  obtain ⟨t, ht, hresolve⟩ := Option.bind_eq_some_iff.mp hroot
  obtain ⟨n, hstandard, hfresh⟩ := exists_fresh_handle ts
  have htokens := Scanner.tokens_behind_handle hts n lead hne hlead hallowed (marksStart ts)
  have hparse := parse_behind_handle (String.ofList lead) hfresh hstandard ht
  refine ⟨n, (if marksStart ts then ['\n'] else "---\n".toList) ++ s.toList, ?_⟩
  rw [read?, Node.read?, htokens]
  simp only [Option.bind_eq_bind, Option.bind_some, hparse, hresolve, hvalue]

end CiWorkflow.Yaml
