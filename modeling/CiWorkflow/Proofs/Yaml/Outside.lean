import CiWorkflow.Proofs.Yaml.Flow
import CiWorkflow.Yaml.Quoted

/-!
# Scanning outside brackets

Outside brackets the indentation counts: the next token closes the collections that stand further right, and a key
or the mark of an entry may open one. A state between two tokens is given by its open collections, its tokens, the
key that may still be marked and the text in front of it.
-/
set_option autoImplicit false

namespace CiWorkflow.Yaml

open Position

theorem after_spaces (q : Position) (k : Nat) : q.after (spaces k) = ⟨q.index + k, q.line, q.column + k⟩ := by
  have hblank : ∀ c ∈ spaces k, isBreak c = false := fun c hc => by rw [List.eq_of_mem_replicate hc]; rfl
  simpa [spaces] using after_of_no_break q (spaces k) hblank

theorem cr_not_mem_spaces (k : Nat) : '\r' ∉ spaces k := fun h => absurd (List.eq_of_mem_replicate h) (by decide)

theorem line_le_of_mem_cells {q : Position} {cs : List Char} {c : Cell} (h : c ∈ q.cells cs) : q.line ≤ c.line := by
  unfold Position.cells at h
  generalize q.index = index, q.line = line, q.column = column at h ⊢
  fun_induction cellsFrom index line column cs with
  | case1 => cases h
  | case2 index line column rest ih =>
    obtain rfl | h := List.mem_cons.mp h
    · exact Nat.le_refl _
    · exact Nat.le_of_succ_le (ih h)
  | case3 index line column d rest _ _ ih =>
    obtain rfl | h := List.mem_cons.mp h
    · exact Nat.le_refl _
    · exact Nat.le_of_succ_le (ih h)
  | case4 index line column d rest _ _ ih =>
    obtain rfl | h := List.mem_cons.mp h
    · exact Nat.le_refl _
    · exact ih h

namespace Scanner

/-! ## In front of the next token -/

theorem skipToToken_spaces (inFlow allowed : Bool) (q : Position) (k : Nat) (cs : List Char) :
    skipToToken inFlow allowed false (q.cells (spaces k ++ cs)) =
      skipToToken inFlow allowed false ((q.after (spaces k)).cells cs) := by
  induction k generalizing q with
  | zero => rfl
  | succ k ih =>
    have hspaces : spaces (k + 1) = ' ' :: spaces k := rfl
    rw [hspaces, List.cons_append, cells_cons q ' ' _ (by decide), skipToToken.eq_def, after_cons, ← ih]
    simp [cell_char q ' ' rfl, isBreak]

theorem skipToToken_token (inFlow allowed : Bool) (q : Position) {c : Char} (hc : opensToken c = true)
    (cs : List Char) : skipToToken inFlow allowed false (q.cells (c :: cs)) = (allowed, q.cells (c :: cs)) := by
  have hb := isBreak_of_opensToken c hc
  simp only [opensToken, isSpaceOrTab, Bool.and_eq_true, Bool.not_eq_true', Bool.or_eq_false_iff,
    decide_eq_false_iff_not, decide_eq_true_eq] at hc
  obtain ⟨⟨⟨⟨hs, ht⟩, -⟩, hhash⟩, hmark⟩ := hc
  rw [cells_cons q c cs (not_cr_of_not_break c hb), skipToToken.eq_def]
  simp [hb, cell_char q c hb, hs, ht, hhash, hmark]

theorem skipToToken_break (allowed : Bool) (q : Position) {c : Char} (hc : isBreak c = true) (hcr : c ≠ '\r')
    (cs : List Char) : skipToToken false allowed false (q.cells (c :: cs)) =
      skipToToken false true false ((q.next c).cells cs) := by
  rw [cells_cons q c cs hcr, skipToToken.eq_def]
  simp [hc]

theorem mem_of_mem_skipToToken {inFlow allowed comment : Bool} {cs : List Cell} {c : Cell}
    (h : c ∈ (skipToToken inFlow allowed comment cs).2) : c ∈ cs := by
  fun_induction skipToToken inFlow allowed comment cs with
  | case1 => cases h
  | case2 | case3 | case4 | case5 => exact List.mem_cons_of_mem _ (by simp_all)
  | case6 => exact h

/-! ## States between two tokens -/

def outside (cols : List Nat) (key : Option PossibleKey) (allowed : Bool) (ts : List Token) (q : Position)
    (cs : List Char) : Scanner :=
  ⟨q.cells cs, cols, [], key, allowed, ts⟩

variable {cols : List Nat} {key : Option PossibleKey} {allowed : Bool} {ts : List Token} {q : Position}
  {cs rest : List Char} {c : Char} {k n : Nat}

theorem remaining_eq_self (h : ∀ m ∈ cols.head?, m ≤ n) : remaining (some n) cols = cols := by
  cases cols with
  | nil => rfl
  | cons m cols =>
    have hm : ¬ n < m := Nat.not_lt.mpr (h m rfl)
    simp [remaining, hm]

theorem closeBlocks_outside (h : ∀ m ∈ cols.head?, m ≤ n) :
    (outside cols key allowed ts q cs).closeBlocks (some n) = outside cols key allowed ts q cs := by
  have hkept : remaining (some n) (outside cols key allowed ts q cs).columns = cols := remaining_eq_self h
  rw [closeBlocks, if_neg (by simp [inFlow, outside]), hkept]
  simp [outside]

def keepFresh (c : Cell) (key : Option PossibleKey) : Option PossibleKey := key.filter fun x => !isStale c x

theorem mem_of_mem_keepFresh {c : Cell} {x : PossibleKey} (h : x ∈ keepFresh c key) : x ∈ key :=
  (Option.filter_eq_some_iff.mp h).1

theorem keepFresh_eq_self {c : Cell} (h : ∀ x ∈ key, isStale c x = false) : keepFresh c key = key := by
  cases key with
  | none => rfl
  | some x => simp [keepFresh, h x rfl]

@[simp] theorem keepFresh_none (c : Cell) : keepFresh c none = none := rfl

/-- The key has not become stale in front of the cell `c`, if it has to be one. -/
def KeptUntil (c : Cell) (key : Option PossibleKey) : Prop := ∀ x ∈ key, x.required = true → isStale c x = false

theorem KeptUntil.none (c : Cell) : KeptUntil c none := by
  simp [KeptUntil]

theorem KeptUntil.of_optional {c : Cell} (h : ∀ x ∈ key, x.required = false) : KeptUntil c key := by
  intro x hx hrequired
  rw [h x hx] at hrequired
  cases hrequired

theorem dropStale_outside (h : KeptUntil (q.cell c) key) (hb : isBreak c = false) :
    (outside cols key allowed ts q (c :: cs)).dropStale? =
      some (outside cols (keepFresh (q.cell c) key) allowed ts q (c :: cs)) := by
  have hcells := cells_cons q c cs (not_cr_of_not_break c hb)
  have hany : (key.any fun x => x.required && isStale (q.cell c) x) = false := by
    cases key with
    | none => rfl
    | some x =>
      cases hx : x.required with
      | false => simp [hx]
      | true => simp [hx, h x rfl hx]
  simp [dropStale?, outside, hcells, hany, keepFresh]

/-- One round in front of a token that closes nothing: the token is read behind the spaces. -/
theorem run_outside (steps : Nat) (hc : opensToken c = true)
    (hcols : ∀ m ∈ cols.head?, m ≤ (q.after (spaces k)).column) (hkey : KeptUntil ((q.after (spaces k)).cell c) key) :
    run (steps + 1) (outside cols key allowed ts q (spaces k ++ c :: cs)) =
      ((outside cols (keepFresh ((q.after (spaces k)).cell c) key) allowed ts (q.after (spaces k)) (c :: cs)).token?
        ((q.after (spaces k)).cell c) (((q.after (spaces k)).next c).cells cs)).bind (run steps) := by
  have hb := isBreak_of_opensToken c hc
  have hready : (outside cols key allowed ts q (spaces k ++ c :: cs)).ready =
      outside cols key allowed ts (q.after (spaces k)) (c :: cs) := by
    simp only [ready, outside, inFlow, List.isEmpty_nil, Bool.not_true, skipToToken_spaces,
      skipToToken_token false allowed _ hc]
  generalize hfresh : keepFresh ((q.after (spaces k)).cell c) key = fresh
  have hrest : (outside cols fresh allowed ts (q.after (spaces k)) (c :: cs)).rest =
      (q.after (spaces k)).cell c :: ((q.after (spaces k)).next c).cells cs :=
    cells_cons _ c cs (not_cr_of_not_break c hb)
  have hclose : (outside cols fresh allowed ts (q.after (spaces k)) (c :: cs)).closeBlocks
      (some (q.after (spaces k)).column) = outside cols fresh allowed ts (q.after (spaces k)) (c :: cs) :=
    closeBlocks_outside hcols
  rw [run_succ, hready, dropStale_outside hkey hb, hfresh]
  simp only [hrest, cell_column, hclose]
  cases (outside cols fresh allowed ts (q.after (spaces k)) (c :: cs)).token? _ _ <;> rfl

theorem leads_of_outside {t u : Scanner} (hc : opensToken c = true)
    (hcols : ∀ m ∈ cols.head?, m ≤ (q.after (spaces k)).column) (hkey : KeptUntil ((q.after (spaces k)).cell c) key)
    (ht : (outside cols (keepFresh ((q.after (spaces k)).cell c) key) allowed ts (q.after (spaces k)) (c :: cs)).token?
      ((q.after (spaces k)).cell c) (((q.after (spaces k)).next c).cells cs) = some t)
    (hrun : ∀ n, run n t = run n u) (hl : u.rest.length ≤ (((q.after (spaces k)).next c).cells cs).length) :
    Leads (outside cols key allowed ts q (spaces k ++ c :: cs)) u := by
  refine ⟨1, ?_, fun steps => ?_⟩
  · have hlength := length_cells_after_le q (spaces k) (c :: cs) (cr_not_mem_spaces k)
    rw [cells_cons _ c cs (not_cr_of_not_break c (isBreak_of_opensToken c hc)), List.length_cons] at hlength
    simp only [outside]
    omega
  · rw [Nat.add_comm, run_outside steps hc hcols hkey, ht]
    exact hrun steps

/-! ## Line ends -/

/-- The state behind a line end: a key that had to be on the line is forgotten. -/
theorem run_newLine {s : Scanner} (hb : s.brackets = [])
    (hkey : ∀ x ∈ s.blockKey, x.required = false ∧ x.line < q.line)
    (hskip : skipToToken false s.keyAllowed false s.rest = skipToToken false true false (q.cells rest)) (steps : Nat) :
    run steps s = run steps (outside s.columns none true s.tokens q rest) := by
  have hoptional : ∀ x ∈ s.blockKey, x.required = false := fun x hx => (hkey x hx).1
  have hready : s.ready = { (outside s.columns none true s.tokens q rest).ready with blockKey := s.blockKey } := by
    simp only [ready, outside, inFlow, hb, List.isEmpty_nil, Bool.not_true, hskip]
  cases steps with
  | zero => rfl
  | succ steps =>
    cases hcs : (skipToToken false true false (q.cells rest)).2 with
    | nil =>
      have hrest : (outside s.columns none true s.tokens q rest).ready.rest = [] := hcs
      rw [run_of_rest_nil (s := s) (by rw [hready]; exact hrest) hb hoptional,
        run_of_rest_nil hrest rfl (by simp [outside])]
      rfl
    | cons c cs =>
      have hrest : (outside s.columns none true s.tokens q rest).ready.rest = c :: cs := hcs
      have hline : q.line ≤ c.line := line_le_of_mem_cells (mem_of_mem_skipToToken (hcs ▸ List.mem_cons_self))
      have hstale : s.blockKey.filter (fun x => !isStale c x) = none := by
        rw [Option.filter_eq_none_iff]
        intro x hx
        have := (hkey x hx).2
        simp [isStale, show x.line < c.line by omega]
      have hfresh : s.ready.fresh c = (outside s.columns none true s.tokens q rest).ready.fresh c := by
        rw [hready]
        simp [fresh, hstale, ready, outside]
      have hsrest : s.ready.rest = c :: cs := by
        rw [hready]
        exact hrest
      rw [run_succ, run_succ, dropStale_of_optional hsrest hoptional,
        dropStale_of_optional hrest (by simp [ready, outside]), hfresh]

theorem leads_newLine (hkey : ∀ x ∈ key, x.required = false ∧ x.line ≤ q.line) :
    Leads (outside cols key allowed ts q ('\n' :: rest)) (outside cols none true ts (q.next '\n') rest) := by
  have hline : (q.next '\n').line = q.line + 1 := by rw [next_of_break q '\n' rfl]
  refine leads_of_run_eq (run_newLine rfl (fun x hx => ?_) (skipToToken_break allowed q rfl (by decide) rest)) ?_
  · exact ⟨(hkey x hx).1, hline ▸ Nat.lt_succ_of_le (hkey x hx).2⟩
  · simp [outside, cells_cons q '\n' rest (by decide)]

/-! ## Closing and opening collections -/

/-- What follows a node: nothing but a line feed, or a token no further right than `bound`. -/
inductive Follows (bound : Option Nat) : List Char → Prop
  | done : Follows bound []
  | feed : Follows bound ['\n']
  | token {n k : Nat} {c : Char} {cs : List Char} : n ∈ bound → k ≤ n → opensToken c = true →
    Follows bound (spaces k ++ c :: cs)

theorem Follows.mono {bound : Option Nat} (h : Follows bound rest) (hle : ∀ m ∈ bound, m ≤ n) :
    Follows (some n) rest := by
  cases h with
  | done => exact .done
  | feed => exact .feed
  | token hm hk hc => exact .token rfl (Nat.le_trans hk (hle _ hm)) hc

theorem ends_outside (h : Follows none rest) : Ends (outside [] none true ts q rest) ts.reverse := by
  have hrest : (outside [] none true ts q rest).ready.rest = [] := by
    cases h with
    | done => rfl
    | feed => rfl
    | token hm => cases hm
  have hends := ends_of_rest_nil hrest rfl (by simp [outside])
  simpa [outside] using hends

theorem leads_close (hq : q.column = 0) (h : Follows cols.head? rest) (hn : ∀ m ∈ cols.head?, m < n) :
    Leads (outside (n :: cols) none true ts q rest) (outside cols none true (.blockEnd :: ts) q rest) := by
  refine leads_of_run_eq (fun steps => ?_) (Nat.le_refl _)
  cases steps with
  | zero => rfl
  | succ steps =>
    have hend (hskip : skipToToken false true false (q.cells rest) = (true, [])) :
        run (steps + 1) (outside (n :: cols) none true ts q rest) =
          run (steps + 1) (outside cols none true (.blockEnd :: ts) q rest) := by
      have hrest (cols : List Nat) (ts : List Token) : (outside cols none true ts q rest).ready.rest = [] := by
        simp only [ready, outside, inFlow, List.isEmpty_nil, Bool.not_true, hskip]
      rw [run_of_rest_nil (hrest _ _) rfl (by simp [outside]), run_of_rest_nil (hrest _ _) rfl (by simp [outside])]
      simp [outside, List.replicate_succ]
    cases h with
    | done => exact hend rfl
    | feed => exact hend rfl
    | @token m k c cs hm hk hc =>
      have hb := isBreak_of_opensToken c hc
      have hready (cols : List Nat) (ts : List Token) : (outside cols none true ts q (spaces k ++ c :: cs)).ready =
          outside cols none true ts (q.after (spaces k)) (c :: cs) := by
        simp only [ready, outside, inFlow, List.isEmpty_nil, Bool.not_true, skipToToken_spaces,
          skipToToken_token false true _ hc]
      have hrest (cols : List Nat) (ts : List Token) :
          (outside cols none true ts (q.after (spaces k)) (c :: cs)).rest =
            (q.after (spaces k)).cell c :: ((q.after (spaces k)).next c).cells cs :=
        cells_cons _ c cs (not_cr_of_not_break c hb)
      have hcolumn : (q.after (spaces k)).column = k := by
        rw [after_spaces, hq]
        exact Nat.zero_add k
      have hlt : k < n := Nat.lt_of_le_of_lt hk (hn m hm)
      have hkept : remaining (some k) (n :: cols) = remaining (some k) cols := by
        simp [remaining, hlt]
      have hle : (remaining (some k) cols).length ≤ cols.length := (List.dropWhile_suffix _).length_le
      have hclose : (outside (n :: cols) none true ts (q.after (spaces k)) (c :: cs)).closeBlocks (some k) =
          (outside cols none true (.blockEnd :: ts) (q.after (spaces k)) (c :: cs)).closeBlocks (some k) := by
        have hcount : cols.length + 1 - (remaining (some k) cols).length =
            cols.length - (remaining (some k) cols).length + 1 := by omega
        simp only [closeBlocks, inFlow, outside, List.isEmpty_nil, Bool.not_true, Bool.false_eq_true, if_false, hkept,
          List.length_cons, hcount, List.replicate_succ', List.append_assoc, List.singleton_append]
      rw [run_succ, run_succ, hready, hready, dropStale_outside (.none _) hb, dropStale_outside (.none _) hb]
      simp only [keepFresh, Option.filter_none, hrest, cell_column, hcolumn, hclose]

inductive Opened (n : Nat) (t : Token) (cols : List Nat) (ts : List Token) : List Nat → List Token → Prop
  | stays : cols.head? = some n → Opened n t cols ts cols ts
  | opens : (∀ m ∈ cols.head?, m < n) → Opened n t cols ts (n :: cols) (t :: ts)

variable {cols' : List Nat} {ts' front : List Token} {t : Token}

theorem Opened.le (h : Opened n t cols ts cols' ts') : ∀ m ∈ cols.head?, m ≤ n := by
  cases h with
  | stays hn => exact fun m hm => Nat.le_of_eq (Option.some.inj (hm.symm.trans hn))
  | opens hlt => exact fun m hm => Nat.le_of_lt (hlt m hm)

theorem Opened.head (h : Opened n t cols ts cols' ts') : cols'.head? = some n := by
  cases h with
  | stays hn => exact hn
  | opens => rfl

/-- The mark of a collection goes in front of the tokens that have come since. -/
theorem emitAt_outside (t : Token) : (outside cols key allowed (front ++ ts) q cs).emitAt ts.length t =
    outside cols key allowed (front ++ t :: ts) q cs := by
  have hposition : (front ++ ts).length - ts.length = front.length := by simp
  have hinsert : (front ++ ts).insertIdx front.length t = front ++ t :: ts := by
    clear hposition
    induction front with
    | nil => rfl
    | cons u front ih => simpa using ih
  simp only [emitAt, outside, hposition, hinsert]

theorem openBlock_outside (h : Opened n t cols ts cols' ts') :
    (outside cols key allowed (front ++ ts) q cs).openBlock n ts.length t =
      outside cols' key allowed (front ++ ts') q cs := by
  cases h with
  | stays hn =>
    rw [openBlock, if_pos]
    simp [parent, outside, inFlow, hn]
  | opens hlt =>
    rw [openBlock, if_neg, emitAt_outside]
    · rfl
    · cases hhead : cols.head? with
      | none => simp [parent, outside, inFlow, hhead]
      | some m => simp [parent, outside, inFlow, hhead, hlt m hhead]

section Marks

variable (u : Scanner) (q : Position) {cells : List Cell} (h : atWordEnd cells = true)

include h

theorem token_dash : u.token? (q.cell '-') cells = u.blockEntry? := by
  have hmarker : isMarker '-' (q.cell '-' :: cells) = false := by
    match cells, h with
    | [], _ | [_], _ => rfl
    | d :: _ :: _, h =>
      have hd : d.char ≠ '-' := by
        intro hd
        simp [atWordEnd, Cell.isBlank, Cell.isLineEnd, hd, isSpaceOrTab, isBreak] at h
      simp [isMarker, hd]
  simp [token?, cell_char q '-' rfl, hmarker, not_isMarker '.' q '-' _ rfl, h]

theorem token_question : u.token? (q.cell '?') cells = u.explicitKey? := by
  simp [token?, cell_char q '?' rfl, not_isMarker _ q '?' _ rfl, h]

theorem token_valueMark : u.token? (q.cell ':') cells = u.value? := by
  simp [token?, cell_char q ':' rfl, not_isMarker _ q ':' _ rfl, h]

end Marks

theorem column_outside (hb : isBreak c = false) : (outside cols key allowed ts q (c :: cs)).column = q.column := by
  simp [column, outside, cells_cons q c cs (not_cr_of_not_break c hb)]

theorem skip_outside (hb : isBreak c = false) :
    (outside cols key allowed ts q (c :: cs)).skip 1 = outside cols key allowed ts (q.next c) cs := by
  simp [skip, outside, cells_cons q c cs (not_cr_of_not_break c hb)]

theorem dropKey_outside (h : ∀ x ∈ key, x.required = false) :
    (outside cols key allowed ts q cs).dropKey? = some (outside cols none allowed ts q cs) := by
  have hany : key.any (·.required) = false := by
    cases key with
    | none => rfl
    | some x => exact h x rfl
  simp [dropKey?, currentKey, outside, hany, setKey]

theorem emit_outside : (outside cols key allowed ts q cs).emit t = outside cols key allowed (t :: ts) q cs := rfl

theorem allowKey_outside (b : Bool) :
    (outside cols key allowed ts q cs).allowKey b = outside cols key b ts q cs := rfl

theorem opener_outside {block : Token} (hb : isBreak c = false) (hn : q.column = n)
    (ho : Opened n block cols ts cols' ts') :
    (outside cols none true ts q (c :: cs)).opener? block t =
      some (outside cols' none true (t :: ts') (q.next c) cs) := by
  have hopen : (outside cols none true ([] ++ ts) q (c :: cs)).openBlock n ts.length block =
      outside cols' none true ([] ++ ts') q (c :: cs) := openBlock_outside ho
  rw [List.nil_append, List.nil_append] at hopen
  have hlength : (outside cols none true ts q (c :: cs)).tokens.length = ts.length := rfl
  rw [opener?, if_neg (by simp [outside]), column_outside hb, hn, hlength, hopen, dropKey_outside (by simp)]
  simp only [Option.bind_eq_bind, Option.bind_some, emit_outside, skip_outside hb]
  rfl

theorem leads_blockEntry (hn : (q.after (spaces k)).column = n) (ho : Opened n .blockSequence cols ts cols' ts')
    (hcs : endsWord cs = true) :
    Leads (outside cols none true ts q (spaces k ++ '-' :: cs))
      (outside cols' none true (.blockEntry :: ts') ((q.after (spaces k)).next '-') cs) := by
  refine leads_of_outside rfl (hn ▸ ho.le) (.none _) ?_ (fun _ => rfl) (Nat.le_refl _)
  rw [keepFresh_none, token_dash _ _ (by rwa [atWordEnd_cells]), blockEntry?, opener_outside rfl hn ho]
  rfl

theorem leads_explicitKey (hn : (q.after (spaces k)).column = n) (ho : Opened n .blockMapping cols ts cols' ts')
    (hcs : endsWord cs = true) :
    Leads (outside cols none true ts q (spaces k ++ '?' :: cs))
      (outside cols' none true (.key :: ts') ((q.after (spaces k)).next '?') cs) := by
  refine leads_of_outside rfl (hn ▸ ho.le) (.none _) ?_ (fun _ => rfl) (Nat.le_refl _)
  rw [keepFresh_none, token_question _ _ (by rwa [atWordEnd_cells]), explicitKey?, opener_outside rfl hn ho]
  rfl

theorem answer_outside (hn : cols.head? = some q.column) :
    (outside cols none true ts q (':' :: cs)).value? =
      some (outside cols none true (.value :: ts) (q.next ':') cs) := by
  have hopen : (outside cols none true ([] ++ ts) q (':' :: cs)).openBlock q.column ts.length .blockMapping =
      outside cols none true ([] ++ ts) q (':' :: cs) := openBlock_outside (.stays hn)
  have hcurrent : (outside cols none true ts q (':' :: cs)).currentKey = none := rfl
  have hlength : (outside cols none true ts q (':' :: cs)).tokens.length = ts.length := rfl
  rw [List.nil_append] at hopen
  rw [value?, hcurrent]
  simp only
  rw [if_neg (by simp [outside]), column_outside rfl, hlength, hopen, emit_outside, allowKey_outside, skip_outside rfl]
  rfl

theorem leads_answer (ts : List Token) (hn : cols.head? = some (q.after (spaces k)).column) (hcs : endsWord cs = true) :
    Leads (outside cols none true ts q (spaces k ++ ':' :: cs))
      (outside cols none true (.value :: ts) ((q.after (spaces k)).next ':') cs) := by
  have hle : ∀ m ∈ cols.head?, m ≤ (q.after (spaces k)).column := fun m hm =>
    Nat.le_of_eq (Option.some.inj (hm.symm.trans hn))
  refine leads_of_outside rfl hle (.none _) ?_ (fun _ => rfl) (Nat.le_refl _)
  rw [keepFresh_none, token_valueMark _ _ (by rwa [atWordEnd_cells]), answer_outside hn]

/-! ## Leaves -/

def possibleKey (cols : List Nat) (ts : List Token) (q : Position) : PossibleKey :=
  ⟨decide (cols.head? = some q.column), ts.length, q.index, q.line, q.column⟩

/-- The key that is remembered in front of a token: a new one where a key may start. -/
def saved (cols : List Nat) (key : Option PossibleKey) (allowed : Bool) (ts : List Token) (q : Position) :
    Option PossibleKey :=
  if allowed then some (possibleKey cols ts q) else key

/-- A token that may be a key starts with `c` behind `k` spaces. It closes nothing, and no key is required that it
would replace or that lies too far back. -/
structure MayStart (cols : List Nat) (key : Option PossibleKey) (allowed : Bool) (q : Position) (k : Nat) (c : Char) :
    Prop where
  opens : opensToken c = true
  inside : ∀ m ∈ cols.head?, m ≤ (q.after (spaces k)).column
  kept : KeptUntil ((q.after (spaces k)).cell c) key
  free : allowed = true → ∀ x ∈ key, x.required = false

theorem MayStart.saveKey (h : MayStart cols key allowed q k c) :
    (outside cols (keepFresh ((q.after (spaces k)).cell c) key) allowed ts (q.after (spaces k)) (c :: cs)).saveKey? =
      some (outside cols
        (saved cols (keepFresh ((q.after (spaces k)).cell c) key) allowed ts (q.after (spaces k))) allowed ts
        (q.after (spaces k)) (c :: cs)) := by
  have hfree : allowed = true → ∀ x ∈ keepFresh ((q.after (spaces k)).cell c) key, x.required = false :=
    fun hallowed x hx => h.free hallowed x (mem_of_mem_keepFresh hx)
  generalize keepFresh ((q.after (spaces k)).cell c) key = fresh at hfree ⊢
  have hrest : (outside cols fresh allowed ts (q.after (spaces k)) (c :: cs)).rest =
      (q.after (spaces k)).cell c :: ((q.after (spaces k)).next c).cells cs :=
    cells_cons _ c cs (not_cr_of_not_break c (isBreak_of_opensToken c h.opens))
  rw [saveKey?, hrest]
  cases allowed with
  | false => rfl
  | true =>
    simp only [dropKey_outside (hfree rfl)]
    rfl

section Leaves

variable {read : List Cell → Option (Token × List Cell)} {q' : Position} (h : MayStart cols key allowed q k c)

include h

/-- A token that may be a key, read from its first character up to another place. -/
theorem MayStart.leads_leaf
    (ht : ∀ u : Scanner, u.brackets = [] →
      u.token? ((q.after (spaces k)).cell c) (((q.after (spaces k)).next c).cells cs) = u.leaf? read)
    (hread : read ((q.after (spaces k)).cells (c :: cs)) = some (t, q'.cells rest))
    (hl : (q'.cells rest).length ≤ (((q.after (spaces k)).next c).cells cs).length) :
    Leads (outside cols key allowed ts q (spaces k ++ c :: cs))
      (outside cols (saved cols (keepFresh ((q.after (spaces k)).cell c) key) allowed ts (q.after (spaces k))) false
        (t :: ts) q' rest) := by
  refine leads_of_outside h.opens h.inside h.kept ?_ (fun _ => rfl) hl
  rw [ht _ rfl, leaf?, h.saveKey]
  have hrest (key : Option PossibleKey) : (outside cols key allowed ts (q.after (spaces k)) (c :: cs)).rest =
      (q.after (spaces k)).cells (c :: cs) := rfl
  simp only [Option.bind_eq_bind, Option.bind_some, hrest, hread]
  rfl

theorem MayStart.leads_plain {text : List Char} {crossed : Bool} {u : Scanner}
    (ht : ∀ u : Scanner, u.brackets = [] →
      u.token? ((q.after (spaces k)).cell c) (((q.after (spaces k)).next c).cells cs) = u.plain?)
    (hread : readPlain false ((cols.head?.map (· + 1)).getD 0) [] .none ((q.after (spaces k)).cells (c :: cs)) =
      some (text, crossed, q'.cells rest))
    (hrun : ∀ n, run n (outside cols
      (saved cols (keepFresh ((q.after (spaces k)).cell c) key) allowed ts (q.after (spaces k))) crossed
      (.scalar .plain (String.ofList text) :: ts) q' rest) = run n u)
    (hl : u.rest.length ≤ (((q.after (spaces k)).next c).cells cs).length) :
    Leads (outside cols key allowed ts q (spaces k ++ c :: cs)) u := by
  refine leads_of_outside h.opens h.inside h.kept ?_ hrun hl
  rw [ht _ rfl, plain?, h.saveKey]
  have hrest (key : Option PossibleKey) : (outside cols key allowed ts (q.after (spaces k)) (c :: cs)).rest =
      (q.after (spaces k)).cells (c :: cs) := rfl
  have hflow (key : Option PossibleKey) : (outside cols key allowed ts (q.after (spaces k)) (c :: cs)).inFlow = false :=
    rfl
  have hparent (key : Option PossibleKey) :
      (outside cols key allowed ts (q.after (spaces k)) (c :: cs)).parent = cols.head? := rfl
  simp only [Option.bind_eq_bind, Option.bind_some, hrest, hflow, hparent, hread]
  rfl

theorem MayStart.leads_emptyBrackets {b : Char} {opening closing : Token} (hb : opensToken b = true)
    (hnext : KeptUntil (((q.after (spaces k)).next c).cell b)
      (saved cols (keepFresh ((q.after (spaces k)).cell c) key) allowed ts (q.after (spaces k))))
    (hopen : ∀ (u : Scanner) (q : Position) rest, u.token? (q.cell c) rest = u.openBracket? opening)
    (hclose : ∀ (u : Scanner) (q : Position) rest, u.token? (q.cell b) rest = u.closeBracket? closing) :
    Leads (outside cols key allowed ts q (spaces k ++ c :: b :: cs))
      (outside cols (keepFresh (((q.after (spaces k)).next c).cell b)
          (saved cols (keepFresh ((q.after (spaces k)).cell c) key) allowed ts (q.after (spaces k)))) false
        (closing :: opening :: ts) (((q.after (spaces k)).next c).next b) cs) := by
  have hcells := cells_cons ((q.after (spaces k)).next c) b cs (not_cr_of_not_break b (isBreak_of_opensToken b hb))
  have hcells' := cells_cons (q.after (spaces k)) c (b :: cs)
    (not_cr_of_not_break c (isBreak_of_opensToken c h.opens))
  have hfirst : Leads (outside cols key allowed ts q (spaces k ++ c :: b :: cs))
      ⟨((q.after (spaces k)).next c).cells (b :: cs), cols, [none],
        saved cols (keepFresh ((q.after (spaces k)).cell c) key) allowed ts (q.after (spaces k)), true,
        opening :: ts⟩ := by
    refine leads_of_outside h.opens h.inside h.kept ?_ (fun _ => rfl) (Nat.le_refl _)
    rw [hopen, openBracket?, h.saveKey]
    simp [outside, emit, allowKey, skip, hcells']
  refine hfirst.trans ⟨1, by simp [outside, hcells]; omega, fun steps => ?_⟩
  generalize saved cols (keepFresh ((q.after (spaces k)).cell c) key) allowed ts (q.after (spaces k)) = x at hnext ⊢
  have hready :
      (⟨((q.after (spaces k)).next c).cells (b :: cs), cols, [none], x, true, opening :: ts⟩ : Scanner).ready =
      ⟨((q.after (spaces k)).next c).cells (b :: cs), cols, [none], x, true, opening :: ts⟩ := by
    simp only [ready, inFlow, skipToToken_token _ _ _ hb]
  have hany : (x.any fun x => x.required && isStale (((q.after (spaces k)).next c).cell b) x) = false := by
    cases x with
    | none => rfl
    | some x =>
      cases hx : x.required with
      | false => simp [hx]
      | true => simp [hx, hnext x rfl hx]
  have hdrop : (⟨((q.after (spaces k)).next c).cells (b :: cs), cols, [none], x, true, opening :: ts⟩ :
      Scanner).dropStale? =
        some ⟨((q.after (spaces k)).next c).cells (b :: cs), cols, [none],
          keepFresh (((q.after (spaces k)).next c).cell b) x, true, opening :: ts⟩ := by
    simp [dropStale?, hcells, hany, keepFresh]
  rw [Nat.add_comm, run_succ, hready, hdrop]
  simp only [hcells]
  rw [hclose]
  simp [closeBlocks, inFlow, closeBracket?, dropKey?, currentKey, setKey, emit, allowKey, skip, outside]

end Leaves

theorem token_literal (u : Scanner) (q : Position) (cells : List Cell) (hu : u.brackets = []) :
    u.token? (q.cell '|') cells = u.block? false := by
  simp [token?, cell_char q '|' rfl, not_isMarker _ q '|' _ rfl, inFlow, hu]

/-- A literal block; what it reads or that it is refused. -/
theorem block_outside (hkey : ∀ x ∈ key, x.required = false) (q : Position) (cs : List Char) :
    (outside cols key allowed ts q ('|' :: cs)).block? false =
      (readBlockScalar? false cols.head? ((q.next '|').cells cs)).map fun r =>
        ⟨r.2, cols, [], none, true, .scalar .literal (String.ofList r.1) :: ts⟩ := by
  have hrest : (outside cols none allowed ts q ('|' :: cs)).rest.drop 1 = (q.next '|').cells cs := by
    simp [outside, cells_cons q '|' cs (by decide)]
  have hparent : (outside cols none allowed ts q ('|' :: cs)).parent = cols.head? := rfl
  rw [block?, dropKey_outside hkey]
  simp only [Option.bind_eq_bind, Option.bind_some, hrest, hparent, Bool.false_eq_true, if_false]
  cases readBlockScalar? false cols.head? ((q.next '|').cells cs) with
  | none => rfl
  | some r => rfl

section Blocks

variable {q' : Position} (hcols : ∀ m ∈ cols.head?, m ≤ (q.after (spaces k)).column)
  (hkey : ∀ x ∈ key, x.required = false)

include hcols hkey

theorem leads_block {text : List Char} {u : Scanner}
    (hread : readBlockScalar? false cols.head? (((q.after (spaces k)).next '|').cells cs) = some (text, q'.cells rest))
    (hrun : ∀ n, run n (outside cols none true (.scalar .literal (String.ofList text) :: ts) q' rest) = run n u)
    (hl : u.rest.length ≤ (((q.after (spaces k)).next '|').cells cs).length) :
    Leads (outside cols key allowed ts q (spaces k ++ '|' :: cs)) u := by
  refine leads_of_outside rfl hcols (.of_optional hkey) ?_ hrun hl
  rw [token_literal _ _ _ rfl, block_outside (fun x hx => hkey x (mem_of_mem_keepFresh hx)), hread]
  rfl

end Blocks

/-- A colon puts the mark of its key, and of the mapping that the key opens, in front of the key. -/
theorem value_outside {q₀ : Position} (ho : Opened q₀.column .blockMapping cols ts cols' ts') :
    (outside cols (some (possibleKey cols ts q₀)) false (front ++ ts) q (':' :: cs)).value? =
      some (outside cols' none false (.value :: (front ++ .key :: ts')) (q.next ':') cs) := by
  have hemit : (outside cols (some (possibleKey cols ts q₀)) false (front ++ ts) q (':' :: cs)).emitAt ts.length .key =
      outside cols (some (possibleKey cols ts q₀)) false (front ++ .key :: ts) q (':' :: cs) := emitAt_outside .key
  have hopen : (outside cols (some (possibleKey cols ts q₀)) false (front ++ [.key] ++ ts) q (':' :: cs)).openBlock
      q₀.column ts.length .blockMapping =
        outside cols' (some (possibleKey cols ts q₀)) false (front ++ [.key] ++ ts') q (':' :: cs) :=
    openBlock_outside ho
  have hset : (outside cols' (some (possibleKey cols ts q₀)) false (front ++ .key :: ts') q (':' :: cs)).setKey none =
      outside cols' none false (front ++ .key :: ts') q (':' :: cs) := rfl
  rw [List.append_assoc, List.singleton_append, List.append_assoc, List.singleton_append] at hopen
  have hcurrent : (outside cols (some (possibleKey cols ts q₀)) false (front ++ ts) q (':' :: cs)).currentKey =
      some (possibleKey cols ts q₀) := rfl
  have hposition : (possibleKey cols ts q₀).position = ts.length := rfl
  have hcolumn : (possibleKey cols ts q₀).column = q₀.column := rfl
  rw [value?, hcurrent]
  simp only [hposition, hcolumn, hemit, hopen, hset, emit_outside, allowKey_outside, skip_outside (c := ':') rfl]

theorem leads_keyColon {q₀ : Position} (ho : Opened q₀.column .blockMapping cols ts cols' ts')
    (hle : q₀.column ≤ q.column) (hstale : isStale (q.cell ':') (possibleKey cols ts q₀) = false)
    (hcs : endsWord cs = true) :
    Leads (outside cols (some (possibleKey cols ts q₀)) false (front ++ ts) q (':' :: cs))
      (outside cols' none false (.value :: (front ++ .key :: ts')) (q.next ':') cs) := by
  have hcols : ∀ m ∈ cols.head?, m ≤ (q.after (spaces 0)).column := fun m hm => Nat.le_trans (ho.le m hm) hle
  have hkey : ∀ x ∈ some (possibleKey cols ts q₀), isStale ((q.after (spaces 0)).cell ':') x = false := by
    rintro x ⟨⟩
    exact hstale
  refine leads_of_outside (k := 0) rfl hcols (fun x hx _ => hkey x hx) ?_ (fun _ => rfl) (Nat.le_refl _)
  rw [keepFresh_eq_self hkey, token_valueMark _ _ (by rwa [atWordEnd_cells])]
  exact value_outside ho

/-! ## Scalars at the end of a line and in a key -/

/-- A scalar may stand here at the end of its line: it is part of the collection around it, and no key is required
that it would keep from its colon. -/
structure EndsLine (cols : List Nat) (key : Option PossibleKey) (q : Position) (k : Nat) : Prop where
  inside : ∀ m ∈ cols.head?, m < (q.after (spaces k)).column
  optional : ∀ x ∈ key, x.required = false
  early : ∀ x ∈ key, x.line ≤ q.line

theorem EndsLine.mayStart {c : Char} (h : EndsLine cols key q k) (hc : opensToken c = true) :
    MayStart cols key allowed q k c :=
  ⟨hc, fun m hm => Nat.le_of_lt (h.inside m hm), .of_optional h.optional, fun _ => h.optional⟩

theorem EndsLine.saved {d : Cell} (h : EndsLine cols key q k) :
    ∀ x ∈ saved cols (keepFresh d key) allowed ts (q.after (spaces k)), x.required = false ∧ x.line ≤ q.line := by
  intro x hx
  unfold Scanner.saved at hx
  split at hx
  · cases hx
    refine ⟨?_, ?_⟩
    · rw [possibleKey, decide_eq_false_iff_not]
      exact fun hhead => absurd (h.inside _ hhead) (Nat.lt_irrefl _)
    · simp only [possibleKey, after_spaces]
      exact Nat.le_refl _
  · exact ⟨h.optional x (mem_of_mem_keepFresh hx), h.early x (mem_of_mem_keepFresh hx)⟩

/-- A scalar of `length` characters may stand here in a key: if the key has started before, it is near enough. -/
structure InKey (cols : List Nat) (key : Option PossibleKey) (allowed : Bool) (q : Position) (k length : Nat) :
    Prop where
  inside : ∀ m ∈ cols.head?, m ≤ (q.after (spaces k)).column
  free : allowed = true → ∀ x ∈ key, x.required = false
  near : ∀ x ∈ key, x.line = q.line ∧ q.index + k + length ≤ x.index + 1024

theorem InKey.keepFresh (h : InKey cols key allowed q k n) (c : Char) :
    keepFresh ((q.after (spaces k)).cell c) key = key := by
  refine keepFresh_eq_self fun x hx => ?_
  obtain ⟨hline, hindex⟩ := h.near x hx
  rw [after_spaces]
  have hfar : ¬ x.index + 1024 < q.index + k := by omega
  simp [isStale, hline, hfar]

theorem InKey.mayStart {c : Char} (h : InKey cols key allowed q k n) (hc : opensToken c = true) :
    MayStart cols key allowed q k c := by
  refine ⟨hc, h.inside, fun x hx _ => ?_, h.free⟩
  rw [← h.keepFresh c] at hx
  simpa using (Option.filter_eq_some_iff.mp hx).2

end Scanner

end CiWorkflow.Yaml
