import CiWorkflow.Proofs.Render.Laid
import CiWorkflow.Proofs.Yaml.AtPlace

set_option autoImplicit false

namespace CiWorkflow.Render

open Yaml Yaml.Scanner Yaml.Value Position

/-! ## What can be read -/

/-- The scripts that are laid out are texts of the value, and blocks can show them. -/
def TakesScripts (script : Value → Value → Option String) : Prop :=
  ∀ key v s, script key v = some s → v = .string s ∧ isBlockSafe s = true

theorem takesScripts_none : TakesScripts fun _ _ => none := by
  simp [TakesScripts]

/-- A value that the encoder accepts, with integers that the reader accepts and tags that can be read. -/
structure CanBeRead (hasTag : Bool) (v : Value) : Prop where
  writable : writable hasTag v = true
  inRange : v.inRange = true
  legible : ∀ t, shownTag t ∈ tags v → IsLegible t

theorem CanBeRead.tagged {hasTag : Bool} {t : String} {v : Value} (h : CanBeRead hasTag (.tagged t v)) :
    hasTag = false ∧ IsLegible t ∧ CanBeRead true v := by
  obtain ⟨hwritable, hrange, htags⟩ := h
  simp only [Yaml.writable, Bool.and_eq_true, Bool.not_eq_true'] at hwritable
  exact ⟨hwritable.1, htags t (by simp [tags]), hwritable.2, hrange, fun u hu => htags u (by simp [tags, hu])⟩

structure CanAllBeRead (vs : List Value) : Prop where
  writable : writableItems vs = true
  inRange : itemsInRange vs = true
  legible : ∀ t, shownTag t ∈ itemTags vs → IsLegible t

theorem CanAllBeRead.cons {v : Value} {rest : List Value} (h : CanAllBeRead (v :: rest)) :
    CanBeRead false v ∧ CanAllBeRead rest := by
  obtain ⟨hwritable, hrange, htags⟩ := h
  rw [writableItems, Bool.and_eq_true] at hwritable
  rw [itemsInRange, Bool.and_eq_true] at hrange
  exact ⟨⟨hwritable.1, hrange.1, fun t ht => htags t (List.mem_append_left _ ht)⟩,
    hwritable.2, hrange.2, fun t ht => htags t (List.mem_append_right _ ht)⟩

theorem CanBeRead.items {hasTag : Bool} {vs : List Value} (h : CanBeRead hasTag (.sequence vs)) : CanAllBeRead vs :=
  ⟨h.writable, h.inRange, h.legible⟩

structure CanEntriesBeRead (es : List (Value × Value)) : Prop where
  writable : writableEntries es = true
  inRange : entriesInRange es = true
  legible : ∀ t, shownTag t ∈ entryTags es → IsLegible t

theorem CanEntriesBeRead.cons {e : Value × Value} {rest : List (Value × Value)} (h : CanEntriesBeRead (e :: rest)) :
    CanBeRead false e.1 ∧ CanBeRead false e.2 ∧ CanEntriesBeRead rest := by
  obtain ⟨hwritable, hrange, htags⟩ := h
  simp only [writableEntries, Bool.and_eq_true] at hwritable
  simp only [entriesInRange, Bool.and_eq_true] at hrange
  simp only [entryTags, List.mem_append] at htags
  exact ⟨⟨hwritable.1.1, hrange.1.1, fun t ht => htags t (.inl (.inl ht))⟩,
    ⟨hwritable.1.2, hrange.1.2, fun t ht => htags t (.inl (.inr ht))⟩,
    hwritable.2, hrange.2, fun t ht => htags t (.inr ht)⟩

theorem CanBeRead.entries {hasTag : Bool} {es : List (Value × Value)} (h : CanBeRead hasTag (.mapping es)) :
    CanEntriesBeRead es := by
  obtain ⟨hwritable, hrange, htags⟩ := h
  simp only [Yaml.writable, Bool.and_eq_true] at hwritable
  exact ⟨hwritable.2, hrange, htags⟩

theorem CanBeRead.legibleTag {key : Value} {hasTag : Bool} (h : CanBeRead hasTag key) : LegibleTag (untag key).1 := by
  cases key with
  | tagged t v =>
    rintro t ⟨⟩
    exact h.tagged.2.1
  | _ => exact legibleTag_none

/-! ## Reading -/

section Reading

variable {script : Value → Value → Option String} {indent : Nat} {p : Yaml.Place} {alone : Bool} {tag : Option String}
  {cols cols' : List Nat} {ts ts' : List Token} {q : Position} {tail : List Char} {n k : Nat}

theorem endsWord_opening (hp : p ≠ .root) (tag : Option String) (n : Nat) {X : List Char} :
    endsWord (p.opening tag ++ (spaces (p.lead tag n) ++ X)) = true := by
  cases p with
  | root => exact absurd rfl hp
  | value m => cases tag <;> rfl
  | item m | slot m => cases tag <;> rfl

theorem endsWord_laidNode (p : Yaml.Place) (hp : p ≠ .root) (tag : Option String) (v : Value) :
    endsWord (laidNode script indent p alone tag v) = true := by
  have hleaf {A : List Char} : endsWord (closeLine (p.gap ++ (tagLead tag ++ A))) = true := by
    have hgap : p.gap = [' '] := by
      cases p with
      | root => exact absurd rfl hp
      | _ => rfl
    rw [hgap, closeLine]
    split <;> rfl
  cases v with
  | tagged t v => exact endsWord_laidNode p hp (some t) v
  | sequence items =>
    cases items with
    | nil => exact hleaf
    | cons v rest => exact endsWord_opening hp tag _
  | mapping entries =>
    cases entries with
    | nil => exact hleaf
    | cons e rest => exact endsWord_opening hp tag _
  | _ => exact hleaf

theorem collects_laidItems {v : Value} {vs : List Value} (hn : (q.after (spaces k)).column = n)
    (ho : Opened n .blockSequence cols ts cols' ts')
    (hend : EndsNode (some n) (laidItems script indent n k alone (v :: vs)) tail)
    (hv : ∀ ts q X, q.column = n + 1 → EndsNode (some n) (laidNode script indent (.item n) alone none v) X →
      Reads false cols' true ts q (laidNode script indent (.item n) alone none v) X v.withOneNan)
    (hvs : ∀ ts q T, T = laidItems script indent n n (endsInFeed (laidNode script indent (.item n) alone none v)) vs →
      q.column = 0 → EndsNode (some n) T tail → Collects (ItemTokens (itemsWithOneNan vs)) cols' ts q T tail cols' ts) :
    Collects (ItemTokens (itemsWithOneNan (v :: vs))) cols ts q (laidItems script indent n k alone (v :: vs)) tail
      cols' ts' := by
  rw [laidItems] at hend ⊢
  have hword : endsWord (laidNode script indent (.item n) alone none v) = true :=
    endsWord_laidNode (.item n) (by simp) none v
  generalize laidNode script indent (.item n) alone none v = I at hend hv hvs hword ⊢
  have hcolumn : ((q.after (spaces k)).next '-').column = n + 1 := by rw [next_of_not_break _ '-' rfl, hn]
  have hnext : EndsNode (some n) I (laidItems script indent n n (endsInFeed I) vs ++ tail) := by
    refine (hend.suffix ⟨spaces k ++ ['-'], by simp⟩).next ?_
    cases vs with
    | nil => exact .inl rfl
    | cons w ws => exact .inr ⟨'-', _, rfl, rfl⟩
  have hitem := hv (.blockEntry :: ts') _ _ hcolumn hnext
  refine collects_item hn ho hword hitem fun ts => hvs ts _ _ rfl (column_after_of_endsIn hitem.ended _) ?_
  exact hend.suffix ⟨spaces k ++ '-' :: I, by simp⟩

theorem exists_first_of_entry (script : Value → Value → Option String) (indent n : Nat) (alone : Bool)
    {e : Value × Value} (h : e.1.inRange = true) :
    ∃ c cs, laidEntry script indent n alone e = c :: cs ∧ opensToken c = true := by
  obtain ⟨key, v⟩ := e
  rw [laidEntry]
  split
  · obtain ⟨c, cs, rfl, hc⟩ := exists_first_of_simpleKey ‹_› h
    exact ⟨c, _, rfl, hc⟩
  · exact ⟨'?', _, rfl, rfl⟩

theorem laidEntries_ne_nil {e : Value × Value} (h : e.1.inRange = true) (es : List (Value × Value)) :
    laidEntries script indent n k alone (e :: es) ≠ [] := by
  obtain ⟨c, cs, hE, -⟩ := exists_first_of_entry script indent n alone h
  simp [laidEntries, hE]

theorem collects_laidEntries {e : Value × Value} {es : List (Value × Value)} (hes : CanEntriesBeRead (e :: es))
    (hend : EndsNode (some n) (laidEntries script indent n k alone (e :: es)) tail)
    (he : ∀ X, EndsNode (some n) (laidEntry script indent n alone e) X →
      Collects (EntryTokens e.1.withOneNan e.2.withOneNan) cols ts q
        (spaces k ++ laidEntry script indent n alone e) X cols' ts')
    (hrest : ∀ ts q T, T = laidEntries script indent n n (endsInFeed (laidEntry script indent n alone e)) es →
      q.column = 0 → EndsNode (some n) T tail →
      Collects (RepresentsEntries · (entriesWithOneNan es)) cols' ts q T tail cols' ts) :
    Collects (RepresentsEntries · (entriesWithOneNan (e :: es))) cols ts q
      (laidEntries script indent n k alone (e :: es)) tail cols' ts' := by
  rw [laidEntries] at hend ⊢
  obtain ⟨c, cs, hE, -⟩ := exists_first_of_entry script indent n alone hes.cons.1.inRange
  have hne : spaces k ++ laidEntry script indent n alone e ≠ [] := by simp [hE]
  clear hE
  generalize laidEntry script indent n alone e = E at hend he hrest hne ⊢
  have hnext : EndsNode (some n) E (laidEntries script indent n n (endsInFeed E) es ++ tail) := by
    refine (hend.suffix ⟨spaces k, rfl⟩).next ?_
    cases es with
    | nil => exact .inl rfl
    | cons f fs =>
      obtain ⟨c, cs, hfirst, hc⟩ := exists_first_of_entry script indent n (endsInFeed E)
        hes.cons.2.2.cons.1.inRange
      exact .inr ⟨c, _, by rw [laidEntries, hfirst]; rfl, hc⟩
  have hentry := he _ hnext
  rw [← List.append_assoc]
  refine collects_entry hentry fun ts => hrest ts _ _ rfl (column_after_of_endsIn (hentry.endsIn hne) _) ?_
  exact hend.suffix ⟨spaces k ++ E, by simp⟩

theorem reads_scriptText {bare allowed asBlock : Bool} {s : String} (hs : isBlockSafe s = true) (hindent : indent ≤ 9)
    (htab : asBlock = true → ¬ StartsWithTab s) (hat : AtPlace (.value n) cols q)
    (hend : EndsNode cols.head? (scriptText indent n asBlock s) tail) :
    Reads bare cols allowed ts q (scriptText indent n asBlock s) tail (.string s) := by
  cases asBlock with
  | true => exact reads_scriptBlock hs (htab rfl) hindent hat hend.follows hend.feed
  | false => exact reads_quotedScript hs hat hend.follows

theorem collects_laidEntry {key v : Value} (hindent : indent ≤ 9) (hscript : TakesScripts script)
    (hkey : CanBeRead false key) (hn : (q.after (spaces k)).column = n)
    (ho : Opened n .blockMapping cols ts cols' ts')
    (htab : ∀ s ∈ entryBlocks script indent n alone (key, v), ¬ StartsWithTab s)
    (hend : EndsNode (some n) (laidEntry script indent n alone (key, v)) tail)
    (hname : ∀ (p : Yaml.Place) ts q X, AtPlace p cols' q → EndsNode cols'.head? (nodeText p none key) X →
      Reads p.bare cols' p.continuesLine ts q (nodeText p none key) X key.withOneNan)
    (hv : ∀ (p : Yaml.Place) ts q X, (∀ s ∈ nodeBlocks script indent p false none v, ¬ StartsWithTab s) →
      AtPlace p cols' q → EndsNode cols'.head? (laidNode script indent p false none v) X →
      Reads p.bare cols' p.continuesLine ts q (laidNode script indent p false none v) X v.withOneNan) :
    Collects (EntryTokens key.withOneNan v.withOneNan) cols ts q
      (spaces k ++ laidEntry script indent n alone (key, v)) tail cols' ts' := by
  rw [laidEntry] at hend ⊢
  rw [entryBlocks] at htab
  have hhead := ho.head
  cases hsimple : simpleKey? key with
  | some text =>
    simp only [hsimple] at hend htab ⊢
    cases hs : script key v with
    | some s =>
      obtain ⟨rfl, hsafe⟩ := hscript key v s hs
      simp only [hs] at hend htab ⊢
      have hbehind : EndsNode (some n) (scriptText indent n (alone && isPlainRun key) s) tail :=
        hend.suffix ⟨text ++ [':'], by simp⟩
      refine collects_simpleEntry hsimple hkey.inRange hkey.legibleTag hn ho rfl fun ts q hq => ?_
      refine reads_scriptText hsafe hindent (fun hblock => htab s ?_) ⟨hhead, hq⟩ (hhead.symm ▸ hbehind)
      simp [hblock]
    | none =>
      simp only [hs] at hend htab ⊢
      have hbehind : EndsNode (some n) (laidNode script indent (.value n) false none v) tail :=
        hend.suffix ⟨text ++ [':'], by simp⟩
      refine collects_simpleEntry hsimple hkey.inRange hkey.legibleTag hn ho (endsWord_laidNode (.value n) (by simp) none v)
        fun ts q hq => ?_
      exact hv (.value n) ts q tail htab ⟨hhead, hq⟩ (hhead.symm ▸ hbehind)
  | none =>
    simp only [hsimple] at hend htab ⊢
    have hword : endsWord (nodeText (.slot n) none key) = true := by
      rw [← laidNode_none indent (.slot n) false]
      exact endsWord_laidNode (.slot n) (by simp) none key
    have hkey' (X : List Char) (ts : List Token) (q : Position) (hq : q.column = n + 1) :
        Reads true cols' true ts q (nodeText (.slot n) none key) (Yaml.spaces n ++ ':' :: X) key.withOneNan :=
      hname (.slot n) ts q _ ⟨hhead, hq⟩ (hhead.symm ▸ endsNode_token rfl _ X)
    cases hs : script key v with
    | some s =>
      obtain ⟨rfl, hsafe⟩ := hscript key v s hs
      simp only [hs] at hend ⊢
      refine collects_explicitEntry hn ho hword rfl (hkey' _) fun ts q hq => ?_
      exact reads_quotedScript hsafe (p := .slot n) ⟨hhead, hq⟩ (hhead.symm ▸ hend.follows)
    | none =>
      simp only [hs] at hend htab ⊢
      have hbehind : EndsNode (some n) (laidNode script indent (.slot n) false none v) tail :=
        hend.suffix ⟨'?' :: (nodeText (.slot n) none key ++ (spaces n ++ [':'])), by simp⟩
      refine collects_explicitEntry hn ho hword (endsWord_laidNode (.slot n) (by simp) none v) (hkey' _) fun ts q hq => ?_
      exact hv (.slot n) ts q tail htab ⟨hhead, hq⟩ (hhead.symm ▸ hbehind)

end Reading

theorem column_spaces {q : Position} (h : q.column = 0) (n : Nat) : (q.after (spaces n)).column = n := by
  rw [spaces_eq, after_spaces, h]
  exact Nat.zero_add n

mutual

theorem reads_laidNode {script : Value → Value → Option String} {indent : Nat} (hindent : indent ≤ 9)
    (hscript : TakesScripts script) (p : Yaml.Place) (alone : Bool) (tag : Option String) (v : Value)
    {cols : List Nat} {ts : List Token} {q : Position} {tail : List Char} (hv : CanBeRead tag.isSome v)
    (ht : LegibleTag tag) (htab : ∀ s ∈ nodeBlocks script indent p alone tag v, ¬ StartsWithTab s)
    (hat : AtPlace p cols q)
    (hend : EndsNode cols.head? (laidNode script indent p alone tag v) tail) :
    Reads p.bare cols p.continuesLine ts q (laidNode script indent p alone tag v) tail (v.withOneNan.under tag) := by
  cases v with
  | tagged t v =>
    obtain ⟨htag, hlegible, hinner⟩ := hv.tagged
    obtain rfl : tag = none := by simpa using htag
    exact reads_laidNode hindent hscript p alone (some t) v hinner (fun _ hu => Option.some.inj hu ▸ hlegible) htab hat
      hend
  | sequence items =>
    cases items with
    | nil =>
      rw [laidNode_leaf rfl] at hend ⊢
      exact reads_leaf rfl hv.inRange ht hat hend.follows hend.feed
    | cons v vs =>
      rw [nodeBlocks, itemBlocks, List.forall_mem_append] at htab
      refine reads_sequence ht hat hend.follows (by simp [laidItems]) (by simp [itemsWithOneNan])
        fun ts cols' ts' ho => ?_
      refine collects_laidItems hat.column_sequence ho ((hend.mono ho.le).suffix ⟨_, rfl⟩) (fun ts q X hq hI => ?_)
        fun ts q T hT hq hend => ?_
      · exact reads_laidNode hindent hscript _ _ none v hv.items.cons.1 legibleTag_none htab.1 ⟨ho.head, hq⟩ (ho.head.symm ▸ hI)
      · subst hT
        exact reads_laidItems hindent hscript _ _ vs hv.items.cons.2 htab.2 ho.head hq hend
  | mapping entries =>
    cases entries with
    | nil =>
      rw [laidNode_leaf rfl] at hend ⊢
      exact reads_leaf rfl hv.inRange ht hat hend.follows hend.feed
    | cons e es =>
      rw [nodeBlocks, entriesBlocks, List.forall_mem_append] at htab
      refine reads_mapping ht hat hend.follows (laidEntries_ne_nil hv.entries.cons.1.inRange es)
        fun ts cols' ts' ho => ?_
      refine collects_laidEntries hv.entries ((hend.mono ho.le).suffix ⟨_, rfl⟩) (fun X hE => ?_)
        fun ts q T hT hq hend => ?_
      · exact reads_laidEntry hindent hscript _ _ e hv.entries.cons.1 hv.entries.cons.2.1 htab.1 hat.column_mapping ho
          hE
      · subst hT
        exact reads_laidEntries hindent hscript _ _ es hv.entries.cons.2.2 htab.2 ho.head hq hend
  | _ =>
    rw [laidNode_leaf rfl] at hend ⊢
    exact reads_leaf rfl hv.inRange ht hat hend.follows hend.feed

theorem reads_laidItems {script : Value → Value → Option String} {indent : Nat} (hindent : indent ≤ 9)
    (hscript : TakesScripts script) (n : Nat) (alone : Bool) (vs : List Value) {cols : List Nat}
    {ts : List Token} {q : Position} {tail : List Char}
    (hvs : CanAllBeRead vs) (htab : ∀ s ∈ itemBlocks script indent n alone vs, ¬ StartsWithTab s)
    (hn : cols.head? = some n) (hq : q.column = 0)
    (hend : EndsNode (some n) (laidItems script indent n n alone vs) tail) :
    Collects (ItemTokens (itemsWithOneNan vs)) cols ts q (laidItems script indent n n alone vs) tail cols ts := by
  cases vs with
  | nil => exact collects_nil itemTokens_nil
  | cons v vs =>
    rw [itemBlocks, List.forall_mem_append] at htab
    refine collects_laidItems (column_spaces hq n) (.stays hn) hend (fun ts q X hq hI => ?_) fun ts q T hT hq hend => ?_
    · exact reads_laidNode hindent hscript _ _ none v hvs.cons.1 legibleTag_none htab.1 ⟨hn, hq⟩ (hn.symm ▸ hI)
    · subst hT
      exact reads_laidItems hindent hscript _ _ vs hvs.cons.2 htab.2 hn hq hend

theorem reads_laidEntry {script : Value → Value → Option String} {indent : Nat} (hindent : indent ≤ 9)
    (hscript : TakesScripts script) (n : Nat) (alone : Bool) (e : Value × Value) {k : Nat}
    {cols cols' : List Nat} {ts ts' : List Token} {q : Position} {tail : List Char}
    (hkey : CanBeRead false e.1) (hv : CanBeRead false e.2)
    (htab : ∀ s ∈ entryBlocks script indent n alone e, ¬ StartsWithTab s) (hn : (q.after (spaces k)).column = n)
    (ho : Opened n .blockMapping cols ts cols' ts')
    (hend : EndsNode (some n) (laidEntry script indent n alone e) tail) :
    Collects (EntryTokens e.1.withOneNan e.2.withOneNan) cols ts q (spaces k ++ laidEntry script indent n alone e) tail
      cols' ts' := by
  obtain ⟨key, v⟩ := e
  refine collects_laidEntry hindent hscript hkey hn ho htab hend (fun p ts q X hat hK => ?_)
    fun p ts q X htab hat hV => ?_
  · rw [← laidNode_none indent p false] at hK ⊢
    have hblocks : ∀ s ∈ nodeBlocks (fun _ _ => none) indent p false none key, ¬ StartsWithTab s := by
      simp [nodeBlocks_none]
    exact reads_laidNode hindent takesScripts_none p false none key hkey legibleTag_none hblocks hat hK
  · exact reads_laidNode hindent hscript p false none v hv legibleTag_none htab hat hV

theorem reads_laidEntries {script : Value → Value → Option String} {indent : Nat} (hindent : indent ≤ 9)
    (hscript : TakesScripts script) (n : Nat) (alone : Bool) (es : List (Value × Value))
    {cols : List Nat} {ts : List Token} {q : Position} {tail : List Char}
    (hes : CanEntriesBeRead es) (htab : ∀ s ∈ entriesBlocks script indent n alone es, ¬ StartsWithTab s)
    (hn : cols.head? = some n) (hq : q.column = 0)
    (hend : EndsNode (some n) (laidEntries script indent n n alone es) tail) :
    Collects (RepresentsEntries · (entriesWithOneNan es)) cols ts q (laidEntries script indent n n alone es) tail
      cols ts := by
  cases es with
  | nil => exact collects_nil representsEntries_nil
  | cons e es =>
    rw [entriesBlocks, List.forall_mem_append] at htab
    refine collects_laidEntries hes hend (fun X hE => ?_) fun ts q T hT hq hend => ?_
    · exact reads_laidEntry hindent hscript _ _ e hes.cons.1 hes.cons.2.1 htab.1 (column_spaces hq n) (.stays hn) hE
    · subst hT
      exact reads_laidEntries hindent hscript _ _ es hes.cons.2.2 htab.2 hn hq hend

end

end CiWorkflow.Render
