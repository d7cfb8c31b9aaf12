import CiWorkflow.Proofs.Yaml.Rebuilt

set_option autoImplicit false

namespace CiWorkflow.Yaml.Value

theorem sameEntries_iff (es fs : List (Value × Value)) :
    sameEntries es fs = true ↔ ∀ e ∈ es, ∃ f ∈ fs, same e.1 f.1 = true ∧ same e.2 f.2 = true := by
  induction es with
  | nil => simp [sameEntries]
  | cons e rest ih =>
    obtain ⟨k, v⟩ := e
    simp [sameEntries, ih]

theorem wellFormedEntries_iff {es : List (Value × Value)} :
    wellFormedEntries es ↔ ∀ e ∈ es, e.1.wellFormed ∧ e.2.wellFormed := by
  induction es with
  | nil => simp [wellFormedEntries]
  | cons e rest ih => simp [wellFormedEntries, ih]

mutual

theorem same_self (v : Value) : same v v = true := by
  cases v with
  | sequence items => exact sameItems_self items
  | mapping entries =>
    have hentries : sameEntries entries entries = true :=
      (sameEntries_iff entries entries).mpr fun e he => ⟨e, he, same_self_entries entries e he⟩
    simp [same, hentries]
  | tagged tag v => simp [same, same_self v]
  | float x => simp [same, Decimal.Binary64.same]
  | _ => simp [same]

theorem sameItems_self (vs : List Value) : sameItems vs vs = true := by
  cases vs with
  | nil => rfl
  | cons v rest => simp [sameItems, same_self v, sameItems_self rest]

theorem same_self_entries (es : List (Value × Value)) :
    ∀ e ∈ es, same e.1 e.1 = true ∧ same e.2 e.2 = true := by
  cases es with
  | nil => simp
  | cons e rest =>
    obtain ⟨k, v⟩ := e
    exact List.forall_mem_cons.mpr ⟨⟨same_self k, same_self v⟩, same_self_entries rest⟩

end

/-! ## Pairs of entries -/

/-- Where each member has a partner, no two share one, and there are no more partners than members, all of them
come in pairs. -/
theorem exists_pairs {α β : Type} {R : α → β → Prop} {as : List α} {bs : List β} (hlength : as.length = bs.length)
    (hpartner : ∀ a ∈ as, ∃ b ∈ bs, R a b) (hshare : as.Pairwise fun a a' => ∀ b ∈ bs, R a b → ¬ R a' b) :
    ∃ ps : List (α × β), ps.map Prod.fst = as ∧ (ps.map Prod.snd).Perm bs ∧ ∀ p ∈ ps, R p.1 p.2 := by
  induction as generalizing bs with
  | nil =>
    obtain rfl := List.length_eq_zero_iff.mp hlength.symm
    exact ⟨[], rfl, .nil, by simp⟩
  | cons a rest ih =>
    obtain ⟨b, hb, hab⟩ := hpartner a (by simp)
    obtain ⟨front, back, rfl⟩ := List.append_of_mem hb
    obtain ⟨hfirst, hothers⟩ := List.pairwise_cons.mp hshare
    have hsub {c : β} (hc : c ∈ front ++ back) : c ∈ front ++ b :: back :=
      (List.mem_append.mp hc).elim (List.mem_append_left _) fun h => List.mem_append_right _ (List.mem_cons_of_mem _ h)
    have hrest (a' : α) (ha' : a' ∈ rest) : ∃ c ∈ front ++ back, R a' c := by
      obtain ⟨c, hc, hac⟩ := hpartner a' (by simp [ha'])
      have hne : c ≠ b := fun heq => hfirst a' ha' b hb hab (heq ▸ hac)
      refine ⟨c, ?_, hac⟩
      simpa [hne] using hc
    obtain ⟨ps, hfst, hsnd, hps⟩ := ih (by simp at hlength ⊢; omega) hrest
      (hothers.imp fun h c hc => h c (hsub hc))
    exact ⟨(a, b) :: ps, by simp [hfst], (hsnd.cons b).trans List.perm_middle.symm,
      List.forall_mem_cons.mpr ⟨hab, hps⟩⟩

def SameEntry (e f : Value × Value) : Prop := same e.1 f.1 = true ∧ same e.2 f.2 = true

/-- What is the same as one part of an entry is the same, where the second has distinct keys. -/
def JoinsAt (g : Value × Value) : Prop :=
  ∀ a b : Value, b.wellFormed → (same a g.1 = true → same b g.1 = true → same a b = true) ∧
    (same a g.2 = true → same b g.2 = true → same a b = true)

theorem not_share {fs gs : List (Value × Value)} (hgs : ∀ g ∈ gs, JoinsAt g) (hkeys : distinctKeys fs)
    (hparts : wellFormedEntries fs) : fs.Pairwise fun f f' => ∀ g ∈ gs, SameEntry f g → ¬ SameEntry f' g := by
  have hdistinct := List.pairwise_map.mp (distinctKeys_iff.mp hkeys)
  refine hdistinct.imp_of_mem fun {f f'} _ hf' hne g hg hfg hfg' => ?_
  have hsame := (hgs g hg f.1 f'.1 (wellFormedEntries_iff.mp hparts f' hf').1).1 hfg.1 hfg'.1
  rw [hne] at hsame
  cases hsame

theorem exists_pairs_of_same {fs gs : List (Value × Value)} (hgs : ∀ g ∈ gs, JoinsAt g)
    (hf : (mapping fs).wellFormed) (h : same (.mapping fs) (.mapping gs) = true) :
    ∃ ps : List ((Value × Value) × (Value × Value)), ps.map Prod.fst = fs ∧ (ps.map Prod.snd).Perm gs ∧
      ∀ p ∈ ps, SameEntry p.1 p.2 := by
  simp only [wellFormed, Bool.and_eq_true] at hf
  simp only [same, Bool.and_eq_true, decide_eq_true_eq, sameEntries_iff] at h
  exact exists_pairs h.1 h.2 (not_share hgs hf.1 hf.2)

theorem sameFloat_of_same {x y z : Decimal.Binary64} (hxz : x.same z = true) (hyz : y.same z = true) :
    x.same y = true := by
  have hzero {x : Decimal.Binary64} (h : x.magnitude = 0) : x.isNan = false := by
    simp [Decimal.Binary64.isNan, Decimal.Binary64.kind, h]
  simp only [Decimal.Binary64.same, Bool.or_eq_true, Bool.and_eq_true, decide_eq_true_eq] at hxz hyz ⊢
  obtain (rfl | ⟨hx, hz⟩) | ⟨hx, hz⟩ := hxz
  · obtain (rfl | ⟨hy, hx⟩) | ⟨hy, hx⟩ := hyz
    · exact .inl (.inl rfl)
    · exact .inl (.inr ⟨hx, hy⟩)
    · exact .inr ⟨hx, hy⟩
  · obtain (rfl | ⟨hy, -⟩) | ⟨-, hzero'⟩ := hyz
    · exact .inl (.inr ⟨hx, hz⟩)
    · exact .inl (.inr ⟨hx, hy⟩)
    · rw [hzero hzero'] at hz
      cases hz
  · obtain (rfl | ⟨-, hnan⟩) | ⟨hy, -⟩ := hyz
    · exact .inr ⟨hx, hz⟩
    · rw [hzero hz] at hnan
      cases hnan
    · exact .inr ⟨hx, hy⟩

mutual

/-- What is the same as one value is the same, where the second has distinct keys. -/
theorem same_of_same (c : Value) {a b : Value} (hb : b.wellFormed) (hac : same a c = true) (hbc : same b c = true) :
    same a b = true := by
  cases c with
  | sequence gs =>
    cases a <;> try cases hac
    cases b <;> try cases hbc
    exact sameItems_of_same gs hb hac hbc
  | mapping gs =>
    cases a <;> try cases hac
    cases b <;> try cases hbc
    rename_i es fs
    obtain ⟨ps, hfst, hsnd, hps⟩ := exists_pairs_of_same (joins_of_same gs) hb hbc
    simp only [same, Bool.and_eq_true, decide_eq_true_eq, sameEntries_iff] at hac hbc ⊢
    refine ⟨hac.1.trans hbc.1.symm, fun e he => ?_⟩
    obtain ⟨g, hg, hkey, hvalue⟩ := hac.2 e he
    obtain ⟨p, hp, rfl⟩ := List.mem_map.mp (hsnd.mem_iff.mpr hg)
    have hmem : p.1 ∈ fs := hfst ▸ List.mem_map_of_mem hp
    have hwell := wellFormedEntries_iff.mp (Bool.and_eq_true_iff.mp hb).2 p.1 hmem
    have hjoins := joins_of_same gs p.2 hg
    exact ⟨p.1, hmem, (hjoins _ _ hwell.1).1 hkey (hps p hp).1, (hjoins _ _ hwell.2).2 hvalue (hps p hp).2⟩
  | tagged t c =>
    cases a <;> try cases hac
    cases b <;> try cases hbc
    simp only [same, Bool.and_eq_true, decide_eq_true_eq] at hac hbc ⊢
    exact ⟨hac.1.trans hbc.1.symm, same_of_same c hb hac.2 hbc.2⟩
  | float z =>
    cases a <;> try cases hac
    cases b <;> try cases hbc
    exact sameFloat_of_same hac hbc
  | _ =>
    cases a <;> try cases hac
    cases b <;> try cases hbc
    simp_all [same]

theorem sameItems_of_same (gs : List Value) {as bs : List Value} (hb : wellFormedItems bs)
    (hac : sameItems as gs = true) (hbc : sameItems bs gs = true) : sameItems as bs = true := by
  cases gs with
  | nil =>
    cases as <;> cases hac
    cases bs <;> cases hbc
    rfl
  | cons g rest =>
    cases as with
    | nil => cases hac
    | cons a as =>
      cases bs with
      | nil => cases hbc
      | cons b bs =>
        simp only [wellFormedItems, sameItems, Bool.and_eq_true] at hb hac hbc ⊢
        exact ⟨same_of_same g hb.1 hac.1 hbc.1, sameItems_of_same rest hb.2 hac.2 hbc.2⟩

theorem joins_of_same (gs : List (Value × Value)) : ∀ g ∈ gs, JoinsAt g := by
  cases gs with
  | nil => simp
  | cons g rest =>
    obtain ⟨k, v⟩ := g
    exact List.forall_mem_cons.mpr
      ⟨fun a b hb => ⟨same_of_same k hb, same_of_same v hb⟩, joins_of_same rest⟩

end

/-! ## Texts -/

mutual

def textLength : Value → Nat
  | .string s => s.length
  | .sequence items => itemLength items
  | .mapping entries => entryLength entries
  | .tagged _ v => textLength v
  | _ => 0

def itemLength : List Value → Nat
  | [] => 0
  | v :: rest => textLength v + itemLength rest

def entryLength : List (Value × Value) → Nat
  | [] => 0
  | (k, v) :: rest => textLength k + textLength v + entryLength rest

end

theorem entryLength_perm {es fs : List (Value × Value)} (h : es.Perm fs) : entryLength es = entryLength fs := by
  induction h with
  | nil => rfl
  | cons e _ ih => rw [entryLength, entryLength, ih]
  | swap e f rest =>
    simp only [entryLength]
    omega
  | trans _ _ ih ih' => exact ih.trans ih'

theorem entryLength_pairs (ps : List ((Value × Value) × (Value × Value)))
    (h : ∀ p ∈ ps, p.1.1.textLength = p.2.1.textLength ∧ p.1.2.textLength = p.2.2.textLength) :
    entryLength (ps.map Prod.fst) = entryLength (ps.map Prod.snd) := by
  induction ps with
  | nil => rfl
  | cons p rest ih =>
    obtain ⟨⟨hkey, hvalue⟩, hrest⟩ := List.forall_mem_cons.mp h
    simp only [List.map_cons, entryLength, hkey, hvalue, ih hrest]

mutual

theorem textLength_of_same (v : Value) {w : Value} (hv : v.wellFormed) (h : same v w = true) :
    v.textLength = w.textLength := by
  cases v with
  | sequence items =>
    cases w <;> try cases h
    exact itemLength_of_same items hv h
  | mapping es =>
    cases w <;> try cases h
    rename_i fs
    obtain ⟨ps, hfst, hsnd, hps⟩ := exists_pairs_of_same (joins_of_same fs) hv h
    have hlength := entryLength_of_same es (Bool.and_eq_true_iff.mp hv).2
    rw [textLength, textLength, ← entryLength_perm hsnd, ← entryLength_pairs ps fun p hp => ?_, hfst]
    have hentry := hlength p.1 (hfst ▸ List.mem_map_of_mem hp)
    exact ⟨hentry.1 _ (hps p hp).1, hentry.2 _ (hps p hp).2⟩
  | tagged t v =>
    cases w <;> try cases h
    simp only [same, Bool.and_eq_true, decide_eq_true_eq] at h
    rw [textLength, textLength, textLength_of_same v hv h.2]
  | string s =>
    cases w <;> try cases h
    simp only [same, decide_eq_true_eq] at h
    rw [h]
  | _ =>
    cases w <;> try cases h
    rfl

theorem itemLength_of_same (vs : List Value) {ws : List Value} (hvs : wellFormedItems vs)
    (h : sameItems vs ws = true) : itemLength vs = itemLength ws := by
  cases vs with
  | nil =>
    cases ws <;> cases h
    rfl
  | cons v rest =>
    cases ws with
    | nil => cases h
    | cons w ws =>
      simp only [wellFormedItems, sameItems, Bool.and_eq_true] at hvs h
      rw [itemLength, itemLength, textLength_of_same v hvs.1 h.1, itemLength_of_same rest hvs.2 h.2]

theorem entryLength_of_same (es : List (Value × Value)) (hes : wellFormedEntries es) : ∀ e ∈ es,
    (∀ w, same e.1 w = true → e.1.textLength = w.textLength) ∧
      ∀ w, same e.2 w = true → e.2.textLength = w.textLength := by
  cases es with
  | nil => simp
  | cons e rest =>
    obtain ⟨k, v⟩ := e
    simp only [wellFormedEntries, Bool.and_eq_true] at hes
    exact List.forall_mem_cons.mpr ⟨⟨fun w => textLength_of_same k hes.1.1, fun w => textLength_of_same v hes.1.2⟩,
      entryLength_of_same rest hes.2⟩

end

end CiWorkflow.Yaml.Value
