import CiWorkflow.Proofs.Files.FileName
import CiWorkflow.Proofs.Generate.Scan
import Mathlib.Data.Char
import Mathlib.Data.List.Forall2
import Mathlib.Data.List.Sort

/-!
# The definitions of a directory, in order

Scanning a directory gives one definition for each file whose name is that of a definition, in the order of the
bytes of the names, or the failure of the first of them that does not load. This depends on what the directory
holds and not on the order in which it is listed. The bytes of a character that comes later are greater at the
first place where they differ, whatever stands behind them.
-/
set_option autoImplicit false

/-! ## The order of bytes -/

namespace CiWorkflow.Text

def bytes (s : String) : List UInt8 := s.toUTF8.data.toList

theorem bytes_eq (s : String) : bytes s = s.toList.flatMap String.utf8EncodeChar := by
  rw [bytes, String.toUTF8_eq_toByteArray, ← String.utf8Encode_toList, List.utf8Encode, List.toList_data_toByteArray]

theorem utf8EncodeChar_append_lt {a b : Char} (h : a < b) (x y : List UInt8) :
    String.utf8EncodeChar a ++ x < String.utf8EncodeChar b ++ y := by
  have hval : a.val.toNat < b.val.toNat := h
  have hmax : b.val.toNat < 1114112 := by
    obtain hlow | ⟨-, hhigh⟩ := b.valid
    · exact Nat.lt_trans hlow (by decide)
    · exact hhigh
  -- the bytes behind the first one are digits to the base 64
  have hdigits : ∀ v : Nat, v / 4096 = v / 64 / 64 ∧ v / 262144 = v / 64 / 64 / 64 := fun v => by omega
  simp only [String.utf8EncodeChar, hdigits]
  generalize a.val.toNat = m at *
  generalize b.val.toNat = n at *
  split_ifs <;>
    simp only [List.cons_append, List.nil_append, List.cons_lt_cons_iff, UInt8.lt_iff_toNat_lt, ← UInt8.toNat_inj,
      UInt8.toNat_ofNat'] <;>
    omega

theorem flatMap_utf8EncodeChar_lt {cs ds : List Char} (h : cs < ds) :
    cs.flatMap String.utf8EncodeChar < ds.flatMap String.utf8EncodeChar := by
  induction ds generalizing cs with
  | nil => exact absurd h (List.not_lt_nil cs)
  | cons d ds ih =>
    rw [List.flatMap_cons]
    cases cs with
    | nil =>
      have hne : String.utf8EncodeChar d ++ ds.flatMap String.utf8EncodeChar ≠ [] := by
        simp [String.utf8EncodeChar_ne_nil]
      obtain ⟨first, rest, heq⟩ := List.exists_cons_of_ne_nil hne
      rw [heq]
      exact List.nil_lt_cons ..
    | cons c cs =>
      rw [List.flatMap_cons]
      rcases List.cons_lt_cons_iff.mp h with hlt | ⟨rfl, hrest⟩
      · exact utf8EncodeChar_append_lt hlt _ _
      · exact List.append_left_lt (ih hrest)

theorem bytes_lt {s t : String} (h : s < t) : bytes s < bytes t := by
  rw [bytes_eq, bytes_eq]
  exact flatMap_utf8EncodeChar_lt h

theorem eq_of_increasing {ss ts : List String} (hs : ss.Pairwise fun a b => bytes a < bytes b)
    (ht : ts.Pairwise fun a b => bytes a < bytes b) (h : ∀ s, s ∈ ss ↔ s ∈ ts) : ss = ts := by
  have hirrefl : Std.Irrefl fun a b : String => bytes a < bytes b := ⟨fun a => List.lt_irrefl (bytes a)⟩
  have hasymm : Std.Asymm fun a b : String => bytes a < bytes b := ⟨fun a b => List.lt_asymm⟩
  exact hs.eq_of_mem_iff ht h

end CiWorkflow.Text

namespace CiWorkflow

open Log CiWorkflow.Task Text

/-! ## Going through a list -/

section Steps

variable {α β ε : Type} {f : α → Except ε β} {as : List α}

theorem mapM_eq_ok_iff {bs : List β} : as.mapM f = .ok bs ↔ List.Forall₂ (fun a b => f a = .ok b) as bs := by
  induction as generalizing bs with
  | nil =>
    rw [List.mapM_nil, List.forall₂_nil_left_iff]
    exact ⟨fun h => (Except.ok.inj h).symm, fun h => congrArg _ h.symm⟩
  | cons a as ih =>
    simp only [List.mapM_cons, bind_eq_ok, ih, List.forall₂_cons_left_iff]
    refine exists_congr fun b => ⟨?_, ?_⟩
    · rintro ⟨hb, bs', hbs, h⟩
      exact ⟨bs', hb, hbs, (Except.ok.inj h).symm⟩
    · rintro ⟨bs', hb, hbs, rfl⟩
      exact ⟨hb, bs', hbs, rfl⟩

theorem mapM_eq_error_iff {e : ε} :
    as.mapM f = .error e ↔ ∃ before a after, as = before ++ a :: after ∧
      (∀ earlier ∈ before, ∃ b, f earlier = .ok b) ∧ f a = .error e := by
  induction as with
  | nil => exact ⟨nofun, by rintro ⟨before, a, after, h, -⟩; simp at h⟩
  | cons first as ih =>
    have hcons : (first :: as).mapM f = .error e ↔
        f first = .error e ∨ (∃ b, f first = .ok b) ∧ as.mapM f = .error e := by
      rw [List.mapM_cons]
      simp only [bind_eq_error]
      exact ⟨by rintro (h | ⟨b, hb, h | ⟨bs, -, ⟨⟩⟩⟩); exacts [.inl h, .inr ⟨⟨b, hb⟩, h⟩],
        by rintro (h | ⟨⟨b, hb⟩, h⟩); exacts [.inl h, .inr ⟨b, hb, .inl h⟩]⟩
    rw [hcons, ih]
    constructor
    · rintro (h | ⟨hfirst, before, a, after, rfl, hbefore, ha⟩)
      · exact ⟨[], first, as, rfl, nofun, h⟩
      · exact ⟨first :: before, a, after, rfl, List.forall_mem_cons.mpr ⟨hfirst, hbefore⟩, ha⟩
    · rintro ⟨before, a, after, h, hbefore, ha⟩
      cases before with
      | nil =>
        cases h
        exact .inl ha
      | cons c before =>
        cases h
        rw [List.forall_mem_cons] at hbefore
        exact .inr ⟨hbefore.1, before, a, after, rfl, hbefore.2, ha⟩

end Steps

variable {t t' : Tree} {p : Place} {dir outputDir suffix name : String} {ns names : List String}

/-! ## Which names count -/

namespace Definition

/-- Neither hidden nor generated, and with one of the extensions in any case of letters. -/
structure IsSourceName (suffix name : String) : Prop where
  notHidden : name.toList.head? ≠ some '.'
  notOutput : ¬ suffix.toList <:+ name.toList
  extension : ∃ stem ext, name = stem ++ "." ++ ext ∧ '.' ∉ ext.toList ∧
    String.ofList (ext.toList.map Char.toLower) ∈ ["yml", "yaml", "json"]

theorem ne_empty_of_notHidden {stem ext : String} (h : (stem ++ "." ++ ext).toList.head? ≠ some '.') : stem ≠ "" := by
  rintro rfl
  simp at h

theorem isName_iff : isName suffix name = true ↔ IsSourceName suffix name := by
  constructor
  · intro h
    simp only [isName, Bool.and_eq_true, decide_eq_true_eq, Bool.not_eq_true', Bool.eq_false_iff, ne_eq,
      List.isSuffixOf_iff_suffix] at h
    obtain ⟨⟨hhidden, hsuffix⟩, hext⟩ := h
    refine ⟨hhidden, hsuffix, ?_⟩
    split at hext
    · rename_i ext hsplit
      obtain ⟨hname, -, hdot⟩ := Path.splitName_eq_some_iff.mp (Prod.ext rfl hsplit)
      refine ⟨String.ofList (Path.splitName name).1, String.ofList ext, ?_, by simpa using hdot, ?_⟩
      · exact String.toList_inj.mp (by simpa using hname)
      · simpa [extensions] using hext
    · cases hext
  · rintro ⟨hhidden, hsuffix, stem, ext, rfl, hdot, hext⟩
    have hsplit : Path.splitName (stem ++ "." ++ ext) = (stem.toList, some ext.toList) :=
      Path.splitName_eq_some_iff.mpr ⟨by simp, by simpa using ne_empty_of_notHidden hhidden, hdot⟩
    simp only [isName, hsplit, Bool.and_eq_true, decide_eq_true_eq, Bool.not_eq_true', Bool.eq_false_iff, ne_eq,
      List.isSuffixOf_iff_suffix, List.contains_iff_mem]
    exact ⟨⟨hhidden, hsuffix⟩, hext⟩

/-- A file directly inside a directory whose name is that of a definition. -/
structure IsSource (t : Tree) (dir suffix name : String) : Prop where
  file : ∃ p bytes, t.locate dir = .ok p ∧ t.get? (p ++ [name]) = some (.file bytes)
  named : IsSourceName suffix name

theorem IsSource.isEntryName (ht : t.IsProper) (h : IsSource t dir suffix name) : IsEntryName name := by
  obtain ⟨p, bytes, -, hget⟩ := h.file
  exact ht.entries _ (Tree.mem_places_of_file hget) name (by simp)

theorem isSource_congr (h : t.HoldsSame t') : IsSource t' dir suffix name ↔ IsSource t dir suffix name := by
  constructor <;> rintro ⟨⟨p, bytes, hp, hget⟩, hname⟩
  · exact ⟨⟨p, bytes, (h.locate dir).symm.trans hp, (h.get _).symm.trans hget⟩, hname⟩
  · exact ⟨⟨p, bytes, (h.locate dir).trans hp, (h.get _).trans hget⟩, hname⟩

end Definition

/-! ## What is selected -/

namespace Tree

open Definition

theorem mem_select_iff (ht : t.IsProper) (hns : t.names dir = .ok ns) :
    name ∈ t.select dir suffix ns ↔ IsSource t dir suffix name := by
  obtain ⟨hdir, p, hp, -⟩ := names_eq_ok_iff.mp hns
  rw [select, List.mem_mergeSort, List.mem_filter, List.mem_filter, isName_iff, mem_names_iff hp hns, isFile_iff]
  constructor
  · rintro ⟨⟨hmem, bytes, hfind⟩, hname⟩
    have hentry := ht.entries _ hmem name (by simp)
    exact ⟨⟨p, bytes, hp, (find_join_eq_file_iff hentry hdir hp).mp hfind⟩, hname⟩
  · intro h
    obtain ⟨q, bytes, hq, hget⟩ := h.file
    cases hq.symm.trans hp
    exact ⟨⟨mem_places_of_file hget, bytes, (find_join_eq_file_iff (h.isEntryName ht) hdir hp).mpr hget⟩, h.named⟩

theorem pairwise_select (ht : t.IsProper) (hns : t.names dir = .ok ns) :
    (t.select dir suffix ns).Pairwise fun a b => bytes a < bytes b := by
  have hsorted : (t.select dir suffix ns).Pairwise fun a b => decide (a ≤ b) = true :=
    List.pairwise_mergeSort (fun a b c hab hbc => by
      simp only [decide_eq_true_eq] at *
      exact String.le_trans hab hbc) (fun a b => by simpa using String.le_total a b) _
  have hnodup : (t.select dir suffix ns).Nodup :=
    List.nodup_mergeSort.mpr (((nodup_names ht hns).filter _).filter _)
  exact hsorted.imp₂ (fun a b hle hne => bytes_lt (Std.lt_of_le_of_ne (of_decide_eq_true hle) hne)) hnodup

/-- What is selected does not depend on the order in which the tree is listed. -/
theorem select_eq_of_holdsSame (ht : t.IsProper) (ht' : t'.IsProper) (h : t.HoldsSame t') {ns' : List String}
    (hns : t.names dir = .ok ns) (hns' : t'.names dir = .ok ns') :
    t'.select dir suffix ns' = t.select dir suffix ns := by
  refine eq_of_increasing (pairwise_select ht' hns') (pairwise_select ht hns) fun name => ?_
  rw [mem_select_iff ht' hns', mem_select_iff ht hns, isSource_congr h]

theorem exists_names (hdir : t.find dir = .ok .directory) : ∃ ns, t.names dir = .ok ns := by
  obtain ⟨p, hp, -⟩ := find_eq_ok_iff.mp hdir
  exact ⟨_, names_eq_ok_iff.mpr ⟨hdir, p, hp, rfl⟩⟩

theorem definitions_eq (hns : t.names dir = .ok ns) :
    t.definitions dir outputDir suffix =
      (t.select dir suffix ns).mapM fun name => t.definition (Path.join dir name) outputDir suffix := by
  rw [definitions, hns]
  rfl

theorem definitions_eq_of_holdsSame (ht : t.IsProper) (ht' : t'.IsProper) (h : t.HoldsSame t')
    (hdir : t.find dir = .ok .directory) :
    t'.definitions dir outputDir suffix = t.definitions dir outputDir suffix := by
  obtain ⟨ns, hns⟩ := exists_names hdir
  obtain ⟨ns', hns'⟩ := exists_names ((h.find dir).trans hdir)
  rw [definitions_eq hns, definitions_eq hns', select_eq_of_holdsSame ht ht' h hns hns']
  simp only [definition, workflow, h.read]

theorem exists_definition_ok_iff {source : String} :
    (∃ d, t.definition source outputDir suffix = .ok d) ↔ ∃ w, t.workflow source = .ok w := by
  simp only [definition, bind_eq_ok]
  constructor
  · rintro ⟨d, w, hw, -⟩
    exact ⟨w, hw⟩
  · rintro ⟨w, hw⟩
    exact ⟨_, w, hw, rfl⟩

end Tree

namespace Definition

/-- The definition of a name: where it comes from, the workflow there, and the file to be generated. -/
structure IsLoaded (t : Tree) (dir outputDir suffix name : String) (d : Definition) : Prop where
  source : d.source = Path.join dir name
  workflow : t.workflow d.source = .ok d.workflow
  output : ∃ stem ext, name = stem ++ "." ++ ext ∧ '.' ∉ ext.toList ∧
    d.output = Path.join outputDir (outputFileName stem suffix)

theorem definition_eq_ok_iff (hname : IsName name) (hsource : IsSourceName suffix name) {d : Definition} :
    t.definition (Path.join dir name) outputDir suffix = .ok d ↔ IsLoaded t dir outputDir suffix name d := by
  have hstem : ∀ stem ext, name = stem ++ "." ++ ext → '.' ∉ ext.toList → Path.stem (Path.join dir name) = stem := by
    rintro stem ext rfl hext
    exact Path.stem_join dir hname (ne_empty_of_notHidden hsource.notHidden) hext
  rw [Tree.definition, bind_eq_ok]
  constructor
  · rintro ⟨w, hw, h⟩
    cases h
    obtain ⟨stem, ext, hdivides, hext, -⟩ := hsource.extension
    exact ⟨rfl, hw, stem, ext, hdivides, hext, by rw [hstem stem ext hdivides hext]⟩
  · rintro ⟨hfrom, hw, stem, ext, hdivides, hext, hto⟩
    obtain ⟨source, output, w⟩ := d
    cases hfrom
    refine ⟨w, hw, ?_⟩
    rw [hstem stem ext hdivides hext, ← hto]
    rfl

theorem exists_outputFileName_eq (stem suffix : String) :
    ∃ part, outputFileName stem suffix = part ++ suffix ∧ (∀ c ∈ part.toList, isBlank c = false) ∧
      foldBlanks part.toList = part.toList := by
  refine ⟨String.ofList (foldBlanks (lowercase (dropMain stem)).toList), rfl, fun c hc => ?_, ?_⟩
  · rw [String.toList_ofList] at hc
    exact isBlank_of_mem_foldBlanks hc
  · rw [String.toList_ofList]
    exact foldBlanks_foldBlanks _

/-- The definitions of a directory are those of its sources, in the order of the bytes of their names and
whatever the order in which the tree is listed. -/
theorem scan_exact (ht : t.IsProper) (hdir : t.find dir = .ok .directory) (outputDir suffix : String) :
    ∃ names : List String, ∃ r : Except Error (List Definition),
      (names.Pairwise fun a b => bytes a < bytes b) ∧
      (∀ name, name ∈ names ↔ IsSource t dir suffix name) ∧
      (∀ t', t'.IsProper → t.HoldsSame t' → Runs (scan dir outputDir suffix) t' r t') ∧
      (∀ ds, r = .ok ds ↔ List.Forall₂ (IsLoaded t dir outputDir suffix) names ds) ∧
      (∀ e, r = .error e ↔ ∃ before name after, names = before ++ name :: after ∧
        (∀ earlier ∈ before, ∃ w, t.workflow (Path.join dir earlier) = .ok w) ∧
        t.workflow (Path.join dir name) = .error e) ∧
      ∀ stem, ∃ part, outputFileName stem suffix = part ++ suffix ∧ (∀ c ∈ part.toList, isBlank c = false) ∧
        foldBlanks part.toList = part.toList := by
  obtain ⟨ns, hns⟩ := Tree.exists_names hdir
  have hmem : ∀ name, name ∈ t.select dir suffix ns ↔ IsSource t dir suffix name := fun _ =>
    Tree.mem_select_iff ht hns
  refine ⟨t.select dir suffix ns, t.definitions dir outputDir suffix, Tree.pairwise_select ht hns, hmem, ?_, ?_, ?_,
    fun stem => exists_outputFileName_eq stem suffix⟩
  · intro t' ht' h
    rw [← Tree.definitions_eq_of_holdsSame ht ht' h hdir]
    exact runs_scan t' dir outputDir suffix
  · intro ds
    rw [Tree.definitions_eq hns, mapM_eq_ok_iff]
    have hnames : ∀ name ∈ t.select dir suffix ns, IsName name ∧ IsSourceName suffix name := fun name hname =>
      ⟨(((hmem name).mp hname).isEntryName ht).toIsName, ((hmem name).mp hname).named⟩
    constructor <;> intro h <;> refine ((List.forall₂_and_left _ _).mpr ⟨hnames, h⟩).imp fun name d hd => ?_
    · exact (definition_eq_ok_iff hd.1.1 hd.1.2).mp hd.2
    · exact (definition_eq_ok_iff hd.1.1 hd.1.2).mpr hd.2
  · intro e
    rw [Tree.definitions_eq hns, mapM_eq_error_iff]
    simp only [Tree.exists_definition_ok_iff, definition_eq_error_iff]

/-- Two definitions among other files, listed in no order. -/
def mixedTree : Tree where
  entries := [(["r"], .directory), (["r", "a b.YAML"], .file "name: A\non: b\n".toUTF8),
    (["r", ".c.yml"], .file .empty), (["r", "B.json"], .file "\x7b\"name\":\"B\",\"on\":\"b\"\x7d".toUTF8),
    (["r", "d.generated.yml"], .file .empty), (["r", "e.txt"], .file .empty), (["r", "f.yml"], .directory)]
  base := ["r"]

theorem isSource_mixedTree_iff :
    IsSource mixedTree "/r" ".generated.yml" name ↔ name ∈ ["B.json", "a b.YAML"] := by
  have hplace : mixedTree.locate "/r" = .ok ["r"] := rfl
  constructor
  · rintro ⟨⟨p, bytes, hp, hget⟩, hname⟩
    cases hplace.symm.trans hp
    have hlisted : name ∈ ["a b.YAML", ".c.yml", "B.json", "d.generated.yml", "e.txt", "f.yml"] := by
      simpa [mixedTree] using Tree.mem_places_of_file hget
    have hcounts : ∀ name ∈ ["a b.YAML", ".c.yml", "B.json", "d.generated.yml", "e.txt", "f.yml"],
        isName ".generated.yml" name = true → name = "f.yml" ∨ name ∈ ["B.json", "a b.YAML"] := by decide +kernel
    obtain rfl | hmem := hcounts name hlisted (isName_iff.mpr hname)
    · cases hget
    · exact hmem
  · intro hmem
    have hfile : ∀ name ∈ ["B.json", "a b.YAML"], ∃ bytes, mixedTree.get? (["r"] ++ [name]) = some (.file bytes) := by
      simp [mixedTree, Tree.get?, entryAt?]
    have hname : ∀ name ∈ ["B.json", "a b.YAML"], isName ".generated.yml" name = true := by decide +kernel
    obtain ⟨bytes, hget⟩ := hfile name hmem
    exact ⟨⟨["r"], bytes, hplace, hget⟩, isName_iff.mp (hname name hmem)⟩

theorem scan_exact_mixed :
    mixedTree.IsProper ∧ mixedTree.find "/r" = .ok .directory ∧ ∃ ds : List Definition,
      List.Forall₂ (IsLoaded mixedTree "/r" "/out" ".generated.yml") ["B.json", "a b.YAML"] ds ∧
      ∀ t', t'.IsProper → mixedTree.HoldsSame t' → Runs (scan "/r" "/out" ".generated.yml") t' (.ok ds) t' := by
  have hproper : mixedTree.IsProper := ⟨by decide +kernel, by decide +kernel, by decide +kernel⟩
  have hdir : mixedTree.find "/r" = .ok .directory := rfl
  obtain ⟨names, r, hsorted, hmem, hruns, hok, herror, -⟩ := scan_exact hproper hdir "/out" ".generated.yml"
  have hordered : ["B.json", "a b.YAML"].Pairwise fun a b => bytes a < bytes b := by decide +kernel
  obtain rfl := eq_of_increasing hsorted hordered fun name => (hmem name).trans isSource_mixedTree_iff
  have hloads : ∀ name ∈ ["B.json", "a b.YAML"], (mixedTree.workflow (Path.join "/r" name)).isOk = true := by
    decide +kernel
  cases r with
  | error e =>
    obtain ⟨before, name, after, hnames, -, hfails⟩ := (herror e).mp rfl
    have hisOk := hloads name (hnames ▸ List.mem_append_right _ (List.mem_cons_self ..))
    rw [hfails] at hisOk
    cases hisOk
  | ok ds => exact ⟨hproper, hdir, ds, (hok ds).mp rfl, hruns⟩

end Definition

end CiWorkflow
