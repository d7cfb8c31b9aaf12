import CiWorkflow.Generate.Scan
import CiWorkflow.Proofs.Files.Listing
import CiWorkflow.Proofs.Generate.Runs

/-!
# Which definitions a directory holds

Scanning a directory gives what its tree says, and says so again when the tree has grown: names that end as
those of generated files are passed over, so files written under such names are neither definitions nor do
they change one.
-/
set_option autoImplicit false

namespace CiWorkflow

open Log CiWorkflow.Task

variable {t t' : Tree} {p q : Place} {path dir name suffix : String} {bytes : ByteArray} {ns : List String}

namespace Tree

def workflow (t : Tree) (path : String) : Except Error Workflow :=
  (t.read path).mapError (.io path) >>= Workflow.load path

/-- The names of the definitions among the names in a directory, in order. -/
def select (t : Tree) (dir suffix : String) (names : List String) : List String :=
  ((names.filter fun name => t.isFile (Path.join dir name)).filter (Definition.isName suffix)).mergeSort
    fun a b => a ≤ b

def definition (t : Tree) (source outputDir suffix : String) : Except Error Definition := do
  let w ← t.workflow source
  return ⟨source, Path.join outputDir (outputFileName (Path.stem source) suffix), w⟩

def definitions (t : Tree) (sourceDir outputDir suffix : String) : Except Error (List Definition) := do
  let names ← (t.names sourceDir).mapError (.io sourceDir)
  (t.select sourceDir suffix names).mapM fun name => t.definition (Path.join sourceDir name) outputDir suffix

end Tree

theorem mapM_congr {α β ε : Type} {f g : α → Except ε β} {as : List α} (h : ∀ a ∈ as, f a = g a) :
    as.mapM f = as.mapM g := by
  induction as with
  | nil => rfl
  | cons a as ih =>
    rw [List.forall_mem_cons] at h
    rw [List.mapM_cons, List.mapM_cons, h.1, ih h.2]

theorem mem_of_mapM {α β ε : Type} {f : α → Except ε β} {as : List α} {bs : List β} (h : as.mapM f = .ok bs) :
    ∀ b ∈ bs, ∃ a ∈ as, f a = .ok b := by
  induction as generalizing bs with
  | nil =>
    rw [List.mapM_nil] at h
    cases h
    exact fun _ hb => absurd hb List.not_mem_nil
  | cons a as ih =>
    rw [List.mapM_cons] at h
    obtain ⟨b, hb, h⟩ := bind_eq_ok.mp h
    obtain ⟨bs', hbs, h⟩ := bind_eq_ok.mp h
    cases h
    rw [List.forall_mem_cons]
    refine ⟨⟨a, List.mem_cons_self .., hb⟩, fun b' hb' => ?_⟩
    obtain ⟨a', ha, hfa⟩ := ih hbs b' hb'
    exact ⟨a', List.mem_cons_of_mem _ ha, hfa⟩

theorem output_of_definition {source outputDir : String} {d : Definition}
    (h : t.definition source outputDir suffix = .ok d) :
    d.output = Path.join outputDir (outputFileName (Path.stem source) suffix) := by
  rw [Tree.definition, bind_eq_ok] at h
  obtain ⟨w, -, h⟩ := h
  rw [← Except.ok.inj h]

theorem definition_eq_error_iff {source outputDir : String} {e : Error} :
    t.definition source outputDir suffix = .error e ↔ t.workflow source = .error e := by
  rw [Tree.definition, bind_eq_error]
  exact ⟨fun h => h.resolve_right (by rintro ⟨w, -, ⟨⟩⟩), .inl⟩

theorem source_of_definition {source outputDir : String} {d : Definition}
    (h : t.definition source outputDir suffix = .ok d) : d.source = source := by
  rw [Tree.definition, bind_eq_ok] at h
  obtain ⟨w, -, h⟩ := h
  rw [← Except.ok.inj h]

theorem output_of_mem_definitions {sourceDir outputDir : String} {ds : List Definition} {d : Definition}
    (hds : t.definitions sourceDir outputDir suffix = .ok ds) (hd : d ∈ ds) :
    ∃ source, d.output = Path.join outputDir (outputFileName (Path.stem source) suffix) := by
  rw [Tree.definitions, bind_eq_ok] at hds
  obtain ⟨ns, -, hds⟩ := hds
  obtain ⟨name, -, hname⟩ := mem_of_mapM hds d hd
  exact ⟨_, output_of_definition hname⟩

theorem runs_access {α : Type} {act : StateM Tree (Except FileFault α)} {r : Except FileFault α}
    (h : act.run t = (r, t')) : Runs (access path act) t (r.mapError (.io path)) t' := by
  cases r with
  | error fault => exact (Runs.of_act h).bind (.throw _ _)
  | ok a => exact (Runs.of_act h).bind (.pure a _)

theorem runs_loadWorkflow (t : Tree) (path : String) : Runs (loadWorkflow path) t (t.workflow path) t := by
  have hread : Runs (read path) t ((t.read path).mapError (.io path)) t := runs_access rfl
  exact hread.read fun text _ => (Runs.of_except _ t).pass fun w => (Runs.report _ t).bind (.pure w t)

namespace Definition

theorem runs_load (t : Tree) (source outputDir suffix : String) :
    Runs (load source outputDir suffix) t (t.definition source outputDir suffix) t :=
  (runs_loadWorkflow t source).read fun _ _ => (Runs.report _ t).bind (.pure _ t)

theorem run_select (t : Tree) (dir suffix : String) (names : List String) :
    (select dir suffix names : StateM Tree (List String)).run t = (t.select dir suffix names, t) := by
  have haux : ∀ acc : List String,
      (names.filterAuxM (fun name => (Files.isFile (Path.join dir name) : StateM Tree Bool)) acc).run t =
        ((names.filter fun name => t.isFile (Path.join dir name)).reverse ++ acc, t) := by
    induction names with
    | nil => exact fun _ => rfl
    | cons name names ih =>
      intro acc
      change (names.filterAuxM (fun name => (Files.isFile (Path.join dir name) : StateM Tree Bool))
        (cond (t.isFile (Path.join dir name)) (name :: acc) acc)).run t = _
      rw [ih]
      cases hfile : t.isFile (Path.join dir name) <;> simp [hfile]
  have hfilter : (names.filterM fun name => (Files.isFile (Path.join dir name) : StateM Tree Bool)).run t =
      (names.filter fun name => t.isFile (Path.join dir name), t) := by
    change (fun r : List String × Tree => (r.1.reverse, r.2))
      ((names.filterAuxM (fun name => (Files.isFile (Path.join dir name) : StateM Tree Bool)) []).run t) = _
    rw [haux]
    simp
  change (fun r : List String × Tree => (((r.1.filter (isName suffix)).mergeSort fun a b => a ≤ b), r.2))
    ((names.filterM fun name => (Files.isFile (Path.join dir name) : StateM Tree Bool)).run t) = _
  rw [hfilter]
  rfl

theorem runs_scan (t : Tree) (sourceDir outputDir suffix : String) :
    Runs (scan sourceDir outputDir suffix) t (t.definitions sourceDir outputDir suffix) t := by
  have hnames : Runs (access sourceDir (Files.names sourceDir)) t
      ((t.names sourceDir).mapError (.io sourceDir)) t := runs_access rfl
  exact hnames.read fun names _ => (Runs.of_act (run_select t sourceDir suffix names)).bind
    (.mapM fun name _ => runs_load t _ _ _)

end Definition

def IsOutputPlace (suffix : String) (p : Place) : Prop :=
  ∃ name, p.getLast? = some name ∧ suffix.toList.isSuffixOf name.toList = true

namespace Definition

theorem not_suffix_of_isName (h : isName suffix name = true) : suffix.toList.isSuffixOf name.toList = false := by
  simp only [isName, Bool.and_eq_true, Bool.not_eq_true'] at h
  exact h.1.2

theorem isName_of_isName (h : isName suffix name = true) (hname : '/' ∉ name.toList) : IsName name := by
  have hhead : name.toList.head? ≠ some '.' := by
    simp only [isName, Bool.and_eq_true, decide_eq_true_eq] at h
    exact h.1.1
  refine ⟨hname, ?_, ?_, ?_⟩
  · rintro rfl
    simp [isName, Path.splitName] at h
  · rintro rfl
    exact hhead rfl
  · rintro rfl
    exact hhead rfl

end Definition

namespace Tree

theorem names_of_definitions {outputDir : String} {ds : List Definition}
    (hds : t.definitions dir outputDir suffix = .ok ds) :
    ∃ ns, t.names dir = .ok ns ∧
      (t.select dir suffix ns).mapM (fun name => t.definition (Path.join dir name) outputDir suffix) = .ok ds := by
  obtain ⟨ns, hns, hds⟩ := bind_eq_ok.mp hds
  refine ⟨ns, ?_, hds⟩
  cases hnames : t.names dir with
  | error fault =>
    rw [hnames] at hns
    cases hns
  | ok ns' =>
    rw [hnames] at hns
    cases hns
    rfl

/-- What is selected is the name of a file, and does not end as those of generated files. -/
theorem of_mem_select (ht : t.IsNamed) (hns : t.names dir = .ok ns) (hname : name ∈ t.select dir suffix ns) :
    IsName name ∧ suffix.toList.isSuffixOf name.toList = false ∧ t.isFile (Path.join dir name) = true := by
  obtain ⟨-, p, -, rfl⟩ := names_eq_ok_iff.mp hns
  rw [select, List.mem_mergeSort, List.mem_filter, List.mem_filter] at hname
  obtain ⟨⟨hmem, hfile⟩, hdef⟩ := hname
  obtain ⟨q, hq, hqname⟩ := List.mem_filterMap.mp hmem
  rw [nameIn?_eq_some_iff.mp hqname] at hq
  exact ⟨Definition.isName_of_isName hdef (ht.entries _ hq name (by simp)), Definition.not_suffix_of_isName hdef,
    hfile⟩

variable (h : Grows (IsOutputPlace suffix) t t')

include h

/-- Where a definition would be, a file is the same file before and after. -/
theorem find_source (hdir : t.find dir = .ok .directory) (hname : IsName name)
    (hsuffix : suffix.toList.isSuffixOf name.toList = false) :
    t'.find (Path.join dir name) = .ok (.file bytes) ↔ t.find (Path.join dir name) = .ok (.file bytes) := by
  obtain ⟨p, hp, hget, -⟩ := find_eq_ok_iff.mp hdir
  have hplaces : t'.locate (Path.join dir name) = t.locate (Path.join dir name) := by
    rw [locate_join hname hp, locate_join hname (h.locate hp), follow_name hname hget,
      follow_name hname (h.directory hget)]
  have hnot : ∀ q, t.locate (Path.join dir name) = .ok q → ¬ IsOutputPlace suffix q := by
    rintro q hq ⟨last, hlast, hends⟩
    cases hlast.symm.trans (getLast_of_locate_join hname hq)
    rw [hsuffix] at hends
    cases hends
  refine ⟨fun hfind => ?_, fun hfind => h.find_file hfind hnot⟩
  obtain ⟨q, hq, hfile, hmeans⟩ := find_eq_ok_iff.mp hfind
  rw [hplaces] at hq
  exact find_eq_ok_iff.mpr ⟨q, hq, (h.earlier hfile).resolve_right (hnot q hq), hmeans⟩

theorem isFile_source (hdir : t.find dir = .ok .directory) (hname : IsName name)
    (hsuffix : suffix.toList.isSuffixOf name.toList = false) :
    t'.isFile (Path.join dir name) = t.isFile (Path.join dir name) := by
  rw [Bool.eq_iff_iff, isFile_iff, isFile_iff]
  exact exists_congr fun _ => find_source h hdir hname hsuffix

theorem select_of_grows (ht : t.IsNamed) (hdir : t.find dir = .ok .directory) (hp : t.locate dir = .ok p)
    {further : List Place} (hplaces : t'.entries.map Prod.fst = t.entries.map Prod.fst ++ further)
    (hnone : ∀ q ∈ further, t.get? q = none) :
    t'.select dir suffix ((t'.entries.map Prod.fst).filterMap (nameIn? p)) =
      t.select dir suffix ((t.entries.map Prod.fst).filterMap (nameIn? p)) := by
  have hnamed : ∀ name ∈ (t'.entries.map Prod.fst).filterMap (nameIn? p), '/' ∉ name.toList := by
    intro name hmem
    obtain ⟨q, hq, hqname⟩ := List.mem_filterMap.mp hmem
    rw [nameIn?_eq_some_iff.mp hqname] at hq
    exact (h.named ht).entries _ hq name (by simp)
  rw [hplaces, List.filterMap_append] at hnamed ⊢
  rw [List.forall_mem_append] at hnamed
  have hold : ∀ name ∈ (t.entries.map Prod.fst).filterMap (nameIn? p),
      (Definition.isName suffix name && t'.isFile (Path.join dir name)) =
        (Definition.isName suffix name && t.isFile (Path.join dir name)) := by
    intro name hmem
    cases hname : Definition.isName suffix name with
    | false => rfl
    | true =>
      exact congrArg _ (isFile_source h hdir (Definition.isName_of_isName hname (hnamed.1 name hmem))
        (Definition.not_suffix_of_isName hname))
  have hnew : ∀ name ∈ further.filterMap (nameIn? p),
      ¬ (Definition.isName suffix name && t'.isFile (Path.join dir name)) = true := by
    intro name hmem hdef
    rw [Bool.and_eq_true] at hdef
    have hname := Definition.isName_of_isName hdef.1 (hnamed.2 name hmem)
    rw [isFile_source h hdir hname (Definition.not_suffix_of_isName hdef.1), isFile_iff] at hdef
    obtain ⟨bytes, hfind⟩ := hdef.2
    obtain ⟨q, hq, hget, -⟩ := find_eq_ok_iff.mp hfind
    obtain ⟨r, hr, hrname⟩ := List.mem_filterMap.mp hmem
    obtain ⟨d, hd, hdget, -⟩ := find_eq_ok_iff.mp hdir
    cases hd.symm.trans hp
    rw [locate_join hname hp, follow_name hname hdget] at hq
    split at hq
    · cases hq
    · split at hq
      · cases hq
      · cases hq
        rw [← nameIn?_eq_some_iff.mp hrname, hnone r hr] at hget
        cases hget
  simp only [select, List.filter_append, List.filter_filter]
  rw [List.filter_congr hold, List.filter_eq_nil_iff.mpr hnew, List.append_nil]

theorem definition_of_grows (hdir : t.find dir = .ok .directory) (hname : IsName name)
    (hsuffix : suffix.toList.isSuffixOf name.toList = false) (hfile : t.isFile (Path.join dir name) = true)
    (outputDir : String) :
    t'.definition (Path.join dir name) outputDir suffix = t.definition (Path.join dir name) outputDir suffix := by
  obtain ⟨bytes, hfind⟩ := isFile_iff.mp hfile
  have hfind' := (find_source h hdir hname hsuffix).mpr hfind
  simp only [definition, workflow, read, hfind, hfind']

theorem definitions_of_grows (ht : t.IsNamed) {outputDir : String} {ds : List Definition}
    (hds : t.definitions dir outputDir suffix = .ok ds) : t'.definitions dir outputDir suffix = .ok ds := by
  obtain ⟨ns, hns, hds⟩ := names_of_definitions hds
  have hselected : ∀ name ∈ t.select dir suffix ns, _ := fun name hmem => of_mem_select ht hns hmem
  obtain ⟨hdir, p, hp, rfl⟩ := names_eq_ok_iff.mp hns
  obtain ⟨further, hplaces, hnone⟩ := h.places
  have hns' : t'.names dir = .ok ((t'.entries.map Prod.fst).filterMap (nameIn? p)) :=
    names_eq_ok_iff.mpr ⟨h.find_directory hdir, p, h.locate hp, rfl⟩
  rw [definitions, hns']
  change (t'.select dir suffix _).mapM _ = _
  rw [select_of_grows h ht hdir hp hplaces hnone, ← hds]
  refine mapM_congr fun name hmem => ?_
  obtain ⟨hname, hsuffix, hfile⟩ := hselected name hmem
  exact definition_of_grows h hdir hname hsuffix hfile outputDir

/-- The file that a definition comes from is never one of those that are written. -/
theorem find_source_of_grows (ht : t.IsNamed) {outputDir : String} {ds : List Definition} {d : Definition}
    (hds : t.definitions dir outputDir suffix = .ok ds) (hd : d ∈ ds) :
    ∃ bytes, t.find d.source = .ok (.file bytes) ∧ t'.find d.source = .ok (.file bytes) := by
  obtain ⟨ns, hns, hds⟩ := names_of_definitions hds
  obtain ⟨hdir, -⟩ := names_eq_ok_iff.mp hns
  obtain ⟨name, hmem, hdef⟩ := mem_of_mapM hds d hd
  obtain ⟨hname, hsuffix, hfile⟩ := of_mem_select ht hns hmem
  obtain ⟨bytes, hfind⟩ := isFile_iff.mp hfile
  rw [source_of_definition hdef]
  exact ⟨bytes, hfind, (find_source h hdir hname hsuffix).mpr hfind⟩

end Tree

end CiWorkflow
