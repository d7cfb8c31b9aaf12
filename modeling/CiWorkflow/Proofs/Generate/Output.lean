import CiWorkflow.Generate.Output
import CiWorkflow.Proofs.Generate.Name
import CiWorkflow.Proofs.Generate.Scan

/-!
# Writing and checking generated files

Each step writes at most the file of its definition. A later step can only replace the file of an earlier one
if both have the same name, so after all steps every file holds the text of one of the definitions that share
it. Checking then finds exactly the files that do not hold the text of their own definition.
-/
set_option autoImplicit false

namespace CiWorkflow

open Log CiWorkflow.Task CiWorkflow.Tree

variable {s : GeneratorSettings} {d : Definition} {ds : List Definition} {t t' : Tree} {dir name text : String}

theorem runs_renderWorkflow (r : Render.Renderer) (w : Workflow) (t : Tree) :
    Runs (renderWorkflow r w) t (r.render w) t :=
  (Runs.of_except _ t).read fun _ _ => (Runs.report _ t).bind
    ((Runs.of_except _ t).read fun _ _ => (Runs.report _ t).bind (.pure _ t))

def EndsAt (name : String) (p : Place) : Prop := p.getLast? = some name

def writeFile (path text : String) : Task Error (StateM Tree) Unit :=
  access path (Files.write path text) >>= fun _ => report (written path text)

theorem runs_writeFile (t : Tree) (path text : String) :
    Runs (writeFile path text) t ((t.write path text).1.mapError (.io path)) (t.write path text).2 := by
  have hwrite : (Files.write path text : StateM Tree (Except FileFault Unit)).run t =
      ((t.write path text).1, (t.write path text).2) := rfl
  exact (runs_access hwrite).pass fun _ => .report _ _

theorem runs_createDirectories (t : Tree) (path : String) :
    Runs (access path (Files.createDirectories path)) t ((t.createDirectories path).1.mapError (.io path))
      (t.createDirectories path).2 :=
  runs_access rfl

/-- The directory around a file is created before it, if its path names one. -/
theorem writeOutput_eq (path text : String) :
    (writeOutput path text : Task Error (StateM Tree) Unit) = writeFile path text ∨
      ∃ parent, parent ≠ "" ∧ (writeOutput path text : Task Error (StateM Tree) Unit) =
        access parent (Files.createDirectories parent) >>= fun _ => writeFile path text := by
  rw [writeOutput]
  cases Path.parent? path with
  | none => exact .inl rfl
  | some parent =>
    by_cases hempty : parent = ""
    · subst hempty
      exact .inl rfl
    · have hnot : parent.isEmpty = false := by simpa using hempty
      simp only [hnot, Bool.not_false, ↓reduceIte]
      exact .inr ⟨parent, hempty, rfl⟩

theorem exists_runs_writeFile (hname : IsName name) (t : Tree) :
    ∃ r t', Runs (writeFile (Path.join dir name) text) t r t' ∧ Grows (EndsAt name) t t' ∧
      (r = .ok () → t'.find (Path.join dir name) = .ok (.file text.toUTF8)) := by
  have hruns := runs_writeFile t (Path.join dir name) text
  rw [Tree.write] at hruns
  cases hwrite : t.writeBytes (Path.join dir name) text.toUTF8 with
  | error fault =>
    rw [hwrite] at hruns
    exact ⟨_, t, hruns, .refl t, by rintro ⟨⟩⟩
  | ok t' =>
    rw [hwrite] at hruns
    obtain ⟨hgrows, hfind⟩ := of_writeBytes hwrite
    exact ⟨_, t', hruns, hgrows.mono fun p hp => getLast_of_locate_join hname hp, fun _ => hfind⟩

theorem exists_runs_writeOutput (hname : IsName name) (t : Tree) :
    ∃ r t', Runs (writeOutput (Path.join dir name) text) t r t' ∧ Grows (EndsAt name) t t' ∧
      (r = .ok () → t'.find (Path.join dir name) = .ok (.file text.toUTF8)) := by
  obtain h | ⟨parent, -, h⟩ := writeOutput_eq (Path.join dir name) text
  · rw [h]
    exact exists_runs_writeFile hname t
  · rw [h]
    have hcreate := runs_createDirectories t parent
    have hgrows : Grows (EndsAt name) t (t.createDirectories parent).2 := grows_createDirectories t parent
    cases hresult : (t.createDirectories parent).1 with
    | error fault =>
      rw [hresult] at hcreate
      exact ⟨.error _, _, hcreate.fail, hgrows, nofun⟩
    | ok _ =>
      rw [hresult] at hcreate
      obtain ⟨r, t', hruns, hgrows', hfind⟩ := exists_runs_writeFile hname (t.createDirectories parent).2
      exact ⟨r, t', hcreate.bind hruns, hgrows.trans hgrows', hfind⟩

namespace Definition

/-- The file of a definition holds what is rendered from the definition. -/
def IsCurrent (s : GeneratorSettings) (t : Tree) (d : Definition) : Prop :=
  ∃ text, s.renderer.render d.workflow = .ok text ∧ t.find d.output = .ok (.file text.toUTF8)

structure WritesTo (dir name : String) (d : Definition) : Prop where
  output : d.output = Path.join dir name
  isName : IsName name

theorem WritesTo.unique {e : Definition} {other : String} (hd : d.WritesTo dir name) (he : e.WritesTo dir other)
    (h : name = other) : e.output = d.output := by
  rw [hd.output, he.output, h]

theorem IsCurrent.of_grows {outputs : Place → Prop} (hc : d.IsCurrent s t) (h : Grows outputs t t')
    (hout : ∀ p, t.locate d.output = .ok p → ¬ outputs p) : d.IsCurrent s t' := by
  obtain ⟨text, htext, hfind⟩ := hc
  exact ⟨text, htext, h.find_file hfind hout⟩

end Definition

open Definition

theorem exists_runs_writeDefinition (s : GeneratorSettings) (hd : d.WritesTo dir name) (t : Tree) :
    ∃ r t', Runs (writeDefinition s d) t r t' ∧ Grows (EndsAt name) t t' ∧ (r = .ok () → d.IsCurrent s t') := by
  have hrender := runs_renderWorkflow s.renderer d.workflow t
  cases htext : s.renderer.render d.workflow with
  | error e =>
    rw [htext] at hrender
    exact ⟨.error e, t, hrender.fail, .refl t, nofun⟩
  | ok text =>
    rw [htext] at hrender
    obtain ⟨r, t', hruns, hgrows, hfind⟩ := exists_runs_writeOutput hd.isName t
    rw [← hd.output] at hruns hfind
    exact ⟨r, t', hrender.bind hruns, hgrows, fun hr => ⟨text, htext, hfind hr⟩⟩

def EndsAtOutput (dir : String) (ds : List Definition) (p : Place) : Prop :=
  ∃ d ∈ ds, ∃ name, d.WritesTo dir name ∧ EndsAt name p

/-- After all definitions are written, each file holds the text of one of the definitions it belongs to. -/
theorem exists_runs_writeAll (s : GeneratorSettings) (hds : ∀ d ∈ ds, ∃ name, d.WritesTo dir name) (t : Tree) :
    ∃ r t', Runs (ds.mapM (writeDefinition s)) t r t' ∧ Grows (EndsAtOutput dir ds) t t' ∧
      ((∃ us, r = .ok us) → ∀ d ∈ ds, (∃ text, s.renderer.render d.workflow = .ok text) ∧
        ∃ e ∈ ds, e.output = d.output ∧ e.IsCurrent s t') := by
  induction ds generalizing t with
  | nil =>
    rw [List.mapM_nil]
    exact ⟨_, t, .pure [] t, .refl t, fun _ _ hd => absurd hd List.not_mem_nil⟩
  | cons d ds ih =>
    rw [List.forall_mem_cons] at hds
    obtain ⟨name, hd⟩ := hds.1
    obtain ⟨r, t₁, hruns, hgrows, hcurrent⟩ := exists_runs_writeDefinition s hd t
    have hgrows' : Grows (EndsAtOutput dir (d :: ds)) t t₁ :=
      hgrows.mono fun p hp => ⟨d, List.mem_cons_self .., name, hd, hp⟩
    rw [List.mapM_cons]
    cases r with
    | error e => exact ⟨.error e, t₁, hruns.fail, hgrows', nofun⟩
    | ok _ =>
      obtain ⟨r, t₂, hrest, hgrowsRest, hcurrentRest⟩ := ih hds.2 t₁
      have hgrowsAll : Grows (EndsAtOutput dir (d :: ds)) t t₂ :=
        hgrows'.trans (hgrowsRest.mono fun p ⟨e, he, hp⟩ => ⟨e, List.mem_cons_of_mem _ he, hp⟩)
      cases r with
      | error e => exact ⟨.error e, t₂, hruns.bind hrest.fail, hgrowsAll, nofun⟩
      | ok us =>
        refine ⟨.ok (() :: us), t₂, hruns.bind (hrest.bind (.pure _ t₂)), hgrowsAll, fun _ => ?_⟩
        have hcurrentRest := hcurrentRest ⟨us, rfl⟩
        have hcurrent := hcurrent rfl
        rw [List.forall_mem_cons]
        refine ⟨⟨hcurrent.imp fun _ h => h.1, ?_⟩, fun e he => ?_⟩
        · by_cases hshared : ∃ e ∈ ds, e.output = d.output
          · -- a later definition has the file too, so the last of them decides
            obtain ⟨e, he, hout⟩ := hshared
            obtain ⟨-, e', he', hout', hcurrent'⟩ := hcurrentRest e he
            exact ⟨e', List.mem_cons_of_mem _ he', hout'.trans hout, hcurrent'⟩
          · refine ⟨d, List.mem_cons_self .., rfl, hcurrent.of_grows hgrowsRest fun p hp => ?_⟩
            rintro ⟨e, he, other, hother, hends⟩
            rw [hd.output] at hp
            have hname : name = other :=
              Option.some.inj ((getLast_of_locate_join hd.isName hp).symm.trans hends)
            exact hshared ⟨e, he, hd.unique hother hname⟩
        · obtain ⟨htext, e', he', hrest⟩ := hcurrentRest e he
          exact ⟨htext, e', List.mem_cons_of_mem _ he', hrest⟩

/-- Definitions with the same file give the same text. -/
def Agree (s : GeneratorSettings) (ds : List Definition) : Prop :=
  ∀ d ∈ ds, ∀ e ∈ ds, d.output = e.output → s.renderer.render d.workflow = s.renderer.render e.workflow

def Written (s : GeneratorSettings) (ds : List Definition) (t : Tree) : Prop :=
  ∀ d ∈ ds, (∃ text, s.renderer.render d.workflow = .ok text) ∧ ∃ e ∈ ds, e.output = d.output ∧ e.IsCurrent s t

/-- All definitions have their own text in their file exactly if those that share a file agree. -/
theorem Written.all_isCurrent_iff (h : Written s ds t) : (∀ d ∈ ds, d.IsCurrent s t) ↔ Agree s ds := by
  constructor
  · intro hall d hd e he hout
    obtain ⟨text, htext, hfind⟩ := hall d hd
    obtain ⟨text', htext', hfind'⟩ := hall e he
    rw [hout] at hfind
    have hbytes := hfind.symm.trans hfind'
    have hsame : text = text' := by simpa [String.toByteArray_inj] using hbytes
    rw [htext, htext', hsame]
  · intro hagree d hd
    obtain ⟨-, e, he, hout, text, htext, hfind⟩ := h d hd
    exact ⟨text, (hagree d hd e he hout.symm).trans htext, hout ▸ hfind⟩

theorem fromUTF8_toUTF8 (text : String) : String.fromUTF8? text.toUTF8 = some text := by
  have hvalid : text.toUTF8.IsValidUTF8 := text.isValidUTF8
  rw [String.fromUTF8?, dif_pos hvalid]
  rfl

theorem eq_toUTF8_of_fromUTF8 {bytes : ByteArray} (h : String.fromUTF8? bytes = some text) : bytes = text.toUTF8 := by
  rw [String.fromUTF8?] at h
  split at h
  · cases h
    rfl
  · cases h

theorem read_eq_ok_iff {path : String} : t.read path = .ok text ↔ t.find path = .ok (.file text.toUTF8) := by
  rw [Tree.read, bind_eq_ok]
  constructor
  · rintro ⟨e, hfind, h⟩
    cases e with
    | directory => cases h
    | file bytes =>
      simp only at h
      split at h
      · rename_i found hbytes
        cases h
        rwa [← eq_toUTF8_of_fromUTF8 hbytes]
      · cases h
  · intro hfind
    refine ⟨_, hfind, ?_⟩
    simp only [fromUTF8_toUTF8]
    rfl

namespace Tree

def outputStatus (t : Tree) (path text : String) : Except Error OutputStatus :=
  if t.isPresent path then
    (t.read path).mapError (.io path) >>= fun current => .ok (if current = text then .upToDate else .stale)
  else .ok .missing

/-- Whether the file of a definition is missing or holds another text than the definition gives. -/
def isOutdated (t : Tree) (s : GeneratorSettings) (d : Definition) : Except Error Bool := do
  let text ← s.renderer.render d.workflow
  let status ← t.outputStatus d.output text
  return status ≠ .upToDate

def outdated (t : Tree) (s : GeneratorSettings) (ds : List Definition) : Except Error (List String) := do
  let found ← ds.mapM fun d => (t.isOutdated s d).map fun b => if b then [d.output] else []
  return found.flatten

theorem isPresent_of_read {path current : String} (h : t.read path = .ok current) : t.isPresent path = true := by
  obtain ⟨e, hfind, -⟩ := bind_eq_ok.mp h
  rw [isPresent, hfind]
  rfl

theorem outputStatus_of_read {path current : String} (h : t.read path = .ok current) :
    t.outputStatus path text = .ok (if current = text then .upToDate else .stale) := by
  rw [outputStatus, if_pos (isPresent_of_read h), h]
  rfl

theorem outdated_of_isOutdated {p : Definition → Bool} (h : ∀ d ∈ ds, t.isOutdated s d = .ok (p d)) :
    t.outdated s ds = .ok ((ds.filter p).map Definition.output) := by
  rw [outdated]
  induction ds with
  | nil => rfl
  | cons d ds ih =>
    rw [List.forall_mem_cons] at h
    obtain ⟨found, hfound, hflat⟩ := bind_eq_ok.mp (ih h.2)
    rw [List.mapM_cons, h.1, hfound, List.filter_cons]
    refine congrArg Except.ok (?_ : (_ :: found).flatten = _)
    rw [List.flatten_cons, Except.ok.inj hflat]
    cases p d <;> rfl

end Tree

theorem runs_checkOutput (t : Tree) (path text : String) :
    Runs (checkOutput path text) t (t.outputStatus path text) t := by
  have hpresent : ((Files.isPresent path : StateM Tree Bool)).run t = (t.isPresent path, t) := rfl
  have hread : Runs (read path) t ((t.read path).mapError (.io path)) t := runs_access rfl
  rw [checkOutput, outputStatus]
  refine (Runs.of_act hpresent).bind ?_
  cases t.isPresent path with
  | true => exact hread.read fun current _ => .pure _ t
  | false => exact .pure _ t

theorem runs_checkDefinition (t : Tree) (s : GeneratorSettings) (d : Definition) :
    Runs (checkDefinition s d) t (t.isOutdated s d) t := by
  refine (runs_renderWorkflow s.renderer d.workflow t).read fun text _ =>
    (runs_checkOutput t d.output text).read fun status _ => ?_
  cases status with
  | upToDate => exact .pure false t
  | missing => exact (Runs.report _ t).bind (.pure true t)
  | stale => exact (Runs.report _ t).bind (.pure true t)

theorem runs_checkAll (t : Tree) (s : GeneratorSettings) (ds : List Definition) :
    Runs (ds.mapM fun d => do return if ← checkDefinition s d then [d.output] else []) t
      (ds.mapM fun d => (t.isOutdated s d).map fun b => if b then [d.output] else []) t :=
  .mapM fun d _ => by
    have hcheck := (runs_checkDefinition t s d).read fun b _ => Runs.pure (if b then [d.output] else []) t
    cases h : t.isOutdated s d <;> rw [h] at hcheck <;> exact hcheck

namespace Definition

/-- The file of a definition is missing, or differs from what the definition gives. -/
def differs (s : GeneratorSettings) (t : Tree) (d : Definition) : Bool :=
  !t.isPresent d.output || (t.read d.output).toOption ≠ (s.renderer.render d.workflow).toOption

theorem isOutdated_eq (htext : s.renderer.render d.workflow = .ok text)
    (hread : t.isPresent d.output = true → ∃ current, t.read d.output = .ok current) :
    t.isOutdated s d = .ok (d.differs s t) := by
  rw [isOutdated, htext, differs, htext]
  change (t.outputStatus d.output text >>= _) = _
  cases hpresent : t.isPresent d.output with
  | false =>
    rw [outputStatus, hpresent]
    rfl
  | true =>
    obtain ⟨current, hcurrent⟩ := hread hpresent
    rw [outputStatus_of_read hcurrent, hcurrent]
    by_cases hsame : current = text
    · simp [hsame, Except.toOption, bind, Except.bind, pure, Except.pure]
    · simp [hsame, Except.toOption, bind, Except.bind, pure, Except.pure]

theorem differs_eq_false_iff (htext : s.renderer.render d.workflow = .ok text) :
    d.differs s t = false ↔ d.IsCurrent s t := by
  have hcurrent : d.IsCurrent s t ↔ t.read d.output = .ok text := by
    rw [read_eq_ok_iff]
    exact ⟨fun ⟨text', htext', hfind⟩ => by rwa [← Except.ok.inj (htext'.symm.trans htext)], fun h => ⟨text, htext, h⟩⟩
  rw [hcurrent, differs, htext]
  constructor
  · intro h
    simp only [Bool.or_eq_false_iff, decide_eq_false_iff_not, Decidable.not_not] at h
    cases hread : t.read d.output with
    | error fault => simp [hread, Except.toOption] at h
    | ok current => simpa [hread, Except.toOption] using h.2
  · intro h
    rw [h, isPresent_of_read h]
    simp [Except.toOption]

end Definition

/-- Once each file holds one of the texts it should hold, those are out of date that do not hold their own. -/
theorem Written.outdated (h : Written s ds t) :
    t.outdated s ds = .ok ((ds.filter (Definition.differs s t)).map Definition.output) := by
  refine outdated_of_isOutdated fun d hd => ?_
  obtain ⟨⟨text, htext⟩, e, -, hout, current, -, hfind⟩ := h d hd
  exact Definition.isOutdated_eq htext fun _ => ⟨current, read_eq_ok_iff.mpr (hout ▸ hfind)⟩

theorem Written.none_differs_iff (h : Written s ds t) :
    (ds.filter (Definition.differs s t)).map Definition.output = [] ↔ Agree s ds := by
  rw [← h.all_isCurrent_iff, List.map_eq_nil_iff, List.filter_eq_nil_iff]
  refine forall₂_congr fun d hd => ?_
  obtain ⟨⟨text, htext⟩, -⟩ := h d hd
  rw [Bool.not_eq_true, Definition.differs_eq_false_iff htext]

end CiWorkflow
