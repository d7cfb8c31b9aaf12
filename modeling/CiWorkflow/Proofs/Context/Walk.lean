import CiWorkflow.Proofs.Context.Path
import CiWorkflow.Proofs.Expression.Origin
import CiWorkflow.Proofs.Text.Split

/-!
# Walks along context paths

Every way to a context path is a walk of single moves, each to a part or to an element. A walk stops at the first
name that cannot be a part and tells how far it came. Where it does not stop, its path is a context path that can be
wrapped as it is, and the parts can be read off the path again.
-/
set_option autoImplicit false

namespace CiWorkflow.Context

open Text Expression

inductive Move where
  | part (name : String)
  | element (i : Nat)
  deriving DecidableEq, Repr

namespace Move

def take (path : String) : Move → Except Error String
  | .part name => child path name
  | .element i => .ok (path ++ "[" ++ toString i ++ "]")

def text : Move → String
  | .part name => "." ++ name
  | .element i => "[" ++ toString i ++ "]"

def IsFit : Move → Prop
  | .part name => IsName name
  | .element _ => True

theorem take_of_isFit {m : Move} (h : m.IsFit) (path : String) : m.take path = .ok (path ++ m.text) := by
  cases m with
  | part name => rw [take, child, if_pos ((isPart_iff name).mpr h), text, String.append_assoc]
  | element i => simp [take, text, String.append_assoc]

theorem take_of_not_isName {name : String} (h : ¬ IsName name) (path : String) :
    (part name).take path = .error (.invalidContextName path name) := by
  rw [take, child, if_neg fun hpart => h ((isPart_iff name).mp hpart)]

end Move

def pathBehind (path : String) (moves : List Move) : String := moves.foldl (fun p m => p ++ m.text) path

/-- What comes out of a walk: the path behind all moves, or an error that tells the first name that is none and the
path behind the moves before it. -/
structure Walks (start : String) (moves : List Move) (result : Except Error String) : Prop where
  ok : ∀ path, result = .ok path ↔ (∀ m ∈ moves, m.IsFit) ∧ path = pathBehind start moves
  error : ∀ e, result = .error e ↔ ∃ before name after, moves = before ++ .part name :: after ∧
    (∀ m ∈ before, m.IsFit) ∧ ¬ IsName name ∧ e = .invalidContextName (pathBehind start before) name

namespace Walks

variable {start : String} {moves : List Move} {result : Except Error String}

theorem nil (start : String) : Walks start [] (.ok start) :=
  ⟨fun path => by simp [pathBehind, eq_comm], fun e => by simp⟩

theorem cons {m : Move} (hm : m.IsFit) (h : Walks (start ++ m.text) moves result) :
    Walks start (m :: moves) result := by
  refine ⟨fun path => (h.ok path).trans (by simp [hm, pathBehind]), fun e => (h.error e).trans ?_⟩
  constructor
  · rintro ⟨before, name, after, rfl, hbefore, hname, rfl⟩
    exact ⟨m :: before, name, after, rfl, by simpa [hm] using hbefore, hname, rfl⟩
  · rintro ⟨before, name, after, hmoves, hbefore, hname, rfl⟩
    cases before with
    | nil =>
      -- the walk cannot stop at the fit move
      obtain ⟨rfl, -⟩ := List.cons.inj hmoves
      exact absurd hm hname
    | cons first before =>
      obtain ⟨rfl, rfl⟩ := List.cons.inj hmoves
      exact ⟨before, name, after, rfl, (List.forall_mem_cons.mp hbefore).2, hname, rfl⟩

theorem stop {name : String} (h : ¬ IsName name) :
    Walks start (.part name :: moves) (.error (.invalidContextName start name)) := by
  refine ⟨fun path => iff_of_false nofun fun hall => h (hall.1 _ (List.mem_cons_self ..)), fun e => ?_⟩
  constructor
  · rintro ⟨⟩
    exact ⟨[], name, moves, rfl, by simp, h, rfl⟩
  · rintro ⟨before, other, after, hmoves, hbefore, -, rfl⟩
    cases before with
    | nil =>
      obtain ⟨⟨⟩, -⟩ := List.cons.inj hmoves
      rfl
    | cons first before =>
      obtain ⟨rfl, -⟩ := List.cons.inj hmoves
      exact absurd (hbefore _ (List.mem_cons_self ..)) h

end Walks

theorem walks_foldlM (start : String) (moves : List Move) : Walks start moves (moves.foldlM Move.take start) := by
  induction moves generalizing start with
  | nil => exact .nil start
  | cons m moves ih =>
    rw [List.foldlM_cons]
    by_cases hm : m.IsFit
    · rw [Move.take_of_isFit hm]
      exact (ih _).cons hm
    · cases m with
      | element i => exact absurd trivial hm
      | part name =>
        rw [Move.take_of_not_isName hm]
        exact .stop hm

/-- A run of steps that each stand for some moves is the run of all the moves. -/
theorem foldlM_flatMap {α β γ δ ε : Type} {step : α → β → Except ε α} {view : α → γ}
    {small : γ → δ → Except ε γ} {parts : β → List δ}
    (h : ∀ a x, (step a x).map view = (parts x).foldlM small (view a)) (xs : List β) (a : α) :
    (xs.foldlM step a).map view = (xs.flatMap parts).foldlM small (view a) := by
  induction xs generalizing a with
  | nil => rfl
  | cons x xs ih =>
    rw [List.foldlM_cons, List.flatMap_cons, List.foldlM_append, ← h]
    cases step a x with
    | error e => rfl
    | ok next => exact ih next

theorem map_get (p : Path) (name : String) : (p.get name).map Path.text = [Move.part name].foldlM Move.take p.text := by
  rw [Path.get, List.foldlM_cons, Move.take]
  cases child p.text name <;> rfl

def PathStep.moves : PathStep → List Move
  | .get name => [.part name]
  | .along dotted => ((splitAt '.' dotted.toList).map String.ofList).flatMap fun name => [.part name]
  | .index i => [.element i]

theorem PathStep.map_take (p : Path) (s : PathStep) :
    (s.take p).map Path.text = s.moves.foldlM Move.take p.text := by
  cases s with
  | get name => exact map_get p name
  | along dotted => exact foldlM_flatMap map_get _ p
  | index i => rfl

theorem walks_steps (p : Path) (steps : List PathStep) :
    Walks p.text (steps.flatMap PathStep.moves) ((steps.foldlM PathStep.take p).map Path.text) := by
  rw [foldlM_flatMap PathStep.map_take]
  exact walks_foldlM _ _

namespace Member

theorem walks_fragment (m : Member) :
    Walks m.parts.1 (m.parts.2.map Move.part) (m.fragment.map Fragment.inner) := by
  have hrun : m.fragment.map Fragment.inner = (m.parts.2.map Move.part).foldlM Move.take m.parts.1 := by
    rw [fragment, descend, List.foldlM_map]
    change ((m.parts.2.foldlM child m.parts.1).map _).map _ = m.parts.2.foldlM child m.parts.1
    cases m.parts.2.foldlM child m.parts.1 <;> rfl
  exact hrun ▸ walks_foldlM _ _

def names : Member → List String
  | .env n | .secret n | .configVariable n | .input n | .matrix n => [n]
  | .stepOutput s n | .neededOutput s n | .jobOutput s n => [s, n]
  | .stepOutcome s | .stepConclusion s | .neededResult s | .jobResult s => [s]
  | .serviceId s | .serviceNetwork s | .servicePorts s => [s]

theorem forall_parts_iff (m : Member) : (∀ name ∈ m.parts.2, IsName name) ↔ ∀ name ∈ m.names, IsName name := by
  have hfixed : ∀ name ∈ ["outputs", "outcome", "conclusion", "result", "id", "network", "ports"], IsName name := by
    simp only [← isPart_iff]
    decide
  simp only [List.forall_mem_cons] at hfixed
  cases m <;> simp [parts, names, hfixed]

theorem exists_fragment_iff (m : Member) : (∃ f, m.fragment = .ok f) ↔ ∀ name ∈ m.names, IsName name := by
  have hparts : (∀ move ∈ m.parts.2.map Move.part, move.IsFit) ↔ ∀ name ∈ m.parts.2, IsName name := by
    simp [Move.IsFit]
  rw [← forall_parts_iff, ← hparts]
  constructor
  · rintro ⟨f, hf⟩
    exact ((m.walks_fragment.ok f.inner).mp (by rw [hf]; rfl)).1
  · intro h
    obtain ⟨f, hf, -⟩ := map_eq_ok.mp ((m.walks_fragment.ok _).mpr ⟨h, rfl⟩)
    exact ⟨f, hf⟩

def ofParts? : List String → Option Member
  | ["env", n] => some (.env n)
  | ["secrets", n] => some (.secret n)
  | ["vars", n] => some (.configVariable n)
  | ["inputs", n] => some (.input n)
  | ["matrix", n] => some (.matrix n)
  | ["steps", s, "outputs", n] => some (.stepOutput s n)
  | ["steps", s, "outcome"] => some (.stepOutcome s)
  | ["steps", s, "conclusion"] => some (.stepConclusion s)
  | ["needs", j, "outputs", n] => some (.neededOutput j n)
  | ["needs", j, "result"] => some (.neededResult j)
  | ["jobs", j, "outputs", n] => some (.jobOutput j n)
  | ["jobs", j, "result"] => some (.jobResult j)
  | ["job", "services", s, "id"] => some (.serviceId s)
  | ["job", "services", s, "network"] => some (.serviceNetwork s)
  | ["job", "services", s, "ports"] => some (.servicePorts s)
  | _ => none

def ofPath? (path : String) : Option Member := ofParts? ((splitAt '.' path.toList).map String.ofList)

theorem ofParts_parts (m : Member) :
    ofParts? ((splitAt '.' m.parts.1.toList).map String.ofList ++ m.parts.2) = some m := by
  have hstart : ∀ start ∈ ["env", "secrets", "vars", "inputs", "matrix", "steps", "needs", "jobs"],
      (splitAt '.' start.toList).map String.ofList = [start] := by decide
  have hservices : (splitAt '.' "job.services".toList).map String.ofList = ["job", "services"] := by decide
  simp only [List.forall_mem_cons] at hstart
  cases m <;> simp only [parts, hstart, hservices] <;> rfl

end Member

theorem splitAt_pathBehind {names : List String} (h : ∀ name ∈ names, IsName name) (start : String) :
    (splitAt '.' (pathBehind start (names.map Move.part)).toList).map String.ofList =
      (splitAt '.' start.toList).map String.ofList ++ names := by
  induction names generalizing start with
  | nil => simp [pathBehind]
  | cons name names ih =>
    obtain ⟨hname, hnames⟩ := List.forall_mem_cons.mp h
    have hstart : (splitAt '.' (start ++ ("." ++ name)).toList).map String.ofList =
        (splitAt '.' start.toList).map String.ofList ++ [name] := by
      rw [← String.append_assoc, toList_dotted, splitAt_append,
        splitAt_of_not_mem hname.dot_not_mem]
      simp
    have hrest := ih hnames (start ++ ("." ++ name))
    rw [hstart] at hrest
    simpa [pathBehind, Move.text] using hrest

theorem Member.ofPath_fragment {m : Member} {f : Fragment} (h : m.fragment = .ok f) : ofPath? f.inner = some m := by
  obtain ⟨hfit, hpath⟩ := (m.walks_fragment.ok f.inner).mp (by rw [h]; rfl)
  have hnames : ∀ name ∈ m.parts.2, IsName name :=
    fun name hname => hfit (.part name) (List.mem_map_of_mem hname)
  rw [ofPath?, hpath, splitAt_pathBehind hnames, ofParts_parts]

theorem isWrappable_steps {steps : List PathStep} {p : Path}
    (h : steps.foldlM PathStep.take Path.event = .ok p) : isWrappable p.text = true := by
  have hmake : (Origin.event steps).make = .ok p.fragment := by
    rw [Origin.make, h]
    rfl
  exact (Origin.isWrappable_make_iff hmake).mpr trivial

theorem exists_wrap {f : Fragment} (h : isWrappable f.inner = true) : ∃ w, f.wrap = .ok w ∧ w.inner = f.inner :=
  ⟨⟨f.inner, h⟩, wrap_of_wrappable ⟨f.inner, h⟩, rfl⟩

/-- A member is there exactly if the names that it takes are names. Members and walks below the event come out with
the path behind all their parts, or fail at the first name that is none. Their paths are context paths and are wrapped
as they are, and no two members share a path. -/
theorem paths_sound :
    (∀ m : Member, ((∃ f, m.fragment = .ok f) ↔ ∀ name ∈ m.names, IsName name) ∧
      Walks m.parts.1 (m.parts.2.map Move.part) (m.fragment.map Fragment.inner)) ∧
    (∀ steps : List PathStep, Walks Path.event.text (steps.flatMap PathStep.moves)
      ((steps.foldlM PathStep.take Path.event).map Path.text)) ∧
    (∀ (m : Member) (f : Fragment), m.fragment = .ok f →
      isTokenPath f.inner = true ∧ ∃ w, f.wrap = .ok w ∧ w.inner = f.inner) ∧
    (∀ (steps : List PathStep) (p : Path), steps.foldlM PathStep.take Path.event = .ok p →
      isTokenPath p.text = true ∧ ∃ w, p.wrap = .ok w ∧ w.inner = p.text) ∧
    ∀ (m m' : Member) (f f' : Fragment), m.fragment = .ok f → m'.fragment = .ok f' → f.inner = f'.inner → m = m' := by
  refine ⟨fun m => ⟨m.exists_fragment_iff, m.walks_fragment⟩, walks_steps Path.event, fun m f h => ?_,
    fun steps p h => ?_, fun m m' f f' h h' hsame => ?_⟩
  · exact ⟨Member.isTokenPath_fragment h, exists_wrap (Member.isWrappable_fragment h)⟩
  · exact ⟨isTokenPath_steps (by decide) h, exists_wrap (f := p.fragment) (isWrappable_steps h)⟩
  · have hpath := Member.ofPath_fragment h
    rw [hsame, Member.ofPath_fragment h'] at hpath
    exact (Option.some.inj hpath).symm

/-- No mark comes together across a dot, only one member has a path, and a walk stops inside a dotted text. -/
theorem paths_sound_marks :
    (∃ w, (Fragment.ofPath "steps.$.outputs.\x7b\x7b").wrap = .ok w ∧ w.inner = "steps.$.outputs.\x7b\x7b") ∧
    (∀ m : Member, m.fragment = .ok (.ofPath "steps.$.outputs.\x7b\x7b") → .stepOutput "$" "\x7b\x7b" = m) ∧
    (∃ w, (Path.mk "github.event.commits[0].author").wrap = .ok w ∧ w.inner = "github.event.commits[0].author") ∧
    ([.get "commits", .index 0, .along "author. .name"].foldlM PathStep.take Path.event).map Path.text =
      .error (.invalidContextName "github.event.commits[0].author" " ") := by
  obtain ⟨-, hwalks, hmember, hevent, hsame⟩ := paths_sound
  have houtput : (Member.stepOutput "$" "\x7b\x7b").fragment = .ok (.ofPath "steps.$.outputs.\x7b\x7b") := rfl
  have hcommits : [.get "commits", .index 0, .get "author"].foldlM PathStep.take Path.event =
      .ok ⟨"github.event.commits[0].author"⟩ := rfl
  refine ⟨(hmember _ _ houtput).2, fun m hm => hsame _ m _ _ houtput hm rfl, (hevent _ _ hcommits).2,
    ((hwalks _).error _).mpr ⟨[.part "commits", .element 0, .part "author"], " ", [.part "name"], rfl, ?_, ?_, rfl⟩⟩
  · have hnames : ∀ name ∈ ["commits", "author"], IsName name := by
      simp only [← isPart_iff]
      decide
    simpa [Move.IsFit] using hnames
  · rw [← isPart_iff]
    decide

/-- Walking along two dotted texts one after the other is walking along both with a dot between them, and walking
along parts with dots between them is taking one after the other. No parts at all make an empty text, and that is one
empty part. -/
theorem along_composes (p : Path) :
    (∀ a b, p.along (a ++ "." ++ b) = p.along a >>= fun q => q.along b) ∧
    (∀ names : List String, names ≠ [] → (∀ name ∈ names, '.' ∉ name.toList) →
      p.along (".".intercalate names) = names.foldlM Path.get p) ∧
    p.along "" = .error (.invalidContextName p.text "") := by
  refine ⟨fun a b => ?_, fun names hne h => ?_, rfl⟩
  · rw [Path.along, toList_dotted, splitAt_append, List.map_append, List.foldlM_append]
    rfl
  · have hsplit : splitAt '.' (".".intercalate names).toList = names.map String.toList := by
      rw [String.toList_intercalate]
      exact splitAt_intercalate (by simpa using hne) (by simpa using h)
    rw [Path.along, hsplit, List.map_map]
    simp [Function.comp_def]

/-- An empty part stops both ways at the same place. -/
theorem along_composes_empty_part :
    (["commits", "", "id"] : List String) ≠ [] ∧ (∀ name ∈ ["commits", "", "id"], '.' ∉ name.toList) ∧
      Path.event.along ("commits" ++ "." ++ ".id") = .error (.invalidContextName "github.event.commits" "") ∧
      ["commits", "", "id"].foldlM Path.get Path.event = .error (.invalidContextName "github.event.commits" "") := by
  obtain ⟨htwo, hparts, -⟩ := along_composes Path.event
  have hdots : ∀ name ∈ ["commits", "", "id"], '.' ∉ name.toList := by decide
  exact ⟨by simp, hdots, (htwo "commits" ".id").trans rfl, (hparts _ (by simp) hdots).symm.trans rfl⟩

/-- Taking no parts gives the path itself, but an empty text is no way along none. -/
theorem not_along_no_parts : ¬ ∀ (p : Path) (names : List String), (∀ name ∈ names, '.' ∉ name.toList) →
    p.along (".".intercalate names) = names.foldlM Path.get p := by
  intro h
  have hnone : Path.event.along "" = .ok Path.event := h Path.event [] (by simp)
  cases hnone

end CiWorkflow.Context
