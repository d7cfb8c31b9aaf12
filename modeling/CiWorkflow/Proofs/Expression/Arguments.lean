import CiWorkflow.Proofs.Expression.Balance
import CiWorkflow.Proofs.Expression.Operand
import CiWorkflow.Proofs.Expression.Origin
import CiWorkflow.Proofs.Expression.Tree

/-!
# The argument list of a call

A call is read again by cutting what stands in its parentheses at the commas outside literals and further parentheses.
The arguments come back one by one, in order, and the call can be an argument itself. With a missing argument there is
no call, wherever it stands.
-/
set_option autoImplicit false

namespace CiWorkflow.Expression

open Text Context Decimal

/-- The pieces between the commas outside everything; nothing where a parenthesis or a literal is left open, or a
parenthesis closes nothing. -/
def splitCommas (p : Place) : List Char → Option (List (List Char))
  | [] => if p = .top then some [[]] else none
  | c :: rest =>
    if p = .top ∧ c = ',' then (splitCommas p rest).map ([] :: ·)
    else (p.next c).bind fun q => (splitCommas q rest).map (List.modifyHead (c :: ·))

def dropBlank : List Char → List Char
  | ' ' :: cs => cs
  | cs => cs

def dropBlanks : List (List Char) → List (List Char)
  | [] => []
  | first :: others => first :: others.map dropBlank

def splitArguments (list : List Char) : Option (List (List Char)) :=
  if list = [] then some [] else (splitCommas .top list).map dropBlanks

theorem splitCommas_append {p : Place} {cs : List Char} (h : cs.foldlM Place.inside p = some .top) (rest : List Char) :
    splitCommas p (cs ++ rest) = (splitCommas .top rest).map (List.modifyHead (cs ++ ·)) := by
  induction cs generalizing p with
  | nil =>
    obtain rfl := Option.some.inj h
    cases hrest : splitCommas .top rest with
    | none => simp [hrest]
    | some pieces => cases pieces <;> simp [hrest]
  | cons c cs ih =>
    rw [List.foldlM_cons] at h
    obtain ⟨q, hq, h⟩ := Option.bind_eq_some_iff.mp h
    obtain ⟨hcomma, hq⟩ := Place.inside_eq_some_iff.mp hq
    rw [List.cons_append, splitCommas, if_neg hcomma, hq, Option.bind_some, ih h, Option.map_map]
    congr 1
    funext pieces
    simp [Function.comp_def]

theorem splitCommas_of_isArgument {cs : List Char} (h : IsArgument cs) : splitCommas .top cs = some [cs] := by
  have happend := splitCommas_append ((isArgument_iff cs).mp h) []
  rw [List.append_nil] at happend
  rw [happend]
  simp [splitCommas]

theorem splitCommas_comma {cs rest : List Char} (h : IsArgument cs) :
    splitCommas .top (cs ++ ',' :: rest) = (splitCommas .top rest).map (cs :: ·) := by
  have hcomma : splitCommas .top (',' :: rest) = (splitCommas .top rest).map ([] :: ·) := rfl
  rw [splitCommas_append ((isArgument_iff cs).mp h), hcomma, Option.map_map]
  congr 1
  funext pieces
  simp

/-- Arguments with commas and blanks between them are the pieces, with the blanks. -/
theorem splitCommas_intercalate {first : List Char} {others : List (List Char)}
    (h : ∀ cs ∈ first :: others, IsArgument cs) :
    splitCommas .top ([',', ' '].intercalate (first :: others)) = some (first :: others.map (' ' :: ·)) := by
  induction others generalizing first with
  | nil => simpa using splitCommas_of_isArgument (h first (by simp))
  | cons second others ih =>
    obtain ⟨hfirst, hrest⟩ := List.forall_mem_cons.mp h
    have hblank : splitCommas .top (' ' :: [',', ' '].intercalate (second :: others)) =
        (splitCommas .top ([',', ' '].intercalate (second :: others))).map (List.modifyHead (' ' :: ·)) := rfl
    rw [List.intercalate_cons_cons, List.append_assoc, List.cons_append, splitCommas_comma hfirst,
      List.singleton_append, hblank, ih hrest]
    rfl

/-- Arguments come back from their list, unless one is empty: a list of nothing has none. -/
theorem splitArguments_intercalate {texts : List (List Char)} (h : ∀ cs ∈ texts, IsArgument cs ∧ cs ≠ []) :
    splitArguments ([',', ' '].intercalate texts) = some texts := by
  cases texts with
  | nil => rfl
  | cons first others =>
    obtain ⟨hfirst, -⟩ := List.forall_mem_cons.mp h
    obtain ⟨tail, htail⟩ := isPrefix_intercalate [',', ' '] first others
    have hne : [',', ' '].intercalate (first :: others) ≠ [] := by
      rw [← htail]
      simp [hfirst.2]
    rw [splitArguments, if_neg hne, splitCommas_intercalate fun cs hcs => (h cs hcs).1]
    simp [dropBlanks, dropBlank, Function.comp_def]

namespace Fragment

inductive IsMade : Fragment → Prop where
  | origin {o : Origin} {f : Fragment} (h : o.make = .ok f) : IsMade f
  | binary (op : Operator) {a b : Fragment} (ha : IsMade a) (hb : IsMade b) : IsMade (op.apply a b)
  | negate {a : Fragment} (ha : IsMade a) : IsMade a.negate
  | group {a : Fragment} (ha : IsMade a) : IsMade a.group

end Fragment

theorem ne_nil_of_isTokenPath {path : String} (h : isTokenPath path = true) : path.toList ≠ [] := by
  obtain ⟨c, rest, hpath, -⟩ := head_of_isTokenPath h
  simp [hpath]

theorem ne_nil_of_isWrappable {content : String} (h : isWrappable content = true) : content.toList ≠ [] :=
  ((isWrappable_iff content).mp h).1

theorem Origin.inner_ne_nil {o : Origin} {f : Fragment} (h : o.make = .ok f) : f.inner.toList ≠ [] := by
  cases o with
  | token path =>
    obtain ⟨hpath, rfl⟩ := Fragment.token_eq_ok_iff.mp h
    exact ne_nil_of_isTokenPath hpath
  | raw text =>
    obtain rfl := Except.ok.inj h
    change (quote text).toList ≠ []
    simp [toList_quote]
  | expression text => exact ne_nil_of_isWrappable (isWrappable_expression h)
  | boolean b =>
    obtain rfl := Except.ok.inj h
    cases b <;> decide
  | number n =>
    obtain rfl := Except.ok.inj h
    exact ne_nil_of_isWrappable (isWrappable_number n)
  | leaf l known =>
    obtain rfl := Except.ok.inj h
    exact ne_nil_of_isWrappable (Leaf.isWrappable_path known)
  | member m => exact ne_nil_of_isWrappable (Member.isWrappable_fragment h)
  | event steps =>
    obtain ⟨p, hp, rfl⟩ := map_eq_ok.mp h
    exact ne_nil_of_isTokenPath (isTokenPath_steps (by decide) hp)
  | root path steps =>
    obtain ⟨p, hp, h⟩ := bind_eq_ok.mp h
    obtain ⟨q, hq, h⟩ := bind_eq_ok.mp h
    obtain rfl := Except.ok.inj h
    obtain ⟨f, hf, rfl⟩ := map_eq_ok.mp hp
    exact ne_nil_of_isTokenPath (isTokenPath_steps (Fragment.token_eq_ok_iff.mp hf).1 hq)
  | call function args =>
    obtain ⟨texts, -, rfl⟩ := function.call_eq_ok h
    simp [toList_make]

theorem Fragment.IsMade.inner_ne_nil {f : Fragment} (h : f.IsMade) : f.inner.toList ≠ [] := by
  induction h with
  | origin h => exact Origin.inner_ne_nil h
  | binary op => simp [op.apply_eq, Fragment.binary]
  | negate => simp [Fragment.negate]
  | @group a _ ih =>
    unfold Fragment.group
    split
    · exact ih
    · simp [Fragment.inParens]

/-- What a value is written as, if that is one argument. -/
inductive Argument.Gives : Argument → String → Prop where
  | fragment {f : Fragment} (hm : f.IsMade) (h : IsArgument f.inner.toList) : Gives (.fragment f) f.inner
  | wrapped {w : Wrapped} (h : IsArgument w.inner.toList) : Gives (.wrapped w) w.inner
  | bool (b : Bool) : Gives (.bool b) (if b then "true" else "false")
  | int (n : Int) : Gives (.int n) (toString n)
  /-- A text that looks like nothing else is a literal. -/
  | literal {s : String} (hs : ¬ openMark.toList <+: s.toList) (hp : isTokenPath s = false)
      (hc : ∀ c ∈ s.toList, isBlank c = false ∧ c ∉ "()|&<>!=".toList) : Gives (.text s) (quote s)

namespace Argument.Gives

variable {a : Argument} {text : String}

theorem argument (h : a.Gives text) (name : String) : Call.argument name a = .ok text := by
  cases h with
  | @literal s hs hp hc =>
    have hlooks : looksComposed s = false := by
      simp only [looksComposed, List.any_eq_false, Bool.or_eq_true, not_or]
      exact fun c hm => ⟨by simpa using (hc c hm).2, by simp [(hc c hm).1]⟩
    have hcall : (Argument.text s).inCall = .ok (some (quote s)) := by
      simp [inCall, innerWith, List.isPrefixOf_iff_prefix, hs, hp, hlooks]
    rw [Call.argument, hcall]
    rfl
  | _ => rfl

theorem isArgument (h : a.Gives text) : IsArgument text.toList := by
  cases h with
  | fragment hm h => exact h
  | wrapped h => exact h
  | bool b => cases b <;> exact .of_plain (forall_mem_of_all (by decide))
  | int n =>
    refine .of_plain fun c hc => ?_
    have hchar := mem_toString_int hc
    refine ⟨?_, ?_, ?_, ?_⟩ <;> rintro rfl <;> exact absurd hchar (by decide)
  | @literal s => exact .of_literal s

theorem ne_nil (h : a.Gives text) : text.toList ≠ [] := by
  cases h with
  | fragment hm h => exact hm.inner_ne_nil
  | @wrapped w h => exact w.inner_ne_nil
  | bool b => cases b <;> decide
  | int n => exact ne_nil_of_isWrappable (isWrappable_number n)
  | @literal s => simp [toList_quote]

end Argument.Gives

namespace Function

/-- Whether a function takes so many arguments. A format takes any number behind a template with a placeholder. -/
def takes : Function → Nat → Bool
  | .format template, _ => hasPlaceholder template.toList
  | .hashFiles, n => 0 < n
  | .contains, n | .startsWith, n | .endsWith, n => n = 2
  | .toJson, n | .fromJson, n | .join _, n => n = 1
  | _, n => n = 0

/-- A call with as many arguments as its function takes is made from them, or fails like the first that fails. -/
theorem call_eq {f : Function} {args : List Argument} (h : f.takes args.length = true) :
    f.call args = (args.mapM (Call.argument f.name)).map fun texts => Call.make f.name (f.around quote texts) := by
  have hlist : ∀ name, Call.ofArguments name args = (args.mapM (Call.argument name)).map (Call.make name) := by
    intro name
    unfold Call.ofArguments
    cases args.mapM (Call.argument name) <;> rfl
  cases f
  case always | success | failure | cancelled =>
    obtain rfl := List.length_eq_zero_iff.mp (of_decide_eq_true h)
    rfl
  case contains | startsWith | endsWith =>
    obtain ⟨first, second, rfl⟩ := List.length_eq_two.mp (of_decide_eq_true h)
    exact hlist _
  case toJson | fromJson =>
    obtain ⟨value, rfl⟩ := List.length_eq_one_iff.mp (of_decide_eq_true h)
    exact hlist _
  case join separator =>
    obtain ⟨array, rfl⟩ := List.length_eq_one_iff.mp (of_decide_eq_true h)
    change (Call.argument "join" array >>= fun text => .ok (Call.make "join" [text, quote separator])) = _
    rw [List.mapM_cons, name]
    cases Call.argument "join" array <;> rfl
  case format template =>
    change Call.format template args = _
    rw [Call.format, if_pos (show hasPlaceholder template.toList = true from h), name]
    cases args.mapM (Call.argument "format") <;> rfl
  case hashFiles =>
    -- with a path there is a text, so the list that is checked again is not empty
    obtain ⟨path, paths, rfl⟩ := List.exists_cons_of_length_pos (of_decide_eq_true h)
    change Call.hashFiles (path :: paths) = _
    rw [Call.hashFiles, name, List.mapM_cons]
    cases Call.argument "hashFiles" path with
    | error e => rfl
    | ok text => cases paths.mapM (Call.argument "hashFiles") <;> rfl

end Function

/-- The first argument that is missing is told, by the name of the function. -/
theorem mapM_argument_missing {name : String} {before : List Argument} {texts : List String}
    (h : List.Forall₂ Argument.Gives before texts) (after : List Argument) :
    (before ++ .missing :: after).mapM (Call.argument name) = .error (.missingArgument name) := by
  induction h with
  | nil => rfl
  | cons ha _ ih =>
    rw [List.cons_append, List.mapM_cons, ha.argument, ih]
    rfl

theorem mapM_argument_gives {name : String} {args : List Argument} {texts : List String}
    (h : List.Forall₂ Argument.Gives args texts) : args.mapM (Call.argument name) = .ok texts := by
  induction h with
  | nil => rfl
  | cons ha _ ih =>
    rw [List.mapM_cons, ha.argument, ih]
    rfl

theorem Function.name_plain (f : Function) :
    ∀ c ∈ f.name.toList, c ≠ '\'' ∧ c ≠ '(' ∧ c ≠ ')' ∧ c ≠ ',' := by
  refine forall_mem_of_all ?_
  cases f <;> simp only [name] <;> decide

section Lists

variable {f : Function} {args : List Argument} {texts : List String}

/-- In the list of a call stand arguments that are not empty, the literals of the function among them. -/
theorem forall_around (h : List.Forall₂ Argument.Gives args texts) :
    ∀ cs ∈ (f.around quote texts).map String.toList, IsArgument cs ∧ cs ≠ [] := by
  have htexts : ∀ text ∈ texts, IsArgument text.toList ∧ text.toList ≠ [] := by
    induction h with
    | nil => simp
    | cons ha _ ih => exact List.forall_mem_cons.mpr ⟨⟨ha.isArgument, ha.ne_nil⟩, ih⟩
  intro cs hcs
  obtain ⟨text, htext, rfl⟩ := List.mem_map.mp hcs
  obtain htext | ⟨s, -, rfl⟩ := Function.mem_around.mp htext
  · exact htexts text htext
  · exact ⟨.of_literal s, by simp [toList_quote]⟩

theorem isArgument_make (h : List.Forall₂ Argument.Gives args texts) :
    IsArgument (Call.make f.name (f.around quote texts)).inner.toList := by
  have hlist : IsBalanced ([',', ' '].intercalate ((f.around quote texts).map String.toList)) :=
    .intercalate fun cs hcs => (forall_around h cs hcs).1.balanced
  rw [toList_make]
  exact (IsArgument.of_plain f.name_plain).append (.of_parens hlist)

end Lists

/-- A call is the name of its function and a list in parentheses, and cutting the list gives the arguments back, one
for one and in order, with the literals of the function among them; a literal says its text and nothing else. With a
missing argument, or none where one is needed, there is no call but an error that names the function. A format whose
template has no placeholder is no call, with any arguments. -/
theorem call_keeps_arguments (f : Function) :
    (∀ (args : List Argument) (texts : List String), f.takes args.length = true →
      List.Forall₂ Argument.Gives args texts → ∃ (c : Fragment) (list : String), f.call args = .ok c ∧
        c.inner = f.name ++ "(" ++ list ++ ")" ∧ IsArgument c.inner.toList ∧
        splitArguments list.toList = some ((f.around quote texts).map String.toList)) ∧
    (∀ (before after : List Argument) (texts : List String), f.takes (before ++ .missing :: after).length = true →
      List.Forall₂ Argument.Gives before texts →
        f.call (before ++ .missing :: after) = .error (.missingArgument f.name)) ∧
    Function.hashFiles.call [] = .error (.missingArgument "hashFiles") ∧
    (∀ (template : String) (args : List Argument), hasPlaceholder template.toList = false →
      (Function.format template).call args = .error (.missingPlaceholder template)) ∧
    (∀ s : String, Reads (quote s).toList [.literal s.toList]) ∧
    ∀ array : Argument, Call.join array none = (Function.join ",").call [array] := by
  refine ⟨fun args texts hn h => ?_, fun before after texts hn h => ?_, rfl, fun template args hn => ?_,
    fun s => (isOneOperand_quote s).reads, fun array => rfl⟩
  · refine ⟨Call.make f.name (f.around quote texts), ", ".intercalate (f.around quote texts), ?_, rfl,
      isArgument_make h, ?_⟩
    · rw [Function.call_eq hn, mapM_argument_gives h]
      rfl
    · rw [String.toList_intercalate]
      exact splitArguments_intercalate (forall_around h)
  · rw [Function.call_eq hn, mapM_argument_missing h]
    rfl
  · exact if_neg (by simp [hn])

/-- Commas, quotes and parentheses in a literal or in a nested call part no arguments. -/
theorem call_keeps_arguments_nested :
    (Function.format "\x7b0\x7d, (it's").takes 4 = true ∧ ∃ (c : Fragment) (list : String),
      (Function.format "\x7b0\x7d, (it's").call
        [.fragment ⟨"join(github.x, ')')", .call⟩, .text "a,'b", .bool true, .int (-3)] = .ok c ∧
      c.inner = "format(" ++ list ++ ")" ∧
      splitArguments list.toList = some (["'\x7b0\x7d, (it''s'", "join(github.x, ')')", "'a,''b'", "true", "-3"].map
        String.toList) ∧
      (Function.format "\x7b0\x7d, (it's").call [.bool true, .missing, .text "a,'b"] =
        .error (.missingArgument "format") ∧
      (Function.format "\x7b\x7d").call [.missing] = .error (.missingPlaceholder "\x7b\x7d") := by
  have hmade : Fragment.IsMade ⟨"join(github.x, ')')", .call⟩ :=
    .origin (o := .call (.join ")") [.text "github.x"]) rfl
  have hnested : (Argument.fragment ⟨"join(github.x, ')')", .call⟩).Gives "join(github.x, ')')" :=
    .fragment hmade ((isArgument_iff _).mpr (by decide))
  have hliteral : (Argument.text "a,'b").Gives "'a,''b'" :=
    .literal (by decide) (by decide) (forall_mem_of_all (by decide))
  have hgives := List.Forall₂.cons hnested (.cons hliteral (.cons (.bool true) (.cons (.int (-3)) .nil)))
  obtain ⟨hcall, hmissing, -, hformat, -⟩ := call_keeps_arguments (.format "\x7b0\x7d, (it's")
  obtain ⟨c, list, hc, htext, -, hlist⟩ := hcall _ _ (by decide) hgives
  exact ⟨by decide, c, list, hc, htext, hlist.trans rfl,
    hmissing [.bool true] [.text "a,'b"] _ (by decide) (.cons (.bool true) .nil), hformat _ _ (by decide)⟩

end CiWorkflow.Expression
