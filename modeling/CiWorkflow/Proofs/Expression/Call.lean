import CiWorkflow.Expression.Call
import CiWorkflow.Proofs.Text.Split

set_option autoImplicit false

namespace CiWorkflow.Expression

open Text

/-- The functions, with the texts that they take as literals. A list joined without separator is joined by
commas. -/
inductive Function where
  | always
  | success
  | failure
  | cancelled
  | contains
  | startsWith
  | endsWith
  | toJson
  | fromJson
  | hashFiles
  | format (template : String)
  | join (separator : String)
  deriving DecidableEq, Repr

namespace Function

def name : Function → String
  | .always => "always"
  | .success => "success"
  | .failure => "failure"
  | .cancelled => "cancelled"
  | .contains => "contains"
  | .startsWith => "startsWith"
  | .endsWith => "endsWith"
  | .toJson => "toJSON"
  | .fromJson => "fromJSON"
  | .hashFiles => "hashFiles"
  | .format _ => "format"
  | .join _ => "join"

/-- The call with the given arguments. Calls with another number of arguments cannot be written; here they
count as calls with an argument missing. -/
def call : Function → List Argument → Except Error Fragment
  | .always, [] => .ok Call.always
  | .success, [] => .ok Call.success
  | .failure, [] => .ok Call.failure
  | .cancelled, [] => .ok Call.cancelled
  | .contains, [search, item] => Call.contains search item
  | .startsWith, [value, start] => Call.startsWith value start
  | .endsWith, [value, tail] => Call.endsWith value tail
  | .toJson, [value] => Call.toJson value
  | .fromJson, [value] => Call.fromJson value
  | .hashFiles, paths => Call.hashFiles paths
  | .format template, values => Call.format template values
  | .join separator, [array] => Call.join array (some separator)
  | f, _ => .error (.missingArgument f.name)

/-- The literals of a call stand in front of the other arguments in a format and behind them in a join. -/
def around {α : Type} (literal : String → α) : Function → List α → List α
  | .format template, args => literal template :: args
  | .join separator, args => args ++ [literal separator]
  | _, args => args

theorem map_around {α β : Type} (g : α → β) (literal : String → α) (f : Function) (args : List α) :
    (f.around literal args).map g = f.around (g ∘ literal) (args.map g) := by
  cases f <;> simp [around]

def literals : Function → List String
  | .format template => [template]
  | .join separator => [separator]
  | _ => []

theorem mem_around {α : Type} {literal : String → α} {f : Function} {args : List α} {x : α} :
    x ∈ f.around literal args ↔ x ∈ args ∨ ∃ s ∈ f.literals, literal s = x := by
  cases f <;> simp [around, literals, or_comm, eq_comm]

theorem call_eq_ok {f : Function} {args : List Argument} {c : Fragment} (h : f.call args = .ok c) :
    ∃ texts, args.mapM (Call.argument f.name) = .ok texts ∧ c = Call.make f.name (f.around quote texts) := by
  have hlist : ∀ name, Call.ofArguments name args = .ok c →
      ∃ texts, args.mapM (Call.argument name) = .ok texts ∧ c = Call.make name texts := by
    intro name hc
    obtain ⟨texts, htexts, hmake⟩ := bind_eq_ok.mp hc
    exact ⟨texts, htexts, (Except.ok.inj hmake).symm⟩
  unfold call at h
  split at h
  case h_13 => cases h
  case h_10 paths =>
    obtain ⟨texts, htexts, hmake⟩ := bind_eq_ok.mp h
    split at hmake
    · cases hmake
    · exact ⟨texts, htexts, (Except.ok.inj hmake).symm⟩
  case h_11 template values =>
    rw [Call.format] at h
    split at h
    · obtain ⟨texts, htexts, hmake⟩ := bind_eq_ok.mp h
      exact ⟨texts, htexts, (Except.ok.inj hmake).symm⟩
    · cases h
  case h_12 separator array =>
    obtain ⟨text, htext, hmake⟩ := bind_eq_ok.mp h
    refine ⟨[text], ?_, (Except.ok.inj hmake).symm⟩
    have hname : (join separator).name = "join" := rfl
    rw [hname, List.mapM_cons, htext]
    rfl
  case h_1 => exact ⟨[], rfl, (Except.ok.inj h).symm⟩
  case h_2 => exact ⟨[], rfl, (Except.ok.inj h).symm⟩
  case h_3 => exact ⟨[], rfl, (Except.ok.inj h).symm⟩
  case h_4 => exact ⟨[], rfl, (Except.ok.inj h).symm⟩
  all_goals exact hlist _ h

end Function

theorem toList_quote (text : String) : (quote text).toList =
    '\'' :: ((text.toList.flatMap fun c => if c = '\'' then ['\'', '\''] else [c]) ++ ['\'']) := by
  simp [quote]

theorem toList_make (name : String) (texts : List String) :
    (Call.make name texts).inner.toList =
      name.toList ++ '(' :: ([',', ' '].intercalate (texts.map String.toList) ++ [')']) := by
  simp [Call.make, String.toList_intercalate]

end CiWorkflow.Expression
