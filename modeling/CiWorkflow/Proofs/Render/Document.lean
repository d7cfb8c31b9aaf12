import CiWorkflow.Proofs.Text.Every
import CiWorkflow.Proofs.Workflow.Canonical
import CiWorkflow.Proofs.Yaml.Scan
import CiWorkflow.Render.Document

set_option autoImplicit false

namespace CiWorkflow.Render

open Yaml Yaml.Scanner Position

theorem commentBlock_defaultHeader : commentBlock defaultHeader = defaultHeader := by
  decide +kernel

theorem all_isAllowed_defaultHeader : defaultHeader.toList.all isAllowed = true := by
  decide +kernel

theorem leads_defaultHeader (rest : List Char) :
    Leads (Scanner.start (Position.start.cells (defaultHeader.toList ++ rest)))
      (Scanner.start ((Position.start.after defaultHeader.toList).cells rest)) := by
  have hlines : defaultHeader.toList = ('#' :: " Do not modify!".toList ++ ['\n']) ++
      ('#' :: " Generated by ghaflow; edit the workflow definition instead.".toList ++ ['\n']) := by
    decide +kernel
  have hfirst := leads_comment Position.start " Do not modify!".toList
    ('#' :: " Generated by ghaflow; edit the workflow definition instead.".toList ++ '\n' :: rest)
    (Text.forall_mem_of_all (by decide))
  have hsecond := leads_comment (Position.start.after ('#' :: " Do not modify!".toList ++ ['\n']))
    " Generated by ghaflow; edit the workflow definition instead.".toList rest (Text.forall_mem_of_all (by decide))
  rw [hlines, after_append]
  simpa using hfirst.trans hsecond

theorem tokens_of_header_ends {cs : List Char} {ts : List Token}
    (ha : cs.all isAllowed = true)
    (h : Ends (Scanner.start ((Position.start.after defaultHeader.toList).cells cs)) ts) :
    tokens? (defaultHeader ++ String.ofList cs) = some ts := by
  refine tokens_of_ends ?_ ?_
  · simpa [List.all_append] using ⟨by simpa using all_isAllowed_defaultHeader, by simpa using ha⟩
  · rw [String.toList_append, String.toList_ofList]
    exact (leads_defaultHeader cs).ends h

theorem tokens_of_header_fails {cs : List Char}
    (h : Fails (Scanner.start ((Position.start.after defaultHeader.toList).cells cs))) :
    tokens? (defaultHeader ++ String.ofList cs) = none := by
  refine tokens_of_fails ?_
  rw [String.toList_append, String.toList_ofList]
  exact (leads_defaultHeader cs).fails h

theorem all_isAllowed_of_tokens {cs : List Char} {ts : List Token}
    (h : tokens? (defaultHeader ++ String.ofList cs) = some ts) : cs.all isAllowed = true := by
  have hall := isAllowed_of_tokens h
  rw [String.toList_append, String.toList_ofList, List.all_append, Bool.and_eq_true] at hall
  exact hall.2

theorem exists_mapping_of_canonical {w : Workflow} {v : Value} (h : w.canonical = .ok v) :
    ∃ es, v = .mapping es := by
  have hv := Workflow.value_of_canonical h
  rw [Workflow.value?, Option.bind_eq_bind, Option.bind_eq_some_iff] at hv
  obtain ⟨jobs, -, hv⟩ := hv
  cases hv
  exact ⟨_, rfl⟩

def scriptWorkflow (script : String) : Workflow :=
  { Workflow.new "n" (.event "push") with
    jobs := .ofList [("j", { Job.onRunner (.one (.label "u")) with steps := some [Step.ofScript script] })] }

def scriptValue (script : String) : Value :=
  .mapping [(.string "name", .string "n"), (.string "on", .string "push"), (.string "jobs",
    .mapping [(.string "j", .mapping [(.string "runs-on", .string "u"), (.string "steps",
      .sequence [.mapping [(.string "run", .string script)]])])])]

theorem canonical_scriptWorkflow (script : String) :
    (scriptWorkflow script).canonical = .ok (scriptValue script) := rfl

end CiWorkflow.Render
