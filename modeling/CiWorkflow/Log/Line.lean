import CiWorkflow.Json.Quoted
import CiWorkflow.Log.Event
import CiWorkflow.Text.Blank
import CiWorkflow.Text.Lowercase

set_option autoImplicit false

namespace CiWorkflow.Log

open Text

inductive LineFormat where
  | plain
  | json
  deriving DecidableEq, Repr

inductive Console where
  | stderr
  | none
  deriving DecidableEq, Repr

def Console.name : Console → String
  | .stderr => "stderr"
  | .none => "none"

def settingWord (s : String) : String := lowercase (String.ofList (trim s.toList))

def LineFormat.ofText (s : String) : Except String LineFormat :=
  let word := settingWord s
  if word = "plain" || word = "text" then .ok .plain
  else if word = "json" then .ok .json
  else .error ("invalid logging.format '" ++ s ++ "'; supported values are plain, json")

def Console.ofText (s : String) : Except String Console :=
  let word := settingWord s
  if word = "stderr" then .ok .stderr
  else if word = "none" then .ok .none
  else .error ("invalid logging.console_output '" ++ s ++ "'; supported values are stderr, none")

def jsonText (s : String) : String := String.ofList (Json.quoted s.toList)

namespace FieldValue

def plain : FieldValue → String
  | .text s => s
  | .number n => toString n
  | .flag b => toString b

def json : FieldValue → String
  | .text s => jsonText s
  | .number n => toString n
  | .flag b => toString b

end FieldValue

namespace Event

def plainLine (e : Event) : String :=
  e.level.name ++ " " ++ e.message ++ String.join (e.fields.map fun (k, v) => " " ++ k ++ "=" ++ v.plain)

def jsonMember (name value : String) : String := jsonText name ++ ":" ++ value

def jsonObject (members : List String) : String := "\x7b" ++ ",".intercalate members ++ "\x7d"

def jsonLine (e : Event) : String :=
  jsonObject
    [jsonMember "level" (jsonText e.level.name),
      jsonMember "fields"
        (jsonObject (jsonMember "message" (jsonText e.message) ::
          e.fields.map fun (k, v) => jsonMember k v.json))]

def line (e : Event) : LineFormat → String
  | .plain => e.plainLine
  | .json => e.jsonLine

end Event

end CiWorkflow.Log
