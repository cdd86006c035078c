import CodeAudit.Finding.Schema
import CodeAudit.Json.Reader
import CodeAudit.Number.Written
import CodeAudit.Settings.Basic
import CodeAudit.Source.Directory

/-!
Where settings come from: given values first, then variables of the environment, whose values are
texts, then the defaults. Names may be in any case.
-/
set_option autoImplicit false

namespace CodeAudit.Settings
open Schema

def real : Json → Checked Binary64
  | .float x => .ok x
  | .int i =>
    match Binary64.ofInt i with
    | .infinite _ => fail .notNumber
    | x => .ok x
  | .bool b => .ok (.ofNat (if b then 1 else 0))
  | .string t => match Number.writtenReal? t.text.toList with
    | some x => .ok x
    | none => fail .unreadableNumber
  | _ => fail .notNumber

def yes : List String := ["1", "true", "t", "yes", "y", "on"]

def no : List String := ["0", "false", "f", "no", "n", "off"]

def flagOf : Int → Checked Bool
  | 0 => .ok false
  | 1 => .ok true
  | _ => fail .unreadableFlag

def leastWord : Int := -0x8000000000000000

/-- A truth value; also 0 and 1, and the words for them in any case. A number of more than 64 bits is
nothing like one. -/
def flag : Json → Checked Bool
  | .bool b => .ok b
  | .int i => if fitsWord i || i == leastWord then flagOf i else fail .notFlag
  | .float x =>
    match x.truncate? with
    | some i => if x.isWhole && fitsWord i then flagOf i else fail .notFlag
    | none => fail .notFlag
  | .string t =>
    let word := Text.lowered t.text
    if yes.contains word then .ok true
    else if no.contains word then .ok false
    else fail .unreadableFlag
  | _ => fail .notFlag

def deploymentOf : Json → Checked Deployment
  | .string t => match Deployment.ofName? t.text with
    | some d => .ok d
    | none => fail .notLiteral
  | _ => fail .notLiteral

def ofFields (fs : Fields) : Checked Settings :=
  let d : Settings := {}
  let s := both Settings.mk (defaulted "app_env" d.deployment deploymentOf fs)
    (defaulted "debug" d.debug flag fs)
  let s := apply s (defaulted "groq_api_key" d.groqKey text fs)
  let s := apply s (defaulted "openai_api_key" d.openaiKey text fs)
  let s := apply s (defaulted "anthropic_api_key" d.anthropicKey text fs)
  let s := apply s (defaulted "gemini_api_key" d.geminiKey text fs)
  let s := apply s (defaulted "default_llm_model" d.model text fs)
  let s := apply s (defaulted "llm_temperature" d.temperature real fs)
  let s := apply s (defaulted "llm_max_tokens" d.maxTokens integer fs)
  let s := apply s (defaulted "chunk_size" d.chunkSize integer fs)
  let s := apply s (defaulted "chunk_overlap" d.chunkOverlap integer fs)
  let s := apply s (defaulted "ai_review_enabled" d.reviewEnabled flag fs)
  let s := apply s (defaulted "max_concurrent_ai_requests" d.maxConcurrent integer fs)
  let s := apply s (defaulted "ai_batch_delay_seconds" d.batchDelay real fs)
  let s := apply s (defaulted "ai_request_timeout_seconds" d.timeout real fs)
  let s := apply s (defaulted "ai_max_prompt_chars" d.maxPromptChars integer fs)
  apply s (defaulted "ai_review_languages" d.languages texts fs)

def listName : String := "ai_review_languages"

/-- The value that a variable of the environment gives to a setting. The languages are a JSON list; a
JSON null gives none. -/
def valueFrom? (limit : Nat) (name value : String) : Except Failure (Option Json) :=
  if name == listName then
    match Json.ofText limit value.toList with
    | .ok .null => .ok none
    | .ok v => .ok (some v)
    | .error (.excess .nesting) => .error .tooDeep
    | .error _ => .error (.settings s!"error parsing value for field {listName}")
  else .ok (some (.text value))

/-- Variables under names in lower case; of those with one name the last counts. -/
def lowerVariables : List (String × String) → List (String × String)
  | [] => []
  | (name, value) :: r =>
    let rest := lowerVariables r
    let name := Text.lowered name
    if rest.any (·.1 == name) then rest else (name, value) :: rest

def valuesFrom (limit : Nat) : List (String × String) → Except Failure Fields
  | [] => .ok []
  | (name, value) :: r => do
    let fs ← valuesFrom limit r
    match ← valueFrom? limit name value with
    | some v => return (name, v) :: fs
    | none => return fs

/-- Given values under names in lower case; of those with one name the first counts. -/
def lowerNames (given : Fields) : Fields := given.map fun (n, v) => (Text.lowered n.text, v)

def of (limit : Nat) (given : Fields) (environment : List (String × String)) :
    Except Failure Settings := do
  let fs ← valuesFrom limit (lowerVariables environment)
  let s ← orFail (ofFields (lowerNames given ++ fs))
  s.checked

/-- The file with more variables: in the current directory, or else in the one above it. -/
def environmentFile? (root : List Entry) (current : List String) : Option String :=
  if Entry.exists? root (current ++ [".env"]) then some ".env"
  else if !current.isEmpty && Entry.exists? root (current.dropLast ++ [".env"]) then some "../.env"
  else none

end CodeAudit.Settings
