import CodeAudit.Settings.Basic

set_option autoImplicit false

namespace CodeAudit

inductive Response where
  | completion (content model : Json) (usage : Fields) (cost : Option Json)
  | failure (timeout : Bool) (message : String)
  deriving Repr

structure Completion where
  content : Json
  model : Json
  usage : Fields
  cost : Json
  deriving Repr

namespace Completion

def toJson (c : Completion) : Json := .object [
  ("content", c.content), ("model", c.model), ("usage", .object c.usage), ("cost", c.cost)]

end Completion

structure Provider where
  start : String
  keyName : String
  standIn : String
  deriving DecidableEq, Repr

def providers : List Provider := [
  ⟨"groq/", "GROQ_API_KEY", "groq/llama-3.3-70b-versatile"⟩,
  ⟨"openai/", "OPENAI_API_KEY", "openai/gpt-4o-mini"⟩,
  ⟨"anthropic/", "ANTHROPIC_API_KEY", "anthropic/claude-3-5-haiku-latest"⟩,
  ⟨"gemini/", "GEMINI_API_KEY", "gemini/gemini-2.0-flash"⟩]

abbrev Environment := List (String × String)

namespace Environment

def get? (name : String) : Environment → Option String
  | [] => none
  | (n, v) :: r => if n = name then some v else get? name r

def set (name value : String) : Environment → Environment
  | [] => [(name, value)]
  | (n, v) :: r => if n = name then (n, value) :: r else (n, v) :: set name value r

def holds (e : Environment) (name : String) : Bool :=
  match e.get? name with
  | some v => v != ""
  | none => false

end Environment

structure Gateway where
  settings : Settings
  defaultModel : String
  environment : Environment
  ready : Bool := false
  sent : List Fields := []
  deriving Repr

namespace Gateway

def logName : String := "LITELLM_LOG"

def exportKeys (s : Settings) (e : Environment) : Environment :=
  (providers.zip s.keys).foldl (fun e (p, key) => if key == "" then e else e.set p.keyName key) e

def of (s : Settings) (e : Environment) (model : Option String) : Gateway := {
  settings := s
  defaultModel := (model.filter (· != "")).getD s.model
  environment := exportKeys s e }

def standIns (g : Gateway) (model : String) : List String :=
  (providers.filter fun p => p.standIn != model && g.environment.holds p.keyName).map (·.standIn)

def prepare (g : Gateway) : Gateway :=
  if g.ready then g
  else { g with
    ready := true
    environment := if g.settings.debug then g.environment.set logName "DEBUG" else g.environment }

/-- A given value, unless it is missing, null or empty. -/
def orElse (v : Option Json) (default : Json) : Json := (v.filter Json.isGiven).getD default

def others (names : List String) (args : Fields) : Fields := args.filter fun a => !names.contains a.1.text

def parameters (g : Gateway) (messages : Json) (args : Fields) : Fields :=
  let model := orElse (args.get? "model") (.text g.defaultModel)
  let base : Fields := [
    ("model", model), ("messages", messages),
    ("temperature", (args.get? "temperature").getD (.float (decimal 3 (-1)))),
    ("max_tokens", (args.get? "max_tokens").getD (.int 4096))]
  let all := (others ["messages", "model", "temperature", "max_tokens", "fallback"] args).foldl
    (fun ps (n, v) => ps.put n v) base
  let standIns := match model with
    | .string t => g.standIns t.text
    | _ => g.standIns ""
  if ((args.get? "fallback").getD (.bool true)).isGiven && !standIns.isEmpty then
    all.put "fallbacks" (.texts standIns)
  else all

def counts : List String := ["prompt_tokens", "completion_tokens", "total_tokens"]

def completion : Response → Except Failure Completion
  | .failure true m => .error (.modelTimeout ("Request timed out: " ++ m))
  | .failure false m => .error (.model ("All models failed: " ++ m))
  | .completion content model usage cost => .ok {
      content := orElse (some content) (.text "")
      model
      usage := counts.map fun (n : String) => (.whole n, (usage.get? n).getD (.int 0))
      cost := cost.getD .null }

def missing (name : String) : Failure := .mismatch s!"missing argument: {name}"

def chat (provider : Fields → Response) (args : Fields) (g : Gateway) :
    Except Failure Completion × Gateway :=
  match args.get? "messages" with
  | none => (.error (missing "messages"), g)
  | some messages =>
    let g := g.prepare
    let ps := g.parameters messages args
    (completion (provider ps), { g with sent := g.sent ++ [ps] })

def message (role : String) (content : Json) : Json :=
  .object [("role", .text role), ("content", content)]

/-- Sends a prompt, and before it a system prompt if there is one; the messages are made of them and
cannot be given. What is not chosen is up to the settings. -/
def complete (provider : Fields → Response) (args : Fields) (g : Gateway) :
    Except Failure Completion × Gateway :=
  match args.get? "prompt", args.get? "messages" with
  | none, _ => (.error (missing "prompt"), g)
  | some _, some _ => (.error (.mismatch "unexpected argument: messages"), g)
  | some prompt, none =>
    let system := ((args.get? "system_prompt").filter Json.isGiven).toList.map (message "system")
    let temperature := ((args.get? "temperature").filter fun v => v != .null).getD
      (.float g.settings.temperature)
    let chosen : Fields := [
      ("messages", .array (system ++ [message "user" prompt])),
      ("model", (args.get? "model").getD .null), ("temperature", temperature),
      ("max_tokens", orElse (args.get? "max_tokens") (.int g.settings.maxTokens))]
    let rest := others ["prompt", "model", "temperature", "max_tokens", "system_prompt"] args
    chat provider (chosen ++ rest) g

def shownEnvironment (g : Gateway) : Environment :=
  g.environment.filter fun (n, _) => n == logName || (providers.map (·.keyName)).contains n

end Gateway
end CodeAudit
