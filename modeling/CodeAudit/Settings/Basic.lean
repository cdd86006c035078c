import CodeAudit.Failure
import CodeAudit.Number.Seconds

set_option autoImplicit false

namespace CodeAudit

inductive Deployment where
  | development
  | staging
  | production
  deriving DecidableEq, Repr

namespace Deployment

def name : Deployment → String
  | .development => "development"
  | .staging => "staging"
  | .production => "production"

def all : List Deployment := [.development, .staging, .production]

def ofName? (s : String) : Option Deployment := all.find? fun e => e.name == s

end Deployment

def decimal (digits : Nat) (power : Int) : Binary64 := .ofDecimal false digits power

structure Settings where
  deployment : Deployment := .development
  debug : Bool := false
  groqKey : String := ""
  openaiKey : String := ""
  anthropicKey : String := ""
  geminiKey : String := ""
  model : String := "groq/llama-3.3-70b-versatile"
  temperature : Binary64 := decimal 3 (-1)
  maxTokens : Int := 4096
  chunkSize : Int := 1500
  chunkOverlap : Int := 50
  reviewEnabled : Bool := true
  maxConcurrent : Int := 3
  batchDelay : Binary64 := decimal 15 (-1)
  timeout : Binary64 := decimal 120 0
  maxPromptChars : Int := 12000
  languages : List String := ["JavaScript", "TypeScript", "Python"]
  deriving DecidableEq, Repr

namespace Settings

def problem? (s : Settings) : Option String :=
  if s.chunkSize < 1 then some s!"CHUNK_SIZE must be >= 1, got {s.chunkSize}"
  else if s.chunkOverlap < 0 then some s!"CHUNK_OVERLAP must be >= 0, got {s.chunkOverlap}"
  else if s.chunkSize ≤ s.chunkOverlap then
    some (s!"CHUNK_OVERLAP ({s.chunkOverlap}) must be smaller than " ++
      s!"CHUNK_SIZE ({s.chunkSize})")
  else if s.maxConcurrent < 1 then
    some s!"MAX_CONCURRENT_AI_REQUESTS must be >= 1, got {s.maxConcurrent}"
  else if s.batchDelay.isNegative then some "AI_BATCH_DELAY_SECONDS must not be negative"
  else none

def keys (s : Settings) : List String := [s.groqKey, s.openaiKey, s.anthropicKey, s.geminiKey]

/-- The model is to be asked, but there is no key for any provider. -/
def lacksKey (s : Settings) : Bool := s.reviewEnabled && s.keys.all (· == "")

def checked (s : Settings) : Except Failure Settings :=
  match s.problem? with
  | some m => .error (.config m)
  | none => .ok s

def toJson (s : Settings) : Json := .object [
  ("app_env", .text s.deployment.name), ("debug", .bool s.debug), ("groq_api_key", .text s.groqKey),
  ("openai_api_key", .text s.openaiKey), ("anthropic_api_key", .text s.anthropicKey),
  ("gemini_api_key", .text s.geminiKey), ("default_llm_model", .text s.model),
  ("llm_temperature", .float s.temperature), ("llm_max_tokens", .int s.maxTokens),
  ("chunk_size", .int s.chunkSize), ("chunk_overlap", .int s.chunkOverlap),
  ("ai_review_enabled", .bool s.reviewEnabled), ("max_concurrent_ai_requests", .int s.maxConcurrent),
  ("ai_batch_delay_seconds", .float s.batchDelay), ("ai_request_timeout_seconds", .float s.timeout),
  ("ai_max_prompt_chars", .int s.maxPromptChars), ("ai_review_languages", .texts s.languages)]

end Settings
end CodeAudit
