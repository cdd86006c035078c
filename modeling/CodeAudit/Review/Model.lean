import CodeAudit.Failure
import CodeAudit.Json.Value
import CodeAudit.Number.Seconds
import CodeAudit.Text.Search

set_option autoImplicit false

namespace CodeAudit

inductive Reply where
  | content (v : Json)
  | failure (e : Failure)
  | silence
  deriving Repr

/-- A reply, and how often the call gives way to others before it comes. -/
structure Behaviour where
  reply : Reply
  pauses : Nat := 0
  deriving Repr

/-- The outside world of a review: a model that can be called, a clock to wait by, and a limit to how many
lists and objects inside each other are read from an answer. -/
structure World (σ : Type) where
  call : String → StateM σ Behaviour
  sleep : Seconds → StateM σ Unit
  nesting : Nat

inductive Event where
  | call (number : Nat)
  | sleep (s : Seconds)
  deriving DecidableEq, Repr

/-- A scripted model: the reply for an assessment, replies for prompts that hold a text, and replies
that are used up one after the other. It keeps the prompts it saw and the course of events. -/
structure Script where
  assessment : Option Behaviour := none
  routes : List (String × Behaviour) := []
  replies : List Behaviour := []
  prompts : List String := []
  events : List Event := []
  deriving Repr

namespace Script

def exhausted : Behaviour := ⟨.failure (.model "no reply scripted"), 0⟩

def routed? (s : Script) (prompt : String) : Option Behaviour :=
  (s.assessment.filter fun _ => Text.contains prompt "senior software architect").or
    ((s.routes.find? fun r => Text.contains prompt r.1).map (·.2))

def answer (prompt : String) (s : Script) : Behaviour × Script :=
  let seen := { s with
    prompts := prompt :: s.prompts
    events := .call s.prompts.length :: s.events }
  match s.routed? prompt, s.replies with
  | some b, _ => (b, seen)
  | none, b :: r => (b, { seen with replies := r })
  | none, [] => (exhausted, seen)

def rest (d : Seconds) (s : Script) : Unit × Script := ((), { s with events := .sleep d :: s.events })

/-- What of a thousand levels is left to the reader. -/
def nesting : Nat := 960

def world : World Script := ⟨answer, rest, nesting⟩

def calls (s : Script) : Nat := s.prompts.length

def patience (s : Script) : Nat :=
  ((s.assessment.toList ++ s.routes.map (·.2) ++ s.replies).map (·.pauses)).foldl max 0

end Script
end CodeAudit
