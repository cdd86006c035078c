set_option autoImplicit false

namespace CodeAudit

inductive Step where
  | field (name : String)
  | item (index : Nat)
  deriving DecidableEq, Repr

inductive Defect where
  | missing
  | notMember
  | notText
  | notObject
  | notRecord
  | notList
  | belowMinimum
  | reversed
  | unreadableInteger
  | longInteger
  | notInteger
  | fractional
  | notFinite
  | unreadableNumber
  | notNumber
  | unreadableFlag
  | notFlag
  | notLiteral
  deriving DecidableEq, Repr

structure Fault where
  location : List Step
  defect : Defect
  deriving DecidableEq, Repr

namespace Fault

def under (step : Step) (f : Fault) : Fault := { f with location := step :: f.location }

end Fault

inductive ReviewFault where
  | transport
  | timeout
  | noJson
  | invalidJson
  deriving DecidableEq, Repr

namespace ReviewFault

def name : ReviewFault → String
  | .transport => "transport"
  | .timeout => "timeout"
  | .noJson => "no_json"
  | .invalidJson => "invalid_json"

def all : List ReviewFault := [.transport, .timeout, .noJson, .invalidJson]

def ofName? (s : String) : Option ReviewFault := all.find? fun f => f.name == s

end ReviewFault

inductive Failure where
  /-- An unusable configuration. It ends a run, whoever meets it. -/
  | config (message : String)
  | analysis (message : String)
  | unparsed (path : String) (reason : Option String)
  | review (fault : ReviewFault) (message : String)
  | stopped (message : String)
  | model (message : String)
  | modelTimeout (message : String)
  | timeout (message : String)
  | invalid (faults : List Fault)
  | settings (message : String)
  | value (message : String)
  | overflow (message : String)
  | mismatch (message : String)
  | attribute (message : String)
  | runtime (message : String)
  | depth (message : String)
  deriving DecidableEq, Repr

namespace Failure

def message : Failure → String
  | .config m | .analysis m | .review _ m | .stopped m | .model m | .modelTimeout m | .timeout m
  | .settings m | .value m | .overflow m | .mismatch m | .attribute m | .runtime m | .depth m => m
  | .unparsed path reason =>
    match reason with
    | none | some "" => "Failed to parse " ++ path
    | some m => m
  | .invalid faults => toString faults.length ++ " validation errors"

def isConfig : Failure → Bool
  | .config _ => true
  | _ => false

def isTimeout : Failure → Bool
  | .timeout _ | .modelTimeout _ => true
  | _ => false

def integerTooLarge : Failure := .overflow "int too large to convert to float"

def tooManyDigits : Failure := .value "too many digits for an integer"

def tooDeep : Failure := .depth "maximum recursion depth exceeded"

def infiniteInteger : Failure := .overflow "cannot convert float infinity to integer"

def undefinedInteger : Failure := .value "cannot convert float NaN to integer"

end Failure
end CodeAudit
