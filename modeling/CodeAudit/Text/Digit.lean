import CodeAudit.Text.Table.Zeros

set_option autoImplicit false

namespace CodeAudit.Text

def digitValue? (c : Char) : Option Nat :=
  if c.isDigit then some (c.toNat - 48)
  else (Table.zeros.find? fun z => z ≤ c.toNat && c.toNat < z + 10).map (c.toNat - ·)

def isDecimal (c : Char) : Bool := (digitValue? c).isSome

def plainDigit (c : Char) : Char :=
  match digitValue? c with
  | some d => Nat.digitChar d
  | none => c

def valueIn (base : Nat) (ds : List Char) : Nat :=
  ds.foldl (fun n c => n * base + (digitIn? base c).getD 0) 0
where
  digitIn? (base : Nat) (c : Char) : Option Nat :=
    let d := if c.isDigit then c.toNat - 48 else if c.isLower then c.toNat - 87 else base
    if d < base then some d else none

end CodeAudit.Text
