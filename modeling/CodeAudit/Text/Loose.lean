import CodeAudit.Text.Quoted

/-!
Texts as escapes can spell them: half of a surrogate pair may stand without the other half.
-/
set_option autoImplicit false

namespace CodeAudit

inductive Letter where
  | char (c : Char)
  | half (unit : Nat)
  deriving DecidableEq, Repr

namespace Letter

def char? : Letter → Option Char
  | .char c => some c
  | .half _ => none

def toChar : Letter → Char
  | .char c => c
  | .half _ => '\uFFFD'

def escape (quote : Char) : Letter → List Char
  | .char c => Text.Quoted.escape quote c
  | .half u => '\\' :: 'u' :: Text.Quoted.hex 4 u

end Letter

inductive LooseText where
  | whole (s : String)
  | broken (letters : List Letter)
  deriving DecidableEq, Repr

namespace LooseText

instance : Coe String LooseText := ⟨.whole⟩

def ofLetters (ls : List Letter) : LooseText :=
  match ls.mapM Letter.char? with
  | some cs => .whole (String.ofList cs)
  | none => .broken ls

def text : LooseText → String
  | .whole s => s
  | .broken ls => String.ofList (ls.map Letter.toChar)

def quoted : LooseText → List Char
  | .whole s => Text.Quoted.encode s.toList
  | .broken ls =>
    let q := Text.Quoted.quoteFor (ls.map Letter.toChar)
    q :: ls.flatMap (Letter.escape q) ++ [q]

end LooseText
end CodeAudit
