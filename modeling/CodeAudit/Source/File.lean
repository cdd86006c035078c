import CodeAudit.Source.Path
import CodeAudit.Text.Lines
import CodeAudit.Text.Utf8

set_option autoImplicit false

namespace CodeAudit

inductive Language where
  | javascript
  | typescript
  | python
  | java
  | go
  | rust
  | unknown
  deriving DecidableEq, Repr

namespace Language

def name : Language → String
  | .javascript => "JavaScript"
  | .typescript => "TypeScript"
  | .python => "Python"
  | .java => "Java"
  | .go => "Go"
  | .rust => "Rust"
  | .unknown => "Unknown"

def ofExtension? : String → Option Language
  | ".js" | ".jsx" => some .javascript
  | ".ts" | ".tsx" => some .typescript
  | ".py" => some .python
  | ".java" => some .java
  | ".go" => some .go
  | ".rs" => some .rust
  | _ => none

def ofPath (path : String) : Language := (ofExtension? (Path.extension path)).getD .unknown

end Language

structure SourceFile where
  path : String
  text : String
  deriving DecidableEq, Repr

namespace SourceFile

def size (f : SourceFile) : Nat := f.text.utf8ByteSize

def lineCount (f : SourceFile) : Nat := Text.lineCount f.text.toList

def language (f : SourceFile) : Language := .ofPath f.path

end SourceFile
end CodeAudit
