import CodeAudit.Source.Directory
import CodeAudit.Source.File

/-!
A project as a directory tree, and the source files in it. A directory's own files come first, by
name, then those of its subdirectories, by name; build output, dependencies and the like are not
entered, and a file that is no UTF-8 is passed over.
-/
set_option autoImplicit false

namespace CodeAudit

namespace Entry

def excluded : List String :=
  ["node_modules", ".git", "dist", "build", ".next", "coverage", "__pycache__", "venv", ".venv"]

def readText (bytes : List UInt8) : Option String :=
  (Text.Utf8.decode? bytes).map fun s => String.ofList (Text.normalizeBreaks s)

def isSource (path : String) : Bool := (Language.ofExtension? (Path.extension path)).isSome

/-- One file of the directory whose path, with a slash behind it, is `above`. -/
def readFile (above : String) : Entry → Option SourceFile
  | .file n bytes => if isSource n then (readText bytes).map fun t => ⟨above ++ n, t⟩ else none
  | .directory _ _ => none

def before (a b : String × List SourceFile) : Bool := a.1 ≤ b.1

mutual

def sources (above : String) (entries : List Entry) : List SourceFile :=
  let own := (filesIn above entries).mergeSort before
  let below := (directoriesIn above entries).mergeSort before
  own.flatMap (·.2) ++ below.flatMap (·.2)

def filesIn (above : String) : List Entry → List (String × List SourceFile)
  | [] => []
  | .file n bytes :: r => (n, (readFile above (.file n bytes)).toList) :: filesIn above r
  | .directory _ _ :: r => filesIn above r

def directoriesIn (above : String) : List Entry → List (String × List SourceFile)
  | [] => []
  | .file _ _ :: r => directoriesIn above r
  | .directory n entries :: r =>
    if excluded.contains n then directoriesIn above r
    else (n, sources (above ++ n ++ "/") entries) :: directoriesIn above r

end

end Entry

def projectFiles (root : List Entry) : List SourceFile := Entry.sources "" root

end CodeAudit
