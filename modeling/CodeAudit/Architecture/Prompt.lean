import CodeAudit.Review.Prompt
import CodeAudit.Source.File

set_option autoImplicit false

namespace CodeAudit

def maxFileListChars : Int := 8000

def fileList (files : List SourceFile) : String :=
  "\n".intercalate (files.map fun f => f.path ++ s!" ({f.lineCount} lines)")

def architecturePrompt (files : List SourceFile) (project : String) : String :=
  "You are a senior software architect. Analyze this codebase structure and provide insights.\n" ++
    "\n**Project:** " ++ project ++ "\n**Files:**\n" ++
    truncate (fileList files) maxFileListChars ++
    "\n\n**Instructions:**\nAnalyze the architecture and provide:\n" ++
    "1. Architecture pattern (MVC, microservices, monolith, layered, etc.)\n" ++
    "2. Quality assessment (excellent, good, needs-improvement, poor)\n" ++
    "3. Key issues (array of strings)\n4. Suggestions for improvement (array of strings)\n" ++
    "5. Identify any circular dependencies\n" ++
    "6. Generate a Mermaid.js classDiagram or graph showing dependencies between key files/modules.\n" ++
    "\n**Output Format (JSON):**\n\x7b\n  \"pattern\": \"MVC\",\n  \"quality\": \"good\",\n" ++
    "  \"issues\": [\"Missing service layer\", \"Controllers too large\"],\n" ++
    "  \"suggestions\": [\"Extract business logic to services\", \"Implement dependency injection\"],\n" ++
    "  \"circularDependencies\": [],\n" ++
    "  \"dependencyGraph\": \"graph TD;\\n  A[App] --> B[Service];\\n  B --> C[Model];\"\n" ++
    "\x7d\n\nReturn ONLY the JSON object, no additional text."

end CodeAudit
