import CodeAudit.Review.Chunk
import CodeAudit.Text.Case

set_option autoImplicit false

namespace CodeAudit

/-- A text of at most `maxChars` characters, or its beginning with a mark. A negative limit counts from
the end. -/
def truncate (text : String) (maxChars : Int) : String :=
  let cs := text.toList
  if cs.length ≤ maxChars then text
  else
    let kept := if maxChars < 0 then (cs.length + maxChars).toNat else maxChars.toNat
    String.ofList (cs.take kept) ++ "\n... [truncated for length]"

def reviewPrompt (c : Chunk) (path language : String) (maxChars : Int) : String :=
  "You are a senior software engineer conducting a code review. Analyze this " ++ language ++
    " code and identify issues.\n\n**File:** " ++ path ++ "\n**Lines:** " ++ toString c.first ++
    "-" ++ toString c.last ++ "\n**Chunk:** " ++ toString (c.index + 1) ++ "/" ++
    toString c.total ++ "\n\n**Code:**\n```" ++ Text.lowered language ++ "\n" ++
    truncate c.content maxChars ++ "\n```\n\n**Instructions:**\n" ++
    "1. Identify code quality issues, security vulnerabilities, performance problems, and architectural concerns\n" ++
    "2. For each issue, provide:\n" ++
    "   - Category (code-quality, security, performance, architecture, design-pattern, maintainability, readability)\n" ++
    "   - Severity (high, medium, low)\n   - Title (brief description)\n" ++
    "   - Description (detailed explanation)\n" ++
    "   - Line number (relative to chunk start, the first line of the code above is line 1)\n" ++
    "   - Suggestion (how to fix it)\n\n**Output Format (JSON array):**\n[\n  \x7b\n" ++
    "    \"category\": \"security\",\n    \"severity\": \"high\",\n" ++
    "    \"title\": \"SQL Injection vulnerability\",\n" ++
    "    \"description\": \"User input is directly concatenated into SQL query\",\n" ++
    "    \"lineNumber\": 15,\n" ++
    "    \"suggestion\": \"Use parameterized queries or prepared statements\"\n  \x7d\n]\n" ++
    "\nReturn ONLY the JSON array, no additional text."

end CodeAudit
