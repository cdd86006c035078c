import CodeAudit.Finding.Basic

/-!
The catalogue of what the rules report: for each kind of report its name, its category, and how grave
it is. Four kinds have a graver form.
-/
set_option autoImplicit false

namespace CodeAudit

inductive Code where
  | emptyCatch
  | unusedVariable
  | varKeyword
  | nestedTernary
  | deepNesting
  | looseEquality
  | complexFunction
  | complexFile
  | longFunction
  | largeClass
  | magicNumber
  | naming
  | console
  | debugger
  | eval
  | functionConstructor
  | impliedEval
  | documentWrite
  | sqlInjection
  | innerHtml
  | outerHtml
  | unverifiedConnection
  | hardcodedSecret
  | insecureUrl
  | searchInLoop
  | blockingFileCall
  | uncaughtAsync
  | uncaughtPromise
  | warningComment
  deriving DecidableEq, Repr

namespace Code

def name : Code → String
  | .emptyCatch => "no-empty-catch"
  | .unusedVariable => "no-unused-vars"
  | .varKeyword => "no-var"
  | .nestedTernary => "no-nested-ternary"
  | .deepNesting => "max-depth"
  | .looseEquality => "eqeqeq"
  | .complexFunction => "cyclomatic-complexity"
  | .complexFile => "file-complexity"
  | .longFunction => "function-size"
  | .largeClass => "class-size"
  | .magicNumber => "no-magic-numbers"
  | .naming => "naming-convention"
  | .console => "no-console"
  | .debugger => "no-debugger"
  | .eval => "no-eval"
  | .functionConstructor => "no-new-function"
  | .impliedEval => "no-implied-eval"
  | .documentWrite => "no-document-write"
  | .sqlInjection => "sql-injection-risk"
  | .innerHtml => "no-inner-html"
  | .outerHtml => "no-outer-html"
  | .unverifiedConnection => "ssl-verification-disabled"
  | .hardcodedSecret => "no-hardcoded-secrets"
  | .insecureUrl => "prefer-https"
  | .searchInLoop => "no-nested-array-methods"
  | .blockingFileCall => "no-sync-fs"
  | .uncaughtAsync => "async-error-handling"
  | .uncaughtPromise => "promise-error-handling"
  | .warningComment => "no-warning-comments"

def category : Code → Category
  | .emptyCatch | .unusedVariable | .varKeyword | .nestedTernary | .looseEquality | .console
  | .debugger | .uncaughtAsync | .uncaughtPromise => .codeQuality
  | .deepNesting | .complexFunction | .complexFile | .longFunction | .magicNumber
  | .warningComment => .maintainability
  | .largeClass => .architecture
  | .naming => .readability
  | .eval | .functionConstructor | .impliedEval | .documentWrite | .sqlInjection | .innerHtml
  | .outerHtml | .unverifiedConnection | .hardcodedSecret | .insecureUrl => .security
  | .searchInLoop | .blockingFileCall => .performance

def severity : Code → Severity
  | .unusedVariable | .varKeyword | .looseEquality | .magicNumber | .naming | .console | .insecureUrl
  | .blockingFileCall | .uncaughtPromise | .warningComment => .low
  | .emptyCatch | .nestedTernary | .deepNesting | .complexFunction | .complexFile | .longFunction
  | .largeClass | .debugger | .impliedEval | .documentWrite | .sqlInjection | .searchInLoop
  | .uncaughtAsync => .medium
  | .eval | .functionConstructor | .innerHtml | .outerHtml | .unverifiedConnection
  | .hardcodedSecret => .high

end Code
end CodeAudit
