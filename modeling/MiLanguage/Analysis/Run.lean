import MiLanguage.Analysis.State
import MiLanguage.Settings.Basic
import MiLanguage.Token.Stream

set_option autoImplicit false

namespace MiLanguage

/-- What an analysis finds out. The tree is empty if the declarations have errors. -/
structure Analysis where
  root : Node
  modules : ModuleTree
  log : DiagnosticLog

namespace Analysis

def emptyRoot : Node := .new .parent 0

def isOk (a : Analysis) : Bool := !a.log.failed

-- A pass starts over at root level, with the declarations that are known so far.
def startPass (setting : Setting) (modules : ModuleTree) (log : DiagnosticLog)
    (tokens : List Token) : AnalysisState where
  setting := setting
  remaining := tokens
  environment :=
    { modules
      scopes := .start ModuleTree.root emptyRoot
      inLibrary := tokens.head?.any (·.span.isLibrary) }
  log := log

def runPass (setting : Setting) (modules : ModuleTree) (log : DiagnosticLog)
    (tokens : List Token) : AnalysisState :=
  ((startPass setting modules log tokens).steps tokens.length).finish tokens.getLast?

def ofTokens (host : Host) (maxErrors : Nat) (tokens : List Token) : Analysis :=
  let first := runPass ⟨.declarations, host⟩ .empty { maxErrors } tokens
  let modules := first.environment.modules
  if first.log.failed then ⟨emptyRoot, modules, first.log⟩
  else
    let second := runPass ⟨.bodies, host⟩ modules first.log tokens
    ⟨second.root, second.environment.modules, second.log⟩

def lexicalDiagnostic (text : String) (e : LexicalError) : Diagnostic :=
  let position := Position.ofOffset text e.span.start
  { severity := .error
    kind := .lexical
    message := e.message
    line := position.line
    column := position.column
    span := some e.span }

-- Analyzes a user's text under the given settings. A text that does not split into tokens has one
-- error.
def ofSource (text : String) (settings : Settings) (host : Host) : Analysis :=
  match programTokens text settings.withLibrary with
  | .ok tokens => ofTokens host settings.maxErrors tokens
  | .error e =>
      let text := if e.span.isLibrary then librarySource else text
      let log : DiagnosticLog := { maxErrors := settings.maxErrors }
      ⟨emptyRoot, .empty, log.report (lexicalDiagnostic text e)⟩

-- Neither errors, nor warnings where those are denied.
def passes (a : Analysis) (settings : Settings) : Bool :=
  a.isOk && !(settings.denyWarnings && !a.log.warnings.isEmpty)

end Analysis

end MiLanguage
