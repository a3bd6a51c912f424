import MiLanguage.Statement.Control
import MiLanguage.Statement.Declaration

set_option autoImplicit false

namespace MiLanguage

/-- The environment after a statement, and the node it yields or the fault it is blamed for. A
statement that is blamed leaves the environment alone, but for the members that an enum took before
a repeated one. -/
structure Outcome where
  environment : Environment
  result : Except Report (Option Node)

def Outcome.ofChecked (env : Environment) : Checked Accepted → Outcome
  | .ok accepted => ⟨accepted.environment, .ok accepted.node⟩
  | .error report => ⟨env, .error report⟩

namespace Environment

-- Reads a statement that is no list of enum members. `first` comes after the modifiers and shows
-- what it is.
def read (env : Environment) (setting : Setting) (mods : LeadingModifiers) (first : Token)
    (rest : List Token) : Checked Accepted :=
  match first.kind with
  | .keyword .module => env.openModule setting mods first rest
  | .keyword .«class» => env.openClass setting mods first rest
  | .keyword .enum => env.openEnum setting mods first rest
  | .keyword .fn => env.function setting mods first rest
  | .keyword .new => env.constructor setting mods first rest
  | .keyword .«if» => env.openConditional mods .branch .ifStatement first rest
  | .keyword .«while» => env.openConditional mods .whileLoop .whileStatement first rest
  | .keyword .«do» => env.openDo mods first rest
  | .keyword .«for» => env.openFor setting mods first rest
  | .keyword .ret => env.returnStatement mods first rest
  | .keyword .«break» => env.loopExit mods .breakStatement first rest
  | .keyword .«continue» => env.loopExit mods .continueStatement first rest
  | .keyword .use => env.useStatement mods first rest
  | .keyword .libraryEnd => env.endLibrary mods first rest
  | .question => env.variableStatement setting mods first rest
  | .identifier => env.nameStatement setting mods first rest
  | kind =>
      if kind.isDatatype then env.variableStatement setting mods first rest
      else blame (SyntaxFault.unwanted first.lexeme .noStatement) first

def dispatch (env : Environment) (setting : Setting) (mods : LeadingModifiers) (first : Token)
    (rest : List Token) : Outcome :=
  match first.kind, env.frame with
  | .identifier, .enum id e =>
      let (env, result) := env.declareMembers setting id e mods first rest
      ⟨env, result⟩
  | _, _ => .ofChecked env (env.read setting mods first rest)

-- Reads a statement, its modifiers included.
def statement (env : Environment) (setting : Setting) (first : Token) (rest : List Token) :
    Outcome :=
  match LeadingModifiers.read (first :: rest) with
  | .error report => ⟨env, .error report⟩
  | .ok (_, []) => ⟨env, blame SyntaxFault.modifiersAlone first⟩
  | .ok (mods, head :: rest) => env.dispatch setting mods head rest

end Environment

end MiLanguage
