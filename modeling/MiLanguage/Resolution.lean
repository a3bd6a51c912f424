import MiLanguage.Environment
import MiLanguage.Overload

set_option autoImplicit false

namespace MiLanguage

inductive LookupFailure where
  | moduleNotFound (path : String)
  | notFound
  | ambiguous (ids : List ModuleId)
  deriving DecidableEq, Repr

/-- Where a variable was found. -/
inductive VariablePlace where
  | inBlock
  | inModule (id : ModuleId)
  | inClass
  deriving DecidableEq, Repr

/-- A variable in sight. The tree calls a local by its plain name, any other by its full name. -/
structure ResolvedVariable where
  name : String
  qualified : String
  type : Datatype
  modifiers : Modifiers
  initialized : Bool
  place : VariablePlace

def ResolvedVariable.canAssign (v : ResolvedVariable) : Bool := v.modifiers.canAssign v.initialized

structure ResolvedCall where
  qualified : String
  returnType : Datatype

namespace Environment

def currentModule (env : Environment) : ModuleId := env.scopes.currentModule

def resolveModule (env : Environment) (path : String) : Option ModuleId :=
  env.modules.resolvePath env.currentModule path

-- Finds what modules declare under a name: by its path if it is dotted, else in the modules in use,
-- else in the current module and those around it.
def lookup {α : Type} (env : Environment) (table : Members → SymbolTable α) (name : String) :
    Except LookupFailure (ModuleId × α) :=
  let get := fun (id : ModuleId) (name : String) =>
    ((table (env.modules.get id).members).find? name).map fun found => (id, found)
  match splitQualified name with
  | some (path, last) =>
      match env.resolveModule path with
      | none => .error (.moduleNotFound path)
      | some id => (get id last).elim (.error .notFound) .ok
  | none =>
      match env.scopes.uses.filterMap (get · name) with
      | [] =>
          ((env.modules.ancestors env.currentModule).findSome? (get · name)).elim
            (.error .notFound) .ok
      | [hit] => .ok hit
      | hits => .error (.ambiguous (hits.map Prod.fst))

def lookupFault (env : Environment) (what name : String) : LookupFailure → ResolutionFault
  | .moduleNotFound path => .moduleNotFound path
  | .notFound => .notFound what (shortName name) ((splitQualified name).map Prod.fst)
  | .ambiguous ids => .ambiguous what (shortName name) (ids.map env.modules.describe)

def lookupOrBlame {α : Type} (env : Environment) (table : Members → SymbolTable α)
    (what : String) (place : Token) : Checked (ModuleId × α) :=
  match env.lookup table place.lexeme with
  | .ok found => .ok found
  | .error failure => blame (env.lookupFault what place.lexeme failure) place

-- `priv` restricts use to the module of the declaration and what is inside it, `own` to its file.
def accessible (env : Environment) (modifiers : Modifiers) (origin : Origin) (place : Token) :
    Bool :=
  match modifiers.visibility with
  | .unrestricted | .pub => true
  | .priv => env.modules.isWithin env.currentModule origin.module
  | .own => place.span.fileId = origin.fileId

def checkAccess (env : Environment) (what : String) (modifiers : Modifiers) (origin : Origin)
    (place : Token) : Checked Unit :=
  let keyword := (modifiers.firstVisibility.map Modifier.keyword).getD "pub"
  require (env.accessible modifiers origin place)
    (ResolutionFault.inaccessible keyword what place.lexeme (env.modules.describe origin.module))
    place

def localVariable? (env : Environment) (name : String) : Option ResolvedVariable :=
  (env.scopes.lookupLocal? name).map fun v =>
    { name
      qualified := name
      type := v.declaration.type
      modifiers := v.declaration.modifiers
      initialized := v.declaration.initialized
      place := .inBlock }

def fieldVariable? (env : Environment) (name : String) : Option ResolvedVariable := do
  let (id, c) ← env.scopes.class?
  let field ← c.fields.find? name
  let owner := env.modules.qualify id c.name
  some
    { name
      qualified := s!"{owner}.{name}"
      type := field.type
      modifiers := field.modifiers
      initialized := field.initialized
      place := .inClass }

-- A plain name is looked for in the function, then in the class, and in modules last.
def resolveVariable (env : Environment) (place : Token) : Checked ResolvedVariable :=
  let name := place.lexeme
  let near := if isDotted name then none else env.localVariable? name <|> env.fieldVariable? name
  match near with
  | some v => .ok v
  | none => do
      let (id, v) ← env.lookupOrBlame Members.globals "variable" place
      env.checkAccess "variable" v.modifiers v.origin place
      .ok
        { name := shortName name
          qualified := env.modules.qualify id (shortName name)
          type := v.type
          modifiers := v.modifiers
          initialized := v.initialized
          place := .inModule id }

-- All overloads that a call of `name` chooses from. A class, the modules in use, and each module
-- around hide what comes after them.
def callCandidates (env : Environment) (name : String) :
    Except ResolutionFault (List FunctionDefinition) :=
  match splitQualified name with
  | some (path, last) =>
      match env.resolveModule path with
      | none => .error (.moduleNotFound path)
      | some id =>
          match env.modules.overloads id last with
          | [] => .error (.notFound "function" last (some path))
          | found => .ok found
  | none =>
      let methods := (env.scopes.class?.map fun (_, c) => c.methods.overloads name).getD []
      let used := env.scopes.uses.flatMap (env.modules.overloads · name)
      let around := (env.modules.ancestors env.currentModule).map (env.modules.overloads · name)
      match (methods :: used :: around).find? (!·.isEmpty) with
      | some found => .ok found
      | none =>
          .error (.notFound "function" name (some (env.modules.describe env.currentModule)))

def resolveCall (env : Environment) (place : Token) (args : List Datatype) :
    Checked ResolvedCall := do
  let candidates ← match env.callCandidates place.lexeme with
    | .ok candidates => .ok candidates
    | .error fault => blame fault place
  match Overload.select candidates args with
  | .ok f =>
      env.checkAccess "function" f.modifiers f.origin place
      .ok ⟨env.modules.qualifyFunction f, f.returnType⟩
  | .error .noMatch => blame (ResolutionFault.noOverload place.lexeme args) place
  | .error (.ambiguous n) => blame (ResolutionFault.ambiguousCall place.lexeme args n) place

-- The full name and the members of an enum.
def resolveEnum (env : Environment) (place : Token) : Checked (String × List String) := do
  let (id, e) ← env.lookupOrBlame Members.enums "enum" place
  env.checkAccess "enum" e.modifiers e.origin place
  .ok (env.modules.qualify id (shortName place.lexeme), e.members)

-- Inside a class its own name means the class.
def ownClass? (env : Environment) (name : String) : Option String := do
  let (id, c) ← env.scopes.class?
  if c.name = name then some (env.modules.qualify id c.name) else none

-- The full name of a class.
def resolveClass (env : Environment) (place : Token) : Checked String :=
  match env.ownClass? place.lexeme with
  | some name => .ok name
  | none => do
      let (id, c) ← env.lookupOrBlame Members.classes "class" place
      env.checkAccess "class" c.modifiers c.origin place
      .ok (env.modules.qualify id (shortName place.lexeme))

def namesEnum (env : Environment) (name : String) : Bool :=
  (env.lookup Members.enums name).isOk

def namesClass (env : Environment) (name : String) : Bool :=
  (env.ownClass? name).isSome || (env.lookup Members.classes name).isOk

-- The type that a token spells: a word of the language, an enum, or else a class.
def resolveDatatype (env : Environment) (place : Token) (nullable : Bool) : Checked Datatype :=
  match place.kind with
  | .datatype p => .ok ((Datatype.primitive p).withNullable nullable)
  | .identifier =>
      if env.namesEnum place.lexeme then do
        let (name, _) ← env.resolveEnum place
        .ok ((Datatype.named name).withNullable nullable)
      else if env.namesClass place.lexeme then do
        let name ← env.resolveClass place
        .ok ((Datatype.named name).withNullable nullable)
      else blame (ResolutionFault.datatypeNotFound place.lexeme) place
  | _ => blame (SyntaxFault.unwanted place.lexeme .noDatatype) place

end Environment

end MiLanguage
