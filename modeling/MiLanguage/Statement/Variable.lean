import MiLanguage.Statement.Basic

set_option autoImplicit false

namespace MiLanguage

/-- Where a definition puts its variable. -/
inductive Placement where
  | global | field | inBlock
  deriving DecidableEq, Repr

def variableNode (typeToken name : Token) (mods : LeadingModifiers) (type : Datatype)
    (value : Option Node) : Node :=
  let line := typeToken.streamLine
  let parts := [mods.node line, .leaf .identifier name, typeNode (some typeToken) type line]
  match value with
  | some value => .new .varDefAndSetValue line (parts ++ [.new .value line [value]])
  | none => .new .varDefinition line parts

-- The tokens of the initial value and the `=` in front of them. `rest` follows the name.
def initialTokens (rest : List Token) : Checked (Option (Token × List Token)) :=
  match rest with
  | [] => .ok none
  | t :: value =>
      if t.is .assign then .ok (some (t, value))
      else blame (SyntaxFault.unwanted t.lexeme .afterVariableName) t

namespace Environment

def placement (env : Environment) (place : Token) : Checked Placement :=
  match env.frame with
  | .module _ => .ok .global
  | .parent _ => do
      require env.inLibrary (ScopeFault.atRoot "global variables") place
      .ok .global
  | .class _ _ => .ok .field
  | .block _ _ => .ok .inBlock
  | .enum _ _ => blame ScopeFault.variableInEnum place

def declareVariable? (env : Environment) (placement : Placement) (v : Variable) :
    Option Environment :=
  match placement with
  | .inBlock => (env.scopes.declareLocal? v).map fun scopes => { env with scopes }
  | .global =>
      let id := env.currentModule
      if (env.modules.get id).nameTaken v.name then none
      else some { env with modules := env.modules.insertVariable id v }
  | .field =>
      if env.scopes.class?.all fun (_, c) => c.fields.contains v.name then none
      else
        (env.scopes.modifyClass? fun c => { c with fields := c.fields.insert v.name v }).map
          fun scopes => { env with scopes }

-- The second pass finds a global or a field as the first one has left it.
def findMember? (env : Environment) (placement : Placement) (name : String) : Option Variable :=
  match placement with
  | .field => env.scopes.class?.bind fun (_, c) => c.fields.find? name
  | _ => (env.modules.get env.currentModule).members.globals.find? name

-- The type of a variable with a declared type, or with `?` and a value that shows it.
def variableType (declared : Option Datatype) (value : Option Typed) (nullable : Bool)
    (name typeToken valueToken : Token) : Checked Datatype :=
  match declared, value with
  | some type, none => .ok type
  | some type, some value => do
      require (value.type.assignable type)
        (TypeFault.initialValue value.type type name.lexeme) valueToken
      .ok type
  | none, none => blame TypeFault.inferredVariable typeToken
  | none, some value => do
      require (!value.type.isNull && !value.type.isVoid) TypeFault.inferredVariable typeToken
      .ok (value.type.withNullable (value.type.nullable || nullable))

-- Declares a variable: `type name`, perhaps with `= value`. `stop` stands for a token that is
-- missing at the end.
def newVariable (env : Environment) (placement : Placement) (mods : LeadingModifiers)
    (typeToken : Token) (tokens : List Token) (stop : Token) : Checked (Environment × Node) := do
  if let some t := mods.first? (· = .nat) then
    blame (SyntaxFault.misplacedModifier "nat" "variables") t
  let name ← declaredName tokens.head? typeToken "variable"
  let initial ← initialTokens tokens.tail
  let declared ←
    if typeToken.is .question then .ok none
    else do .ok (some (← env.resolveDatatype typeToken mods.set.isNullable))
  let value ← match initial with
    | none => .ok none
    | some (equals, value) => do .ok (some (← env.expression value equals))
  let valueToken := (initial.bind fun (_, value) => value.head?).getD stop
  let type ← variableType declared value mods.set.isNullable name typeToken valueToken
  require (!(mods.set.isConst && value.isNone)) (TypeFault.constantWithoutValue name.lexeme) name
  let v : Variable :=
    { name := name.lexeme
      type
      modifiers := mods.set
      origin := env.originOf name
      initialized := value.isSome
      value := value.map Typed.node }
  match env.declareVariable? placement v with
  | none => blame (ResolutionFault.variableAgain name.lexeme) name
  | some env => .ok (env, variableNode typeToken name mods type (value.map Typed.node))

-- The node of a global or a field that the first pass has declared.
def knownVariable (env : Environment) (placement : Placement) (mods : LeadingModifiers)
    (typeToken : Token) (tokens : List Token) : Option Node := do
  let name ← tokens.head?
  let v ← env.findMember? placement name.lexeme
  some (variableNode typeToken name mods v.type v.value)

-- A definition on its own, up to its semicolon.
def variableStatement (env : Environment) (setting : Setting) (mods : LeadingModifiers)
    (typeToken : Token) (tokens : List Token) : Checked Accepted := do
  let definition ← dropLastOf .semicolon typeToken tokens "after variable definition"
  let placement ← env.placement typeToken
  if setting.declaring || placement = .inBlock then
    let (env, node) ← env.newVariable placement mods typeToken definition
      (tokens.getLast?.getD typeToken)
    .ok ⟨env, some node⟩
  else .ok ⟨env, env.knownVariable placement mods typeToken definition⟩

-- Notes that a variable has a value from now on.
def markInitialized (env : Environment) (v : ResolvedVariable) : Environment :=
  match v.place with
  | .inBlock =>
      { env with scopes := env.scopes.modifyLocal v.name fun l =>
          { l with declaration := { l.declaration with initialized := true } } }
  | .inModule id =>
      { env with modules := env.modules.modifyVariable id v.name ({ · with initialized := true }) }
  | .inClass =>
      let scopes := env.scopes.modifyClass? fun c =>
        { c with fields := c.fields.modify v.name ({ · with initialized := true }) }
      { env with scopes := scopes.getD env.scopes }

-- What an operator leaves may be stored in the variable, nullability aside.
def storable (result : Datatype) (v : ResolvedVariable) : Bool :=
  result.isNull || (result.withNullable v.type.nullable).assignable v.type

-- The value that `=`, or an operator with `=`, stores.
def assignedValue (env : Environment) (v : ResolvedVariable) (op : Token) (tokens : List Token) :
    Checked Node := do
  let value ← env.expression tokens op
  let result ← match op.kind.applied? with
    | none => .ok value.type
    | some binary =>
        match Datatype.binaryResult binary v.type value.type with
        | some type => .ok type
        | none => blame (TypeFault.operands binary v.type value.type) op
  require (storable result v) (TypeFault.assignedValue result v.type) (tokens.headD op)
  .ok value.node

-- The one that `++` and `--` step by.
def stepValue (v : ResolvedVariable) (binary : BinaryOperator) (op : Token)
    (tokens : List Token) : Checked Node := do
  if let some extra := tokens.head? then
    blame (SyntaxFault.unwanted extra.lexeme (.after op.lexeme)) extra
  require (Datatype.binaryResult binary v.type .int).isSome
    (TypeFault.stepOperand op.lexeme v.type) op
  .ok ((Node.leaf (.literal .integer) (.synthetic (.literal .int) "1" op)).typed .int)

-- `target op`, perhaps with a value. Only the step that a range loop implies may change a variable
-- that is not mutable.
def assign (env : Environment) (implied : Bool) (target op : Token) (tokens : List Token) :
    Checked (Environment × Node) := do
  require (target.is .identifier) (SyntaxFault.unwanted target.lexeme .noVariableName) target
  let v ← env.resolveVariable target
  require (!v.modifiers.isConst) (TypeFault.constantReassigned target.lexeme) target
  require (implied || v.canAssign) (TypeFault.immutableReassigned target.lexeme) target
  let value ← match op.kind with
    | .increment => stepValue v .add op tokens
    | .decrement => stepValue v .sub op tokens
    | _ => env.assignedValue v op tokens
  let name := Token.synthetic .identifier v.qualified target
  .ok (env.markInitialized v, .new .varSetValue target.streamLine
    [.leaf .identifier name, .leaf .operator op, .new .value op.streamLine [value]])

end Environment

end MiLanguage
