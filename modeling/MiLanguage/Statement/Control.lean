import MiLanguage.Statement.Variable

set_option autoImplicit false

namespace MiLanguage

-- `v -> end` in the head of a loop stands for the condition `v < (end)` and the step `v ++`.
def desugarRange (range : List Token) (keyword : Token) : Checked (List Token × List Token) :=
  match range with
  | [] => blame SyntaxFault.forHeader keyword
  | v :: rest => do
      require (range.any (·.is .arrow)) SyntaxFault.forHeader v
      match rest with
      | [] => blame SyntaxFault.loopVariableExpected v
      | arrow :: stop => do
          require (v.is .identifier && arrow.is .arrow) SyntaxFault.loopVariableExpected v
          .ok
            ([v, .synthetic (.binary .less) "<" arrow, .synthetic .leftParen "(" arrow] ++ stop ++
              [.synthetic .rightParen ")" arrow],
            [v, .synthetic .increment "++" arrow])

/-- The three parts of a loop's head, and whether the step is one that a range implies. -/
structure ForHead where
  start : List Token
  condition : List Token
  step : List Token
  implied : Bool

def ForHead.read (keyword : Token) (inner : List Token) : Checked ForHead :=
  match splitCommas inner with
  | [start, condition, step] => .ok ⟨start, condition, step, false⟩
  | [start, range] => do
      let (condition, step) ← desugarRange range keyword
      .ok ⟨start, condition, step, true⟩
  | _ => blame SyntaxFault.forHeader keyword

namespace Environment

def conditionNode (env : Environment) (tokens : List Token) (place : Token) : Checked Node := do
  let e ← env.expression tokens place
  require e.type.isCondition (TypeFault.condition e.type) (tokens.headD place)
  .ok (.new .condition place.streamLine [e.node])

-- A condition in parentheses after `keyword`.
def wrappedCondition (env : Environment) (tokens : List Token) (keyword : Token) :
    Checked Node :=
  match unwrap tokens with
  | some (opening, inner) => env.conditionNode inner opening
  | none => blame (SyntaxFault.conditionExpected keyword.lexeme) (tokens.headD keyword)

-- `if (condition)` or `while (condition)`, with a brace.
def openConditional (env : Environment) (mods : LeadingModifiers) (kind : BlockKind)
    (nodeKind : NodeKind) (keyword : Token) (tokens : List Token) : Checked Accepted := do
  mods.requireNone
  env.requireBlock keyword
  let head ← dropLastOf .leftBrace keyword tokens s!"after '{keyword.lexeme}' condition"
  let condition ← env.wrappedCondition head keyword
  .ok ⟨env.push (.block kind {}) (.new nodeKind keyword.streamLine [condition]), none⟩

def openDo (env : Environment) (mods : LeadingModifiers) (keyword : Token)
    (tokens : List Token) : Checked Accepted := do
  mods.requireNone
  env.requireBlock keyword
  requireBrace keyword tokens "after 'do'"
  .ok ⟨env.push (.block .doLoop {}) (.new .doStatement keyword.streamLine), none⟩

-- The definition at the start of a loop's head, which has to give the variable a value.
def loopDefinition (env : Environment) (tokens : List Token) (keyword : Token) :
    Checked (Environment × Node) := do
  let (mods, rest) ← LeadingModifiers.read tokens
  match rest with
  | [] => blame SyntaxFault.definitionExpected keyword
  | first :: rest => do
      require
        (first.is .question || first.kind.isDatatype ||
          (first.is .identifier && rest.head?.any (·.is .identifier)))
        SyntaxFault.definitionExpected first
      let (env, node) ← env.newVariable .inBlock mods first rest keyword
      require (node.kind = .varDefAndSetValue) SyntaxFault.initialValueExpected first
      .ok (env, node)

def callStep (env : Environment) (tokens : List Token) (place : Token) :
    Checked (Environment × Node) := do
  let e ← env.expression tokens place
  require (e.node.kind = .functionCall) SyntaxFault.stepExpected place
  .ok (env, e.node)

-- The step at the end of a loop's head: an assignment or a call.
def loopStep (env : Environment) (implied : Bool) (tokens : List Token) (keyword : Token) :
    Checked (Environment × Node) :=
  let place := tokens.headD keyword
  match tokens with
  | [] => blame SyntaxFault.stepExpected place
  | [_] => env.callStep tokens place
  | target :: op :: rest =>
      if op.kind.isAssignment then env.assign implied target op rest else env.callStep tokens place

-- `for (definition, condition, step)`, with a brace. The variable lives in a scope of its own
-- around the loop's block.
def openFor (env : Environment) (setting : Setting) (mods : LeadingModifiers) (keyword : Token)
    (tokens : List Token) : Checked Accepted := do
  mods.requireNone
  env.requireBlock keyword
  let header ← dropLastOf .leftBrace keyword tokens "after 'for' header"
  let inner ← match unwrap header with
    | some (_, inner) => .ok inner
    | none => blame (SyntaxFault.expected .leftParen "after 'for'") (header.headD keyword)
  let head ← ForHead.read keyword inner
  let line := keyword.streamLine
  let env := env.push (.block .loopHead {}) (.new .forFakeScope line)
  let (env, definition) ← env.loopDefinition head.start keyword
  let condition ← env.conditionNode head.condition keyword
  let (env, step) ← env.loopStep head.implied head.step keyword
  let env := [definition, condition, .new .forInstruct line [step]].foldl
    (fun env node => env.append setting node) env
  .ok ⟨env.push (.block .forLoop {}) (.new .forStatement line), none⟩

def returnFits (wanted found : Datatype) : Bool :=
  if wanted.isVoid || found.isVoid then wanted.isVoid && found.isVoid else found.fits wanted

-- `ret`, perhaps with a value, which has to fit the function's type.
def returnStatement (env : Environment) (mods : LeadingModifiers) (keyword : Token)
    (tokens : List Token) : Checked Accepted := do
  mods.requireNone
  env.requireBlock keyword
  let tokens ← dropLastOf .semicolon keyword tokens "after return value"
  let value ← match tokens with
    | [] => .ok none
    | tokens => do .ok (some (← env.expression tokens keyword))
  let found := (value.map Typed.type).getD .void
  if let some wanted := env.scopes.returnType? then
    require (returnFits wanted found) (TypeFault.returned wanted found) (tokens.headD keyword)
  .ok
    ⟨env.modifyBlock fun b => { b with returned := true, terminated := true },
      some (.new .returnValue keyword.streamLine (value.map Typed.node).toList)⟩

-- `break` or `continue`.
def loopExit (env : Environment) (mods : LeadingModifiers) (nodeKind : NodeKind)
    (keyword : Token) (tokens : List Token) : Checked Accepted := do
  mods.requireNone
  env.requireBlock keyword
  requireEnd tokens (tokens.getLast?.getD keyword) s!"'{keyword.lexeme}'"
  require env.scopes.inLoop ScopeFault.outsideLoop keyword
  .ok ⟨env.modifyBlock ({ · with terminated := true }), some (.leaf nodeKind keyword)⟩

def useStatement (env : Environment) (mods : LeadingModifiers) (keyword : Token)
    (tokens : List Token) : Checked Accepted := do
  mods.requireNone
  env.requireBlock keyword
  let path ← match tokens with
    | [] => blame SyntaxFault.moduleNameExpected keyword
    | t :: _ => if t.is .identifier then .ok t else blame SyntaxFault.moduleNameExpected t
  requireEnd tokens.tail (tokens.getLast?.getD keyword) "module name"
  match env.resolveModule path.lexeme with
  | none => blame (ResolutionFault.moduleNotFound path.lexeme) path
  | some id =>
      let scopes := (env.scopes.addUse? id).getD env.scopes
      .ok ⟨{ env with scopes },
        some (.leaf .useStatement (.synthetic .identifier (env.modules.path id) path))⟩

-- The end of the standard library's own text, at root level.
def endLibrary (env : Environment) (mods : LeadingModifiers) (keyword : Token)
    (tokens : List Token) : Checked Accepted := do
  mods.requireNone
  requireEnd tokens (tokens.getLast?.getD keyword) "standard library end marker"
  require (env.inLibrary && env.scopes.depth = 1) InternalFault.misplacedLibraryEnd keyword
  .ok ⟨{ env with inLibrary := false }, some (.leaf .stdlibFinish keyword)⟩

def callStatement (env : Environment) (mods : LeadingModifiers) (first : Token)
    (tokens : List Token) : Checked Accepted := do
  mods.requireNone
  env.requireBlock first
  let call ← dropLastOf .semicolon first (first :: tokens) "after function call"
  let e ← env.expression call first
  require (e.node.kind = .functionCall) SyntaxFault.valueAsStatement first
  .ok ⟨env, some e.node⟩

def assignment (env : Environment) (mods : LeadingModifiers) (target op : Token)
    (tokens : List Token) : Checked Accepted := do
  mods.requireNone
  env.requireBlock target
  let value ← dropLastOf .semicolon op tokens "after assignment"
  let (env, node) ← env.assign false target op value
  .ok ⟨env, some node⟩

-- A statement that starts with a name: what it is shows in the token after that.
def nameStatement (env : Environment) (setting : Setting) (mods : LeadingModifiers)
    (first : Token) (tokens : List Token) : Checked Accepted :=
  match tokens with
  | [] => blame (SyntaxFault.unwanted first.lexeme .alone) first
  | second :: rest =>
      match second.kind with
      | .identifier => env.variableStatement setting mods first tokens
      | .leftParen => env.callStatement mods first tokens
      | kind =>
          if kind.isAssignment then env.assignment mods first second rest
          else blame (SyntaxFault.unwanted second.lexeme (.after first.lexeme)) second

end Environment

end MiLanguage
