import MiLanguage.Proofs.Statement.Accepts

set_option autoImplicit false

namespace MiLanguage

-- The environment inside of a scope that has been opened.
def Environment.inside (env : Environment) (scope : Scope) : Environment :=
  { env with scopes := env.scopes.push scope }

-- A production that changes the environment as it goes. What it has changed before a fault stays
-- changed.
abbrev InPlace (α : Type) := ExceptT Report (StateM Environment) α

namespace InPlace

variable {α β : Type}

def on (p : InPlace α) (env : Environment) : Except Report α × Environment := p.run.run env

def check (f : Environment → Checked α) : InPlace α := ExceptT.mk fun env => (f env, env)

def ask (f : Environment → α) : InPlace α := check fun env => .ok (f env)

def change (f : Environment → Environment) : InPlace Unit := ExceptT.mk fun env => (.ok (), f env)

-- A change that may be refused.
def attempt (f : Environment → Option Environment) (fault : Fault) (place : Token) : InPlace Unit :=
  ExceptT.mk fun env =>
    match f env with
    | some after => (.ok (), after)
    | none => (blame fault place, env)

def popIfBlamed : Except Report α × Environment → Except Report α × Environment
  | (.ok a, after) => (.ok a, after)
  | (.error report, after) =>
      (.error report, { after with scopes := (after.scopes.pop?.map Prod.snd).getD after.scopes })

-- Closes the innermost scope if `p` is blamed.
def orPop (p : InPlace α) : InPlace α := ExceptT.mk fun env => popIfBlamed (p.on env)

def append (setting : Setting) (node : Node) : InPlace Unit := change (·.append setting node)

def openModule (setting : Setting) (mods : LeadingModifiers) (keyword : Token)
    (tokens : List Token) : InPlace (Option Node) := do
  check fun _ => mods.requireNone
  check fun env =>
    match env.frame with
    | .parent _ | .module _ => .ok ()
    | _ => blame ScopeFault.misplacedModule keyword
  let name ← check fun _ => declaredName tokens.head? keyword "module"
  check fun _ => requireBrace name tokens.tail "after module name"
  let node := Node.new .createModule keyword.streamLine [.leaf .identifier name]
  if setting.declaring then
    let id ← ask fun env => (env.modules.addChild env.currentModule name.lexeme).1
    change fun env =>
      { env with modules := (env.modules.addChild env.currentModule name.lexeme).2 }
    change (·.push (.module id) node)
    return none
  else
    let id ← check fun env =>
      match env.modules.child? env.currentModule name.lexeme with
      | some id => .ok id
      | none => blame InternalFault.undeclaredModule name
    change (·.push (.module id) node)
    return none

def openClass (setting : Setting) (mods : LeadingModifiers) (keyword : Token)
    (tokens : List Token) : InPlace (Option Node) := do
  check fun _ => mods.requireVisibilityOnly "classes"
  check (·.requireTypePlace keyword "classes" "Classes")
  let name ← check fun _ => declaredName tokens.head? keyword "class"
  check fun _ => requireBrace name tokens.tail "after class name"
  let id ← ask Environment.currentModule
  let line := keyword.streamLine
  let node := Node.new .createClass line [.leaf .identifier name, mods.node line]
  if setting.declaring then
    check (·.requireFreeName name)
    let origin ← ask (·.originOf name)
    let c : ClassDeclaration := { name := name.lexeme, modifiers := mods.set, origin }
    change fun env => { env with modules := env.modules.insertClass id c }
    change (·.push (.class id c) node)
    return none
  else
    match ← ask fun env => (env.modules.get id).members.classes.find? name.lexeme with
    | some c =>
        change (·.push (.class id c) node)
        return none
    | none => return none

def openEnum (setting : Setting) (mods : LeadingModifiers) (keyword : Token)
    (tokens : List Token) : InPlace (Option Node) := do
  check fun _ => mods.requireVisibilityOnly "enums"
  check (·.requireTypePlace keyword "enums" "Enums")
  let name ← check fun _ => declaredName tokens.head? keyword "enum"
  check fun _ => requireBrace name tokens.tail "after enum name"
  let id ← ask Environment.currentModule
  let line := keyword.streamLine
  let node := Node.new .createEnum line [.leaf .identifier name, mods.node line]
  if setting.declaring then
    check (·.requireFreeName name)
    let origin ← ask (·.originOf name)
    let e : EnumDeclaration := { name := name.lexeme, modifiers := mods.set, origin }
    change fun env => { env with modules := env.modules.insertEnum id e }
    change (·.push (.enum id e) node)
    return none
  else
    match ← ask fun env => (env.modules.get id).members.enums.find? name.lexeme with
    | some e =>
        change (·.push (.enum id e) node)
        return none
    | none => return none

-- Adds a member to the enum of the current scope.
def addMember? (env : Environment) (name : String) : Option Environment :=
  match env.frame with
  | .enum id e => (e.addMember? name).map fun e =>
      { env with scopes := env.scopes.modifyCurrent ({ · with frame := .enum id e }) }
  | _ => none

def addMembers : List Token → InPlace Unit
  | [] => pure ()
  | name :: names => do
      attempt (addMember? · name.lexeme) (SyntaxFault.memberAgain name.lexeme) name
      addMembers names

def declareMembers (setting : Setting) (e : EnumDeclaration) (mods : LeadingModifiers)
    (first : Token) (tokens : List Token) : InPlace (Option Node) := do
  let names ← check fun _ => Environment.readMembers mods first tokens
  let node := Node.new .enumValues first.streamLine (names.map (Node.leaf .identifier))
  if setting.declaring then
    check fun _ => require e.members.isEmpty SyntaxFault.membersAgain first
    addMembers names
    return some node
  else return some node

def declareFunction (mods : LeadingModifiers) (h : Header) (body : FunctionBody) :
    InPlace (Option Node) := do
  let f ← ask (·.definition mods h body)
  attempt (·.addFunction? f) (ResolutionFault.functionAgain f.name f.paramTypes) h.name
  return none

def function (setting : Setting) (mods : LeadingModifiers) (keyword : Token) (tokens : List Token) :
    InPlace (Option Node) := do
  check fun _ => mods.requireNoMutability "functions"
  check (·.requireFunctionPlace keyword)
  let h ← check fun env => Header.read env mods keyword tokens
  let line := keyword.streamLine
  match h.hostClass with
  | some hostClass =>
      if setting.declaring then
        match NativeBinding.bind setting.host hostClass.lexeme h.name.lexeme h.paramTypes
            h.returnType with
        | .ok binding => declareFunction mods h (.native binding)
        | .error e => check fun _ => blame (NativeFault.binding e) h.name
      else
        return some (.new .nativeFunctionDefinition line
          (h.parts mods line ++ [.leaf .nativeHostClass hostClass]))
  | none =>
      if setting.declaring then declareFunction mods h .pending
      else
        change fun env => env.openBody h.returnType
          (.function env.owner h.name.lexeme h.paramTypes) h.params h.name
          (.new .functionDefinition line (h.parts mods line))
        return none

-- Gives a constructor to the class of the current scope.
def addConstructor? (env : Environment) (f : FunctionDefinition) : Option Environment :=
  match env.frame with
  | .class id c =>
      if c.constructor.isNone then
        some { env with scopes := env.scopes.modifyCurrent ({ · with
          frame := .class id { c with constructor := some f } }) }
      else none
  | _ => none

def constructor (setting : Setting) (mods : LeadingModifiers) (keyword : Token)
    (tokens : List Token) : InPlace (Option Node) := do
  let (id, c) ← check fun env =>
    match env.frame with
    | .class id c => .ok (id, c)
    | _ => blame ScopeFault.outsideClass keyword
  check fun _ => mods.requireNoMutability "constructors"
  let (parameters, rest) ← check fun env => Parameter.readList env tokens
  check fun _ => requireBrace (tokens.getLast?.getD keyword) rest "after constructor arguments"
  let h : Header := { name := keyword, parameters }
  let line := keyword.streamLine
  if setting.declaring then
    attempt (addConstructor? · (constructorDefinition id c mods h)) ResolutionFault.constructorAgain
      keyword
    return none
  else
    change (·.openBody .void (.constructor id c.name) h.params keyword
      (.new .createConstructor line (constructorParts mods h line)))
    return none

def openConditional (mods : LeadingModifiers) (kind : BlockKind) (nodeKind : NodeKind)
    (keyword : Token) (tokens : List Token) : InPlace (Option Node) := do
  check fun _ => mods.requireNone
  check (·.requireBlock keyword)
  let head ← check fun _ =>
    dropLastOf .leftBrace keyword tokens s!"after '{keyword.lexeme}' condition"
  let condition ← check (·.wrappedCondition head keyword)
  change (·.push (.block kind {}) (.new nodeKind keyword.streamLine [condition]))
  return none

def openDo (mods : LeadingModifiers) (keyword : Token) (tokens : List Token) :
    InPlace (Option Node) := do
  check fun _ => mods.requireNone
  check (·.requireBlock keyword)
  check fun _ => requireBrace keyword tokens "after 'do'"
  change (·.push (.block .doLoop {}) (.new .doStatement keyword.streamLine))
  return none

-- Declares a variable whose type, if it names one, and value have been read.
def introduce (placement : Placement) (mods : LeadingModifiers) (typeToken name valueToken : Token)
    (declared : Option Datatype) (value : Option Typed) : InPlace Node := do
  let type ← check fun _ =>
    Environment.variableType declared value mods.set.isNullable name typeToken valueToken
  check fun _ => require (!(mods.set.isConst && value.isNone))
    (TypeFault.constantWithoutValue name.lexeme) name
  let origin ← ask (·.originOf name)
  let v : Variable :=
    { name := name.lexeme, type, modifiers := mods.set, origin, initialized := value.isSome
      value := value.map Typed.node }
  attempt (·.declareVariable? placement v) (ResolutionFault.variableAgain name.lexeme) name
  return variableNode typeToken name mods type (value.map Typed.node)

def newVariable (placement : Placement) (mods : LeadingModifiers) (typeToken : Token)
    (tokens : List Token) (stop : Token) : InPlace Node := do
  check fun _ =>
    match mods.first? (· = .nat) with
    | some t => blame (SyntaxFault.misplacedModifier "nat" "variables") t
    | none => .ok ()
  let name ← check fun _ => declaredName tokens.head? typeToken "variable"
  let initial ← check fun _ => initialTokens tokens.tail
  let declared ← check fun env =>
    if typeToken.is .question then .ok none
    else (env.resolveDatatype typeToken mods.set.isNullable).map some
  let value ← check fun env =>
    match initial with
    | none => .ok none
    | some (equals, value) => (env.expression value equals).map some
  let valueToken := (initial.bind fun (_, value) => value.head?).getD stop
  introduce placement mods typeToken name valueToken declared value

def variableStatement (setting : Setting) (mods : LeadingModifiers) (typeToken : Token)
    (tokens : List Token) : InPlace (Option Node) := do
  let definition ← check fun _ =>
    dropLastOf .semicolon typeToken tokens "after variable definition"
  let placement ← check (·.placement typeToken)
  if setting.declaring || placement = .inBlock then
    return some (← newVariable placement mods typeToken definition (tokens.getLast?.getD typeToken))
  else ask (·.knownVariable placement mods typeToken definition)

def assign (implied : Bool) (target op : Token) (tokens : List Token) : InPlace Node := do
  check fun _ =>
    require (target.is .identifier) (SyntaxFault.unwanted target.lexeme .noVariableName) target
  let v ← check (·.resolveVariable target)
  check fun _ => require (!v.modifiers.isConst) (TypeFault.constantReassigned target.lexeme) target
  check fun _ =>
    require (implied || v.canAssign) (TypeFault.immutableReassigned target.lexeme) target
  let value ← check fun env =>
    match op.kind with
    | .increment => Environment.stepValue v .add op tokens
    | .decrement => Environment.stepValue v .sub op tokens
    | _ => env.assignedValue v op tokens
  change (·.markInitialized v)
  let name := Token.synthetic .identifier v.qualified target
  return .new .varSetValue target.streamLine
    [.leaf .identifier name, .leaf .operator op, .new .value op.streamLine [value]]

def loopDefinition (tokens : List Token) (keyword : Token) : InPlace Node := do
  let (mods, rest) ← check fun _ => LeadingModifiers.read tokens
  match rest with
  | [] => check fun _ => blame SyntaxFault.definitionExpected keyword
  | first :: rest =>
      check fun _ => require
        (first.is .question || first.kind.isDatatype ||
          (first.is .identifier && rest.head?.any (·.is .identifier)))
        SyntaxFault.definitionExpected first
      let node ← newVariable .inBlock mods first rest keyword
      check fun _ =>
        require (node.kind = .varDefAndSetValue) SyntaxFault.initialValueExpected first
      return node

def callStep (tokens : List Token) (place : Token) : InPlace Node := do
  let e ← check (·.expression tokens place)
  check fun _ => require (e.node.kind = .functionCall) SyntaxFault.stepExpected place
  return e.node

def loopStep (implied : Bool) (tokens : List Token) (keyword : Token) : InPlace Node :=
  let place := tokens.headD keyword
  match tokens with
  | [] => check fun _ => blame SyntaxFault.stepExpected place
  | [_] => callStep tokens place
  | target :: op :: rest =>
      if op.kind.isAssignment then assign implied target op rest else callStep tokens place

-- The parts of a loop's head, in the scope of its variable.
def forParts (head : ForHead) (keyword : Token) : InPlace (Node × Node × Node) := do
  let definition ← loopDefinition head.start keyword
  let condition ← check (·.conditionNode head.condition keyword)
  let step ← loopStep head.implied head.step keyword
  return (definition, condition, step)

def openFor (setting : Setting) (mods : LeadingModifiers) (keyword : Token) (tokens : List Token) :
    InPlace (Option Node) := do
  check fun _ => mods.requireNone
  check (·.requireBlock keyword)
  let header ← check fun _ => dropLastOf .leftBrace keyword tokens "after 'for' header"
  let inner ← check fun _ =>
    match unwrap header with
    | some (_, inner) => .ok inner
    | none => blame (SyntaxFault.expected .leftParen "after 'for'") (header.headD keyword)
  let head ← check fun _ => ForHead.read keyword inner
  let line := keyword.streamLine
  change (·.push (.block .loopHead {}) (.new .forFakeScope line))
  let (definition, condition, step) ← orPop (forParts head keyword)
  append setting definition
  append setting condition
  append setting (.new .forInstruct line [step])
  change (·.push (.block .forLoop {}) (.new .forStatement line))
  return none

def returnStatement (mods : LeadingModifiers) (keyword : Token) (tokens : List Token) :
    InPlace (Option Node) := do
  check fun _ => mods.requireNone
  check (·.requireBlock keyword)
  let tokens ← check fun _ => dropLastOf .semicolon keyword tokens "after return value"
  let value ← check fun env =>
    match tokens with
    | [] => .ok none
    | tokens => (env.expression tokens keyword).map some
  let found := (value.map Typed.type).getD .void
  check fun env =>
    match env.scopes.returnType? with
    | some wanted => require (Environment.returnFits wanted found) (TypeFault.returned wanted found)
        (tokens.headD keyword)
    | none => .ok ()
  change (·.modifyBlock fun b => { b with returned := true, terminated := true })
  return some (.new .returnValue keyword.streamLine (value.map Typed.node).toList)

def loopExit (mods : LeadingModifiers) (nodeKind : NodeKind) (keyword : Token)
    (tokens : List Token) : InPlace (Option Node) := do
  check fun _ => mods.requireNone
  check (·.requireBlock keyword)
  check fun _ => requireEnd tokens (tokens.getLast?.getD keyword) s!"'{keyword.lexeme}'"
  check fun env => require env.scopes.inLoop ScopeFault.outsideLoop keyword
  change (·.modifyBlock ({ · with terminated := true }))
  return some (.leaf nodeKind keyword)

def useStatement (mods : LeadingModifiers) (keyword : Token) (tokens : List Token) :
    InPlace (Option Node) := do
  check fun _ => mods.requireNone
  check (·.requireBlock keyword)
  let path ← check fun _ =>
    match tokens with
    | [] => blame SyntaxFault.moduleNameExpected keyword
    | t :: _ => if t.is .identifier then .ok t else blame SyntaxFault.moduleNameExpected t
  check fun _ => requireEnd tokens.tail (tokens.getLast?.getD keyword) "module name"
  let id ← check fun env =>
    match env.resolveModule path.lexeme with
    | some id => .ok id
    | none => blame (ResolutionFault.moduleNotFound path.lexeme) path
  change fun env => { env with scopes := (env.scopes.addUse? id).getD env.scopes }
  let name ← ask fun env => env.modules.path id
  return some (.leaf .useStatement (.synthetic .identifier name path))

def endLibrary (mods : LeadingModifiers) (keyword : Token) (tokens : List Token) :
    InPlace (Option Node) := do
  check fun _ => mods.requireNone
  check fun _ =>
    requireEnd tokens (tokens.getLast?.getD keyword) "standard library end marker"
  check fun env =>
    require (env.inLibrary && env.scopes.depth = 1) InternalFault.misplacedLibraryEnd keyword
  change ({ · with inLibrary := false })
  return some (.leaf .stdlibFinish keyword)

def callStatement (mods : LeadingModifiers) (first : Token) (tokens : List Token) :
    InPlace (Option Node) := do
  check fun _ => mods.requireNone
  check (·.requireBlock first)
  let call ← check fun _ => dropLastOf .semicolon first (first :: tokens) "after function call"
  let e ← check (·.expression call first)
  check fun _ => require (e.node.kind = .functionCall) SyntaxFault.valueAsStatement first
  return some e.node

def assignment (mods : LeadingModifiers) (target op : Token) (tokens : List Token) :
    InPlace (Option Node) := do
  check fun _ => mods.requireNone
  check (·.requireBlock target)
  let value ← check fun _ => dropLastOf .semicolon op tokens "after assignment"
  return some (← assign false target op value)

def nameStatement (setting : Setting) (mods : LeadingModifiers) (first : Token)
    (tokens : List Token) : InPlace (Option Node) :=
  match tokens with
  | [] => check fun _ => blame (SyntaxFault.unwanted first.lexeme .alone) first
  | second :: rest =>
      match second.kind with
      | .identifier => variableStatement setting mods first tokens
      | .leftParen => callStatement mods first tokens
      | kind =>
          if kind.isAssignment then assignment mods first second rest
          else check fun _ => blame (SyntaxFault.unwanted second.lexeme (.after first.lexeme)) second

def read (setting : Setting) (mods : LeadingModifiers) (first : Token) (rest : List Token) :
    InPlace (Option Node) :=
  match first.kind with
  | .keyword .module => openModule setting mods first rest
  | .keyword .«class» => openClass setting mods first rest
  | .keyword .enum => openEnum setting mods first rest
  | .keyword .fn => function setting mods first rest
  | .keyword .new => constructor setting mods first rest
  | .keyword .«if» => openConditional mods .branch .ifStatement first rest
  | .keyword .«while» => openConditional mods .whileLoop .whileStatement first rest
  | .keyword .«do» => openDo mods first rest
  | .keyword .«for» => openFor setting mods first rest
  | .keyword .ret => returnStatement mods first rest
  | .keyword .«break» => loopExit mods .breakStatement first rest
  | .keyword .«continue» => loopExit mods .continueStatement first rest
  | .keyword .use => useStatement mods first rest
  | .keyword .libraryEnd => endLibrary mods first rest
  | .question => variableStatement setting mods first rest
  | .identifier => nameStatement setting mods first rest
  | kind =>
      if kind.isDatatype then variableStatement setting mods first rest
      else check fun _ => blame (SyntaxFault.unwanted first.lexeme .noStatement) first

def dispatch (setting : Setting) (mods : LeadingModifiers) (first : Token) (rest : List Token) :
    InPlace (Option Node) := do
  match first.kind, ← ask Environment.frame with
  | .identifier, .enum _ e => declareMembers setting e mods first rest
  | _, _ => read setting mods first rest

def statement (setting : Setting) (first : Token) (rest : List Token) : InPlace (Option Node) := do
  match ← check fun _ => LeadingModifiers.read (first :: rest) with
  | (_, []) => check fun _ => blame SyntaxFault.modifiersAlone first
  | (mods, head :: rest) => dispatch setting mods head rest

section Run

variable {env : Environment}

-- Goes on from a check that is passed.
def proceed (env : Environment) (c : Checked α) (k : α → Except Report β × Environment) :
    Except Report β × Environment :=
  match c with
  | .ok a => k a
  | .error report => (.error report, env)

theorem proceed_congr {c : Checked α} {k k' : α → Except Report β × Environment}
    (same : ∀ a, c = .ok a → k a = k' a) : proceed env c k = proceed env c k' := by
  cases c with
  | ok a => exact same a rfl
  | error => rfl

theorem proceed_ok (a : α) (k : α → Except Report β × Environment) :
    proceed env (.ok a) k = k a := (rfl)

theorem proceed_map {γ : Type} (c : Checked α) (f : α → γ) (k : γ → Except Report β × Environment) :
    proceed env (c.map f) k = proceed env c fun a => k (f a) := by
  cases c <;> rfl

theorem proceed_bind {γ : Type} (c : Checked α) (f : α → Checked γ)
    (k : γ → Except Report β × Environment) :
    proceed env (c >>= f) k = proceed env c fun a => proceed env (f a) k := by
  cases c <;> rfl

theorem on_check_bind (f : Environment → Checked α) (k : α → InPlace β) :
    (check f >>= k).on env = proceed env (f env) fun a => (k a).on env := by
  show ((ExceptT.bindCont k (f env)).run env) = _
  unfold proceed
  cases f env <;> rfl

theorem on_ask_bind (f : Environment → α) (k : α → InPlace β) :
    (ask f >>= k).on env = (k (f env)).on env := (rfl)

theorem on_change_bind (f : Environment → Environment) (k : Unit → InPlace β) :
    (change f >>= k).on env = (k ()).on (f env) := (rfl)

theorem on_bind (p : InPlace α) (k : α → InPlace β) :
    (p >>= k).on env =
      match p.on env with
      | (.ok a, after) => (k a).on after
      | (.error report, after) => (.error report, after) := by
  show (ExceptT.bindCont k (p.on env).1).run (p.on env).2 = _
  generalize p.on env = outcome
  obtain ⟨result, after⟩ := outcome
  cases result <;> rfl

theorem on_attempt_bind (f : Environment → Option Environment) (fault : Fault) (place : Token)
    (k : Unit → InPlace β) :
    (attempt f fault place >>= k).on env =
      match f env with
      | some after => (k ()).on after
      | none => (blame fault place, env) := by
  rw [on_bind]
  have here : (attempt f fault place).on env =
      match f env with
      | some after => (.ok (), after)
      | none => (blame fault place, env) := (rfl)
  rw [here]
  cases f env <;> rfl

-- An outcome that leaves the environment alone where it is blamed.
def settled (env : Environment) (c : Checked Accepted) : Except Report (Option Node) × Environment :=
  proceed env c fun accepted => (.ok accepted.node, accepted.environment)

theorem settled_bind (c : Checked α) (k : α → Checked Accepted) :
    settled env (c >>= k) = proceed env c fun a => settled env (k a) := by
  cases c <;> rfl

-- The same for a part of a statement.
def committed (env : Environment) (c : Checked (Environment × α)) : Except Report α × Environment :=
  proceed env c fun (after, a) => (.ok a, after)

theorem committed_bind (c : Checked α) (k : α → Checked (Environment × β)) :
    committed env (c >>= k) = proceed env c fun a => committed env (k a) := by
  cases c <;> rfl

theorem committed_then (c : Checked (Environment × α)) (k : α → InPlace β) :
    (match committed env c with
      | (.ok a, after) => (k a).on after
      | (.error report, after) => (.error report, after)) =
    proceed env c fun (after, a) => (k a).on after := by
  cases c <;> rfl

end Run

section Productions

variable {env : Environment} {setting : Setting} {mods : LeadingModifiers} {keyword : Token}
  {tokens : List Token}

theorem openModule_on : (openModule setting mods keyword tokens).on env =
    settled env (env.openModule setting mods keyword tokens) := by
  unfold openModule Environment.openModule
  simp only [on_check_bind, settled_bind]
  refine proceed_congr fun _ _ => ?_
  cases env.frame with
  | parent | module =>
      simp only [proceed_ok, settled_bind]
      refine proceed_congr fun name _ => proceed_congr fun _ _ => ?_
      cases setting.declaring with
      | true => rfl
      | false =>
          simp only [Bool.false_eq_true, if_false, on_check_bind]
          cases env.modules.child? env.currentModule name.lexeme <;> rfl
  | _ => rfl

theorem openClass_on : (openClass setting mods keyword tokens).on env =
    settled env (env.openClass setting mods keyword tokens) := by
  unfold openClass Environment.openClass
  simp only [on_check_bind, on_ask_bind, settled_bind]
  refine proceed_congr fun _ _ => proceed_congr fun _ _ => proceed_congr fun name _ =>
    proceed_congr fun _ _ => ?_
  cases setting.declaring with
  | true =>
      simp only [if_true, on_check_bind, settled_bind]
      rfl
  | false =>
      simp only [Bool.false_eq_true, if_false, on_ask_bind]
      cases (env.modules.get env.currentModule).members.classes.find? name.lexeme <;> rfl

theorem openEnum_on : (openEnum setting mods keyword tokens).on env =
    settled env (env.openEnum setting mods keyword tokens) := by
  unfold openEnum Environment.openEnum
  simp only [on_check_bind, on_ask_bind, settled_bind]
  refine proceed_congr fun _ _ => proceed_congr fun _ _ => proceed_congr fun name _ =>
    proceed_congr fun _ _ => ?_
  cases setting.declaring with
  | true =>
      simp only [if_true, on_check_bind, settled_bind]
      rfl
  | false =>
      simp only [Bool.false_eq_true, if_false, on_ask_bind]
      cases (env.modules.get env.currentModule).members.enums.find? name.lexeme <;> rfl

theorem declareFunction_on (h : Header) (body : FunctionBody) :
    (declareFunction mods h body).on env = settled env (env.declareFunction mods h body) := by
  unfold declareFunction Environment.declareFunction
  rw [on_ask_bind, on_attempt_bind]
  show _ = settled env (match env.addFunction? (env.definition mods h body) with
    | some env => .ok ⟨env, none⟩
    | none => _)
  cases env.addFunction? (env.definition mods h body) <;> rfl

theorem function_on : (function setting mods keyword tokens).on env =
    settled env (env.function setting mods keyword tokens) := by
  unfold function Environment.function
  simp only [on_check_bind, settled_bind]
  refine proceed_congr fun _ _ => proceed_congr fun _ _ => proceed_congr fun h _ => ?_
  cases h.hostClass with
  | some hostClass =>
      cases setting.declaring with
      | true =>
          simp only [if_true]
          cases NativeBinding.bind setting.host hostClass.lexeme h.name.lexeme h.paramTypes
              h.returnType with
          | ok binding => exact declareFunction_on h _
          | error e => rfl
      | false => rfl
  | none =>
      cases setting.declaring with
      | true => exact declareFunction_on h _
      | false => rfl

theorem constructor_on : (constructor setting mods keyword tokens).on env =
    settled env (env.constructor setting mods keyword tokens) := by
  unfold constructor Environment.constructor
  simp only [on_check_bind]
  cases frame : env.frame with
  | «class» id c =>
    simp only [proceed_ok, settled_bind]
    refine proceed_congr fun _ _ => proceed_congr fun read _ => proceed_congr fun _ _ => ?_
    cases setting.declaring with
    | true =>
        simp only [if_true, on_attempt_bind, addConstructor?, frame]
        cases c.constructor <;> rfl
    | false => rfl
  | _ => rfl

theorem openConditional_on {kind : BlockKind} {nodeKind : NodeKind} :
    (openConditional mods kind nodeKind keyword tokens).on env =
      settled env (env.openConditional mods kind nodeKind keyword tokens) := by
  unfold openConditional Environment.openConditional
  simp only [on_check_bind, settled_bind]
  rfl

theorem openDo_on : (openDo mods keyword tokens).on env =
    settled env (env.openDo mods keyword tokens) := by
  unfold openDo Environment.openDo
  simp only [on_check_bind, settled_bind]
  rfl

theorem introduce_on {placement : Placement} {name valueToken : Token} {declared : Option Datatype}
    {value : Option Typed} :
    (introduce placement mods keyword name valueToken declared value).on env = committed env (do
      let type ← Environment.variableType declared value mods.set.isNullable name keyword valueToken
      require (!(mods.set.isConst && value.isNone)) (TypeFault.constantWithoutValue name.lexeme) name
      let v : Variable :=
        { name := name.lexeme, type, modifiers := mods.set, origin := env.originOf name
          initialized := value.isSome, value := value.map Typed.node }
      match env.declareVariable? placement v with
      | none => blame (ResolutionFault.variableAgain name.lexeme) name
      | some env => .ok (env, variableNode keyword name mods type (value.map Typed.node))) := by
  unfold introduce
  rw [on_check_bind, committed_bind]
  refine proceed_congr fun type _ => ?_
  rw [on_check_bind, committed_bind]
  refine proceed_congr fun _ _ => ?_
  rw [on_ask_bind, on_attempt_bind]
  dsimp only
  cases env.declareVariable? placement _ <;> rfl

theorem newVariable_on {placement : Placement} {stop : Token} :
    (newVariable placement mods keyword tokens stop).on env =
      committed env (env.newVariable placement mods keyword tokens stop) := by
  unfold newVariable Environment.newVariable
  rw [on_check_bind]
  cases mods.first? (· = .nat) with
  | some t => rfl
  | none =>
      dsimp only
      rw [proceed_ok, on_check_bind, committed_bind]
      refine proceed_congr fun name _ => ?_
      rw [on_check_bind, committed_bind]
      refine proceed_congr fun initial _ => ?_
      rw [on_check_bind]
      split
      next inferred =>
        rw [proceed_ok, on_check_bind, committed_bind, proceed_ok]
        cases initial with
        | none => exact introduce_on
        | some initial =>
            dsimp only
            rw [proceed_map, committed_bind]
            exact proceed_congr fun e _ => introduce_on
      next named =>
        rw [proceed_map, committed_bind]
        refine proceed_congr fun type _ => ?_
        rw [on_check_bind, committed_bind, proceed_ok]
        cases initial with
        | none => exact introduce_on
        | some initial =>
            dsimp only
            rw [proceed_map, committed_bind]
            exact proceed_congr fun e _ => introduce_on

theorem assign_on {implied : Bool} {target op : Token} :
    (assign implied target op tokens).on env = committed env (env.assign implied target op tokens) := by
  unfold assign Environment.assign
  simp only [on_check_bind, committed_bind]
  refine proceed_congr fun _ _ => proceed_congr fun v _ => proceed_congr fun _ _ =>
    proceed_congr fun _ _ => ?_
  cases op.kind <;> (dsimp only; rw [committed_bind]; rfl)

theorem returnStatement_on : (returnStatement mods keyword tokens).on env =
    settled env (env.returnStatement mods keyword tokens) := by
  unfold returnStatement Environment.returnStatement
  simp only [on_check_bind, settled_bind]
  refine proceed_congr fun _ _ => proceed_congr fun _ _ => proceed_congr fun value _ => ?_
  cases value with
  | nil =>
      dsimp only
      rw [proceed_ok, settled_bind, proceed_ok]
      cases env.scopes.returnType? with
      | none => rfl
      | some wanted =>
          dsimp only
          rw [settled_bind]
          rfl
  | cons t rest =>
      dsimp only
      rw [proceed_map, settled_bind]
      refine proceed_congr fun e _ => ?_
      rw [settled_bind, proceed_ok]
      cases env.scopes.returnType? with
      | none => rfl
      | some wanted =>
          dsimp only
          rw [settled_bind]
          rfl

theorem loopExit_on {nodeKind : NodeKind} : (loopExit mods nodeKind keyword tokens).on env =
    settled env (env.loopExit mods nodeKind keyword tokens) := by
  unfold loopExit Environment.loopExit
  simp only [on_check_bind, settled_bind]
  rfl

theorem useStatement_on : (useStatement mods keyword tokens).on env =
    settled env (env.useStatement mods keyword tokens) := by
  unfold useStatement Environment.useStatement
  simp only [on_check_bind, settled_bind]
  refine proceed_congr fun _ _ => proceed_congr fun _ _ => ?_
  cases tokens with
  | nil => rfl
  | cons t rest =>
      dsimp only
      cases t.is .identifier with
      | false => rfl
      | true =>
      simp only [proceed_ok, if_true, settled_bind]
      refine proceed_congr fun _ _ => ?_
      cases env.resolveModule t.lexeme <;> rfl

theorem endLibrary_on : (endLibrary mods keyword tokens).on env =
    settled env (env.endLibrary mods keyword tokens) := by
  unfold endLibrary Environment.endLibrary
  simp only [on_check_bind, settled_bind]
  rfl

theorem variableStatement_on : (variableStatement setting mods keyword tokens).on env =
    settled env (env.variableStatement setting mods keyword tokens) := by
  unfold variableStatement Environment.variableStatement
  simp only [on_check_bind, settled_bind]
  refine proceed_congr fun definition _ => proceed_congr fun placement _ => ?_
  split
  next =>
    rw [on_bind, newVariable_on]
    cases env.newVariable placement mods keyword definition (tokens.getLast?.getD keyword) <;> rfl
  next => rfl

theorem callStep_on {place : Token} : (callStep tokens place).on env =
    committed env (env.callStep tokens place) := by
  unfold callStep Environment.callStep
  simp only [on_check_bind, committed_bind]
  rfl

theorem loopStep_on {implied : Bool} : (loopStep implied tokens keyword).on env =
    committed env (env.loopStep implied tokens keyword) := by
  unfold loopStep Environment.loopStep
  cases tokens with
  | nil => rfl
  | cons target rest =>
    cases rest with
    | nil => exact callStep_on
    | cons op rest =>
      dsimp only
      split
      next => exact assign_on
      next => exact callStep_on

-- What is read inside a scope of its own. Where it is blamed, the scope may hold something already,
-- and what is around the scope is as it was.
def Confined (env : Environment) (outcome : Except Report α × Environment)
    (c : Checked (Environment × α)) : Prop :=
  match c with
  | .ok (after, a) => outcome = (.ok a, after)
  | .error report => ∃ scope, outcome = (.error report, env.inside scope)

theorem Confined.proceed {scope : Scope} {c : Checked α} {k : α → Except Report β × Environment}
    {rest : α → Checked (Environment × β)}
    (next : ∀ a, c = .ok a → Confined env (k a) (rest a)) :
    Confined env (proceed (env.inside scope) c k) (c >>= rest) := by
  cases c with
  | ok a => exact next a rfl
  | error report => exact ⟨scope, rfl⟩

theorem declareVariable?_inside {scope : Scope} {v : Variable} {after : Environment}
    (added : (env.inside scope).declareVariable? .inBlock v = some after) :
    ∃ declared, after = env.inside declared := by
  simp only [Environment.declareVariable?, Option.map_eq_some_iff] at added
  obtain ⟨scopes, added, rfl⟩ := added
  simp only [ScopeStack.declareLocal?] at added
  split at added
  next => cases added
  next =>
    cases added
    exact ⟨_, rfl⟩

-- The variable is in its scope before its definition is found to give it no value.
theorem loopDefinition_on (env : Environment) (tokens : List Token) (keyword : Token)
    (scope : Scope) :
    Confined env ((loopDefinition tokens keyword).on (env.inside scope))
      ((env.inside scope).loopDefinition tokens keyword) := by
  unfold loopDefinition Environment.loopDefinition
  rw [on_check_bind]
  refine .proceed fun (mods, rest) _ => ?_
  cases rest with
  | nil => exact ⟨scope, rfl⟩
  | cons first rest =>
    dsimp only
    rw [on_check_bind]
    refine .proceed fun _ _ => ?_
    rw [on_bind, newVariable_on]
    cases read : (env.inside scope).newVariable .inBlock mods first rest keyword with
    | error report => exact ⟨scope, rfl⟩
    | ok found =>
        obtain ⟨after, node⟩ := found
        obtain ⟨_, _, _, _, _, _, _, added, _⟩ := Environment.newVariable_eq_ok read
        obtain ⟨declared, rfl⟩ := declareVariable?_inside added
        show Confined env (((check fun _ => require (node.kind = .varDefAndSetValue)
            SyntaxFault.initialValueExpected first) >>= fun _ => pure node).on (env.inside declared))
          (require (node.kind = .varDefAndSetValue) SyntaxFault.initialValueExpected first >>=
            fun _ => .ok (env.inside declared, node))
        rw [on_check_bind]
        exact .proceed fun _ _ => rfl

theorem forParts_on (env : Environment) (head : ForHead) (keyword : Token) (scope : Scope) :
    Confined env ((forParts head keyword).on (env.inside scope)) (do
      let (env, definition) ← (env.inside scope).loopDefinition head.start keyword
      let condition ← env.conditionNode head.condition keyword
      let (env, step) ← env.loopStep head.implied head.step keyword
      .ok (env, definition, condition, step)) := by
  unfold forParts
  rw [on_bind]
  have defines := loopDefinition_on env head.start keyword scope
  cases read : (env.inside scope).loopDefinition head.start keyword with
  | error report =>
      rw [read] at defines
      obtain ⟨declared, outcome⟩ := defines
      rw [outcome]
      exact ⟨declared, rfl⟩
  | ok found =>
      rw [read] at defines
      obtain ⟨after, definition⟩ := found
      obtain ⟨_, _, _, added⟩ := Environment.loopDefinition_defines read
      obtain ⟨declared, rfl⟩ := declareVariable?_inside added
      rw [show (loopDefinition head.start keyword).on (env.inside scope) = _ from defines]
      dsimp only
      rw [on_check_bind]
      refine .proceed fun condition _ => ?_
      rw [on_bind, loopStep_on]
      cases (env.inside declared).loopStep head.implied head.step keyword with
      | error report => exact ⟨declared, rfl⟩
      | ok stepped => rfl

-- Closing the scope that a loop's head has been read in takes with it what the head has declared.
theorem orPop_on {p : InPlace α} {before : Environment} {c : Checked (Environment × α)}
    (confined : Confined env (p.on before) c) :
    p.orPop.on before = committed env c := by
  show popIfBlamed (p.on before) = committed env c
  cases c with
  | ok read => rw [show p.on before = (.ok read.2, read.1) from confined]; rfl
  | error report =>
      obtain ⟨scope, outcome⟩ := confined
      rw [outcome]
      rfl

theorem openFor_on : (openFor setting mods keyword tokens).on env =
    settled env (env.openFor setting mods keyword tokens) := by
  unfold openFor Environment.openFor
  simp only [on_check_bind, settled_bind]
  refine proceed_congr fun _ _ => proceed_congr fun _ _ => proceed_congr fun header _ => ?_
  cases unwrap header with
  | none => rfl
  | some parts =>
    dsimp only
    rw [proceed_ok, settled_bind, proceed_ok, settled_bind]
    refine proceed_congr fun head _ => ?_
    have read := orPop_on (forParts_on env head keyword
      { frame := .block .loopHead {}, node := .new .forFakeScope keyword.streamLine })
    rw [on_change_bind, on_bind]
    rw [show (forParts head keyword).orPop.on (env.push (.block .loopHead {})
      (.new .forFakeScope keyword.streamLine)) = _ from read]
    rw [committed_then, proceed_bind, settled_bind]
    refine proceed_congr fun found _ => ?_
    obtain ⟨defined, definition⟩ := found
    dsimp only
    rw [proceed_bind, settled_bind]
    refine proceed_congr fun condition _ => ?_
    rw [proceed_bind, settled_bind]
    exact proceed_congr fun _ _ => rfl

theorem assignment_on {op : Token} : (assignment mods keyword op tokens).on env =
    settled env (env.assignment mods keyword op tokens) := by
  unfold assignment Environment.assignment
  simp only [on_check_bind, settled_bind]
  refine proceed_congr fun _ _ => proceed_congr fun _ _ => proceed_congr fun value _ => ?_
  rw [on_bind, assign_on]
  cases env.assign false keyword op value <;> rfl

theorem callStatement_on : (callStatement mods keyword tokens).on env =
    settled env (env.callStatement mods keyword tokens) := by
  unfold callStatement Environment.callStatement
  simp only [on_check_bind, settled_bind]
  rfl

theorem nameStatement_on : (nameStatement setting mods keyword tokens).on env =
    settled env (env.nameStatement setting mods keyword tokens) := by
  unfold nameStatement Environment.nameStatement
  cases tokens with
  | nil => rfl
  | cons second rest =>
    have otherwise : ∀ kind : TokenKind,
        (if kind.isAssignment then assignment mods keyword second rest
          else check fun _ =>
            blame (SyntaxFault.unwanted second.lexeme (.after keyword.lexeme)) second).on env =
        settled env (if kind.isAssignment then env.assignment mods keyword second rest
          else blame (SyntaxFault.unwanted second.lexeme (.after keyword.lexeme)) second) := by
      intro kind
      split
      next => exact assignment_on
      next => rfl
    dsimp only
    cases second.kind with
    | identifier => exact variableStatement_on
    | punctuation p =>
        cases p with
        | leftParen => exact callStatement_on
        | _ => exact otherwise _
    | _ => exact otherwise _

theorem read_on : (read setting mods keyword tokens).on env =
    settled env (env.read setting mods keyword tokens) := by
  unfold read Environment.read
  cases keyword.kind with
  | keyword k =>
      cases k with
      | module => exact openModule_on
      | «class» => exact openClass_on
      | enum => exact openEnum_on
      | fn => exact function_on
      | new => exact constructor_on
      | «if» => exact openConditional_on
      | «while» => exact openConditional_on
      | «do» => exact openDo_on
      | «for» => exact openFor_on
      | ret => exact returnStatement_on
      | «break» => exact loopExit_on
      | «continue» => exact loopExit_on
      | use => exact useStatement_on
      | libraryEnd => exact endLibrary_on
  | identifier => exact nameStatement_on
  | datatype p =>
      dsimp only
      split
      next => exact variableStatement_on
      next => rfl
  | punctuation p =>
      cases p with
      | question => exact variableStatement_on
      | _ => rfl
  | _ => rfl

section Members

variable {id : ModuleId} {e : EnumDeclaration}

theorem modifyCurrent_same (frame : env.frame = .enum id e) :
    { env with scopes := env.scopes.modifyCurrent ({ · with frame := .enum id e }) } = env := by
  obtain ⟨modules, ⟨opened, base⟩, inLibrary⟩ := env
  cases opened with
  | nil =>
      obtain ⟨found, node, discard⟩ := base
      cases frame
      rfl
  | cons scope below =>
      obtain ⟨found, node, discard⟩ := scope
      cases frame
      rfl

-- One by one, or all that the enum takes at once.
theorem addMembers_on (names : List Token) (frame : env.frame = .enum id e) :
    (addMembers names).on env =
      (match (Environment.addMembers e names).2 with
        | some name => blame (SyntaxFault.memberAgain name.lexeme) name
        | none => .ok (),
      { env with scopes := env.scopes.modifyCurrent ({ · with
          frame := .enum id (Environment.addMembers e names).1 }) }) := by
  induction names generalizing env e with
  | nil =>
      rw [show (addMembers []).on env = (.ok (), env) from (rfl), Environment.addMembers,
        modifyCurrent_same frame]
  | cons name names ih =>
      unfold addMembers Environment.addMembers
      rw [on_attempt_bind]
      simp only [addMember?, frame]
      cases e.addMember? name.lexeme with
      | none =>
          dsimp only [Option.map]
          rw [modifyCurrent_same frame]
      | some extended =>
          dsimp only [Option.map]
          rw [ih (Environment.frame_modifyCurrent _ _)]
          simp only [ScopeStack.modifyCurrent_modifyCurrent]

theorem declareMembers_on (frame : env.frame = .enum id e) :
    (declareMembers setting e mods keyword tokens).on env =
      ((env.declareMembers setting id e mods keyword tokens).2,
        (env.declareMembers setting id e mods keyword tokens).1) := by
  unfold declareMembers Environment.declareMembers
  rw [on_check_bind]
  cases Environment.readMembers mods keyword tokens with
  | error report => rfl
  | ok names =>
    rw [proceed_ok]
    cases setting.declaring with
    | false => rfl
    | true =>
      simp only [if_true]
      rw [on_check_bind]
      cases e.members.isEmpty with
      | false => rfl
      | true =>
        simp only [if_true]
        show ((addMembers names >>= fun _ => pure _).on env) = _
        rw [on_bind, addMembers_on names frame]
        generalize Environment.addMembers e names = added
        obtain ⟨extended, repeated⟩ := added
        cases repeated <;> rfl

end Members

end Productions

theorem settled_eq (env : Environment) (c : Checked Accepted) :
    settled env c = ((Outcome.ofChecked env c).result, (Outcome.ofChecked env c).environment) := by
  cases c <;> rfl

theorem dispatch_on (env : Environment) (setting : Setting) (mods : LeadingModifiers) (first : Token)
    (rest : List Token) :
    (dispatch setting mods first rest).on env =
      ((env.dispatch setting mods first rest).result,
        (env.dispatch setting mods first rest).environment) := by
  unfold dispatch Environment.dispatch
  rw [on_ask_bind]
  have others : ∀ (env : Environment), (read setting mods first rest).on env =
      ((Outcome.ofChecked env (env.read setting mods first rest)).result,
        (Outcome.ofChecked env (env.read setting mods first rest)).environment) := fun env =>
    read_on.trans (settled_eq env _)
  cases frame : env.frame with
  | enum id e =>
      cases first.kind with
      | identifier => exact declareMembers_on frame
      | _ => exact others env
  | _ => cases first.kind <;> exact others env

theorem statement_on (env : Environment) (setting : Setting) (first : Token) (rest : List Token) :
    (statement setting first rest).on env =
      ((env.statement setting first rest).result,
        (env.statement setting first rest).environment) := by
  unfold statement Environment.statement
  rw [on_check_bind]
  cases LeadingModifiers.read (first :: rest) with
  | error report => rfl
  | ok read =>
    obtain ⟨mods, tokens⟩ := read
    cases tokens with
    | nil => rfl
    | cons head tail => exact dispatch_on env setting mods head tail

end InPlace

end MiLanguage
