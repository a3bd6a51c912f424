import MiLanguage.Statement.Header

set_option autoImplicit false

namespace MiLanguage

namespace Environment

-- `module name`, with a brace. The first pass opens a module again if it is there already.
def openModule (env : Environment) (setting : Setting) (mods : LeadingModifiers)
    (keyword : Token) (tokens : List Token) : Checked Accepted := do
  mods.requireNone
  match env.frame with
  | .parent _ | .module _ => pure ()
  | _ => blame ScopeFault.misplacedModule keyword
  let name ← declaredName tokens.head? keyword "module"
  requireBrace name tokens.tail "after module name"
  let node := Node.new .createModule keyword.streamLine [.leaf .identifier name]
  if setting.declaring then
    let (id, modules) := env.modules.addChild env.currentModule name.lexeme
    .ok ⟨{ env with modules }.push (.module id) node, none⟩
  else
    match env.modules.child? env.currentModule name.lexeme with
    | some id => .ok ⟨env.push (.module id) node, none⟩
    | none => blame InternalFault.undeclaredModule name

-- Classes and enums stand in modules; the standard library may have them at root level.
def requireTypePlace (env : Environment) (keyword : Token) (plural title : String) :
    Checked Unit :=
  match env.frame with
  | .module _ => .ok ()
  | .parent _ => require env.inLibrary (ScopeFault.atRoot plural) keyword
  | _ => blame (ScopeFault.outsideModule title) keyword

def requireFreeName (env : Environment) (name : Token) : Checked Unit :=
  require (!(env.modules.get env.currentModule).nameTaken name.lexeme)
    (ResolutionFault.typeAgain name.lexeme) name

-- `class name`, with a brace. The class is known from here on, so that its members can refer to it.
def openClass (env : Environment) (setting : Setting) (mods : LeadingModifiers)
    (keyword : Token) (tokens : List Token) : Checked Accepted := do
  mods.requireVisibilityOnly "classes"
  env.requireTypePlace keyword "classes" "Classes"
  let name ← declaredName tokens.head? keyword "class"
  requireBrace name tokens.tail "after class name"
  let id := env.currentModule
  let line := keyword.streamLine
  let node := Node.new .createClass line [.leaf .identifier name, mods.node line]
  if setting.declaring then
    env.requireFreeName name
    let c : ClassDeclaration :=
      { name := name.lexeme, modifiers := mods.set, origin := env.originOf name }
    .ok ⟨{ env with modules := env.modules.insertClass id c }.push (.class id c) node, none⟩
  else
    match (env.modules.get id).members.classes.find? name.lexeme with
    | some c => .ok ⟨env.push (.class id c) node, none⟩
    | none => .ok ⟨env, none⟩

-- `enum name`, with a brace.
def openEnum (env : Environment) (setting : Setting) (mods : LeadingModifiers)
    (keyword : Token) (tokens : List Token) : Checked Accepted := do
  mods.requireVisibilityOnly "enums"
  env.requireTypePlace keyword "enums" "Enums"
  let name ← declaredName tokens.head? keyword "enum"
  requireBrace name tokens.tail "after enum name"
  let id := env.currentModule
  let line := keyword.streamLine
  let node := Node.new .createEnum line [.leaf .identifier name, mods.node line]
  if setting.declaring then
    env.requireFreeName name
    let e : EnumDeclaration :=
      { name := name.lexeme, modifiers := mods.set, origin := env.originOf name }
    .ok ⟨{ env with modules := env.modules.insertEnum id e }.push (.enum id e) node, none⟩
  else
    match (env.modules.get id).members.enums.find? name.lexeme with
    | some e => .ok ⟨env.push (.enum id e) node, none⟩
    | none => .ok ⟨env, none⟩

-- The names in a list of enum members. `last` ends the list.
def memberNames (last : Token) : List (List Token) → Checked (List Token)
  | [] => .ok []
  | part :: parts => do
      let name ← match part with
        | [t] => declaredName (some t) t "enum member"
        | [] => blame SyntaxFault.manyTokensInMember last
        | _ :: t :: _ => blame SyntaxFault.manyTokensInMember t
      .ok (name :: (← memberNames last parts))

-- Members are added up to the first that the enum has already.
def addMembers (e : EnumDeclaration) : List Token → EnumDeclaration × Option Token
  | [] => (e, none)
  | name :: names =>
      match e.addMember? name.lexeme with
      | some e => addMembers e names
      | none => (e, some name)

def readMembers (mods : LeadingModifiers) (first : Token) (tokens : List Token) :
    Checked (List Token) := do
  mods.requireNone
  let names ← dropLastOf .semicolon first (first :: tokens) "after enum members"
  memberNames (tokens.getLast?.getD first) (splitCommas names)

-- The members of an enum, all in one statement. Those before a repeated one are kept.
def declareMembers (env : Environment) (setting : Setting) (id : ModuleId) (e : EnumDeclaration)
    (mods : LeadingModifiers) (first : Token) (tokens : List Token) :
    Environment × Except Report (Option Node) :=
  match readMembers mods first tokens with
  | .error report => (env, .error report)
  | .ok names =>
      let node := Node.new .enumValues first.streamLine (names.map (Node.leaf .identifier))
      if setting.declaring then
        if e.members.isEmpty then
          let (e, repeated) := addMembers e names
          let env := { env with
            scopes := env.scopes.modifyCurrent fun s => { s with frame := .enum id e } }
          match repeated with
          | some name => (env, blame (SyntaxFault.memberAgain name.lexeme) name)
          | none => (env, .ok (some node))
        else (env, blame SyntaxFault.membersAgain first)
      else (env, .ok (some node))

def requireFunctionPlace (env : Environment) (keyword : Token) : Checked Unit :=
  match env.frame with
  | .module _ | .class _ _ => .ok ()
  | .parent _ => require env.inLibrary (ScopeFault.atRoot "functions") keyword
  | .enum _ _ => blame ScopeFault.functionInEnum keyword
  | .block _ _ => blame ScopeFault.functionInFunction keyword

-- Who the functions declared here belong to.
def owner (env : Environment) : Owner :=
  match env.frame with
  | .class id c => .inClass id c.name
  | _ => .module env.currentModule

-- Adds a function to the class or module that owns it, unless it has one with these parameter
-- types.
def addFunction? (env : Environment) (f : FunctionDefinition) : Option Environment :=
  match f.owner, env.scopes.class? with
  | .inClass _ _, none => none
  | .inClass _ _, some (_, c) => do
      let methods ← c.methods.add? f
      let scopes ← env.scopes.modifyClass? fun c => { c with methods }
      some { env with scopes }
  | .module id, _ => (env.modules.addFunction? id f).map fun modules => { env with modules }

def declareFunction (env : Environment) (mods : LeadingModifiers) (h : Header)
    (body : FunctionBody) : Checked Accepted :=
  let f : FunctionDefinition :=
    { name := h.name.lexeme
      returnType := h.returnType
      parameters := h.params
      modifiers := mods.set
      owner := env.owner
      fileId := h.name.span.fileId
      line := h.name.streamLine
      body }
  match env.addFunction? f with
  | some env => .ok ⟨env, none⟩
  | none => blame (ResolutionFault.functionAgain f.name f.paramTypes) h.name

-- Opens the scope of a body, with the parameters in it.
def openBody (env : Environment) (returnType : Datatype) (owner : BodyOwner)
    (parameters : List FunctionParameter) (place : Token) (node : Node) : Environment :=
  let block := { Block.function returnType with bodyOf := some owner }
  let opened := env.push (.block .function block) node
  parameters.foldl (fun env p =>
    let v : Variable :=
      { name := p.name, type := p.type, modifiers := p.modifiers, origin := env.originOf place
        initialized := true }
    { env with scopes := (env.scopes.declareLocal? v).getD env.scopes }) opened

-- A function. The first pass declares it, the second one opens its body.
def function (env : Environment) (setting : Setting) (mods : LeadingModifiers)
    (keyword : Token) (tokens : List Token) : Checked Accepted := do
  mods.requireNoMutability "functions"
  env.requireFunctionPlace keyword
  let h ← Header.read env mods keyword tokens
  let line := keyword.streamLine
  let parts := [.leaf .identifier h.name, h.returnNode line, mods.node line, h.parametersNode line]
  match h.hostClass with
  | some hostClass =>
      if setting.declaring then
        match NativeBinding.bind setting.host hostClass.lexeme h.name.lexeme h.paramTypes
            h.returnType with
        | .ok binding => env.declareFunction mods h (.native binding)
        | .error e => blame (NativeFault.binding e) h.name
      else
        .ok ⟨env, some (.new .nativeFunctionDefinition line
          (parts ++ [.leaf .nativeHostClass hostClass]))⟩
  | none =>
      if setting.declaring then env.declareFunction mods h .pending
      else
        .ok ⟨env.openBody h.returnType (.function env.owner h.name.lexeme h.paramTypes) h.params
          h.name (.new .functionDefinition line parts), none⟩

-- The constructor of a class, which has one at most.
def constructor (env : Environment) (setting : Setting) (mods : LeadingModifiers)
    (keyword : Token) (tokens : List Token) : Checked Accepted := do
  let (id, c) ← match env.frame with
    | .class id c => .ok (id, c)
    | _ => blame ScopeFault.outsideClass keyword
  mods.requireNoMutability "constructors"
  let (parameters, rest) ← Parameter.readList env tokens
  requireBrace (tokens.getLast?.getD keyword) rest "after constructor arguments"
  let h : Header := { name := keyword, parameters }
  let line := keyword.streamLine
  if setting.declaring then
    require c.constructor.isNone ResolutionFault.constructorAgain keyword
    let f : FunctionDefinition :=
      { name := "new", returnType := .void, parameters := h.params, modifiers := mods.set
        owner := .inClass id c.name, fileId := keyword.span.fileId, line, body := .pending }
    let scopes := env.scopes.modifyCurrent fun s =>
      { s with frame := .class id { c with constructor := some f } }
    .ok ⟨{ env with scopes }, none⟩
  else
    .ok ⟨env.openBody .void (.constructor id c.name) h.params keyword
      (.new .createConstructor line [mods.node line, h.parametersNode line]), none⟩

end Environment

end MiLanguage
