import MiLanguage.Proofs.Statement.Parts
import MiLanguage.Statement.Dispatch

set_option autoImplicit false

namespace MiLanguage

def Frame.isModule : Frame → Bool
  | parent _ | module _ => true
  | _ => false

def Frame.isClass (f : Frame) : Bool := f.class?.isSome

theorem isBlock_of_isModule {frame : Frame} (isModule : frame.isModule = true) :
    frame.isBlock = false := by
  cases frame with
  | block => cases isModule
  | _ => rfl

theorem isBlock_of_host {frame : Frame} (host : (frame.isModule || frame.isClass) = true) :
    frame.isBlock = false := by
  cases frame with
  | block => cases host
  | _ => rfl

-- A name that can be declared, and a brace.
def Titled (rest : List Token) (name : Token) : Prop :=
  ∃ brace, rest = [name, brace] ∧ brace.kind = .leftBrace ∧ isDotted name.lexeme = false

theorem Titled.ends {head name : Token} {rest : List Token} (titled : Titled rest name) :
    Ends head rest .leftBrace := by
  obtain ⟨brace, rfl, kind, _⟩ := titled
  exact kind

-- A statement may start with what calls for a condition.
def conditional (first : Token) : Option (BlockKind × NodeKind) :=
  match first.kind with
  | .keyword .«if» => some (.branch, .ifStatement)
  | .keyword .«while» => some (.whileLoop, .whileStatement)
  | _ => none

def exitKind (first : Token) : Option NodeKind :=
  match first.kind with
  | .keyword .«break» => some .breakStatement
  | .keyword .«continue» => some .continueStatement
  | _ => none

theorem conditional_eq_some {first : Token} {kind : BlockKind} {nodeKind : NodeKind}
    (starts : conditional first = some (kind, nodeKind)) :
    (first.kind = .keyword .«if» ∧ kind = .branch ∧ nodeKind = .ifStatement) ∨
      (first.kind = .keyword .«while» ∧ kind = .whileLoop ∧ nodeKind = .whileStatement) := by
  unfold conditional at starts
  split at starts
  next same => cases starts; exact .inl ⟨same, rfl, rfl⟩
  next same => cases starts; exact .inr ⟨same, rfl, rfl⟩
  next => cases starts

theorem exitKind_eq_some {first : Token} {nodeKind : NodeKind}
    (starts : exitKind first = some nodeKind) :
    (first.kind = .keyword .«break» ∧ nodeKind = .breakStatement) ∨
      (first.kind = .keyword .«continue» ∧ nodeKind = .continueStatement) := by
  unfold exitKind at starts
  split at starts
  next same => cases starts; exact .inl ⟨same, rfl⟩
  next same => cases starts; exact .inr ⟨same, rfl⟩
  next => cases starts

def startsVariable (first : Token) : Bool :=
  first.kind = .question || first.kind = .identifier || first.kind.isDatatype

namespace Environment

def definition (env : Environment) (mods : LeadingModifiers) (h : Header) (body : FunctionBody) :
    FunctionDefinition :=
  { name := h.name.lexeme
    returnType := h.returnType
    parameters := h.params
    modifiers := mods.set
    owner := env.owner
    fileId := h.name.span.fileId
    line := h.name.streamLine
    body }

end Environment

-- What a function's node starts with.
def Header.parts (h : Header) (mods : LeadingModifiers) (line : Nat) : List Node :=
  [.leaf .identifier h.name, h.returnNode line, mods.node line, h.parametersNode line]

def constructorDefinition (id : ModuleId) (c : ClassDeclaration) (mods : LeadingModifiers)
    (h : Header) : FunctionDefinition :=
  { name := "new", returnType := .void, parameters := h.params, modifiers := mods.set
    owner := .inClass id c.name, fileId := h.name.span.fileId, line := h.name.streamLine
    body := .pending }

def constructorParts (mods : LeadingModifiers) (h : Header) (line : Nat) : List Node :=
  [mods.node line, h.parametersNode line]

/-- The statements that a pass accepts, each with what it leaves. `first` comes after the
modifiers. -/
inductive Accepts (env : Environment) (setting : Setting) (mods : LeadingModifiers) (first : Token)
    (rest : List Token) : Accepted → Prop
  | moduleDeclared {name : Token} {id : ModuleId} {modules : ModuleTree} :
      first.kind = .keyword .module → Titled rest name → env.frame.isModule = true →
      setting.declaring = true →
      env.modules.addChild env.currentModule name.lexeme = (id, modules) →
      Accepts env setting mods first rest
        ⟨{ env with modules }.push (.module id)
          (.new .createModule first.streamLine [.leaf .identifier name]), none⟩
  | moduleEntered {name : Token} {id : ModuleId} :
      first.kind = .keyword .module → Titled rest name → env.frame.isModule = true →
      setting.declaring = false →
      env.modules.child? env.currentModule name.lexeme = some id →
      Accepts env setting mods first rest
        ⟨env.push (.module id)
          (.new .createModule first.streamLine [.leaf .identifier name]), none⟩
  | classDeclared {name : Token} {c : ClassDeclaration} :
      first.kind = .keyword .«class» → Titled rest name → env.frame.isModule = true →
      setting.declaring = true →
      (env.modules.get env.currentModule).nameTaken name.lexeme = false →
      c = { name := name.lexeme, modifiers := mods.set, origin := env.originOf name } →
      Accepts env setting mods first rest
        ⟨{ env with modules := env.modules.insertClass env.currentModule c }.push
          (.class env.currentModule c)
          (.new .createClass first.streamLine
            [.leaf .identifier name, mods.node first.streamLine]), none⟩
  | classEntered {name : Token} {c : ClassDeclaration} :
      first.kind = .keyword .«class» → Titled rest name → env.frame.isModule = true →
      setting.declaring = false →
      (env.modules.get env.currentModule).members.classes.find? name.lexeme = some c →
      Accepts env setting mods first rest
        ⟨env.push (.class env.currentModule c)
          (.new .createClass first.streamLine
            [.leaf .identifier name, mods.node first.streamLine]), none⟩
  | classMissing {name : Token} :
      first.kind = .keyword .«class» → Titled rest name → env.frame.isModule = true →
      setting.declaring = false →
      (env.modules.get env.currentModule).members.classes.find? name.lexeme = none →
      Accepts env setting mods first rest ⟨env, none⟩
  | enumDeclared {name : Token} {e : EnumDeclaration} :
      first.kind = .keyword .enum → Titled rest name → env.frame.isModule = true →
      setting.declaring = true →
      (env.modules.get env.currentModule).nameTaken name.lexeme = false →
      e = { name := name.lexeme, modifiers := mods.set, origin := env.originOf name } →
      Accepts env setting mods first rest
        ⟨{ env with modules := env.modules.insertEnum env.currentModule e }.push
          (.enum env.currentModule e)
          (.new .createEnum first.streamLine
            [.leaf .identifier name, mods.node first.streamLine]), none⟩
  | enumEntered {name : Token} {e : EnumDeclaration} :
      first.kind = .keyword .enum → Titled rest name → env.frame.isModule = true →
      setting.declaring = false →
      (env.modules.get env.currentModule).members.enums.find? name.lexeme = some e →
      Accepts env setting mods first rest
        ⟨env.push (.enum env.currentModule e)
          (.new .createEnum first.streamLine
            [.leaf .identifier name, mods.node first.streamLine]), none⟩
  | enumMissing {name : Token} :
      first.kind = .keyword .enum → Titled rest name → env.frame.isModule = true →
      setting.declaring = false →
      (env.modules.get env.currentModule).members.enums.find? name.lexeme = none →
      Accepts env setting mods first rest ⟨env, none⟩
  | membersDeclared {id : ModuleId} {e extended : EnumDeclaration} {names : List Token} :
      first.kind = .identifier → Ends first rest .semicolon → env.frame = .enum id e →
      setting.declaring = true → Environment.addMembers e names = (extended, none) →
      (∀ name ∈ names, isDotted name.lexeme = false) →
      Accepts env setting mods first rest
        ⟨{ env with scopes := env.scopes.modifyCurrent ({ · with frame := .enum id extended }) },
          some (.new .enumValues first.streamLine (names.map (Node.leaf .identifier)))⟩
  | membersKept {id : ModuleId} {e : EnumDeclaration} {names : List Token} :
      first.kind = .identifier → Ends first rest .semicolon → env.frame = .enum id e →
      setting.declaring = false →
      Accepts env setting mods first rest
        ⟨env, some (.new .enumValues first.streamLine (names.map (Node.leaf .identifier)))⟩
  | functionDeclared {h : Header} {declared : Environment} :
      first.kind = .keyword .fn → Ends first rest .leftBrace →
      (env.frame.isModule || env.frame.isClass) = true → setting.declaring = true →
      Header.read env mods first rest = .ok h → h.hostClass = none →
      env.addFunction? (env.definition mods h .pending) = some declared →
      Accepts env setting mods first rest ⟨declared, none⟩
  | functionOpened {h : Header} :
      first.kind = .keyword .fn → Ends first rest .leftBrace →
      (env.frame.isModule || env.frame.isClass) = true → setting.declaring = false →
      Header.read env mods first rest = .ok h → h.hostClass = none →
      Accepts env setting mods first rest
        ⟨env.openBody h.returnType (.function env.owner h.name.lexeme h.paramTypes) h.params h.name
          (.new .functionDefinition first.streamLine (h.parts mods first.streamLine)), none⟩
  | nativeDeclared {h : Header} {binding : NativeBinding} {declared : Environment} :
      first.kind = .keyword .fn → Ends first rest .semicolon →
      (env.frame.isModule || env.frame.isClass) = true → setting.declaring = true →
      Header.read env mods first rest = .ok h →
      env.addFunction? (env.definition mods h (.native binding)) = some declared →
      Accepts env setting mods first rest ⟨declared, none⟩
  | nativeKept {h : Header} {host : Token} :
      first.kind = .keyword .fn → Ends first rest .semicolon →
      (env.frame.isModule || env.frame.isClass) = true → setting.declaring = false →
      Header.read env mods first rest = .ok h →
      Accepts env setting mods first rest
        ⟨env, some (.new .nativeFunctionDefinition first.streamLine
          (h.parts mods first.streamLine ++ [.leaf .nativeHostClass host]))⟩
  | constructorDeclared {id : ModuleId} {c : ClassDeclaration} {h : Header} {brace : Token} :
      first.kind = .keyword .new → Ends first rest .leftBrace → env.frame = .class id c →
      setting.declaring = true → h.name = first → h.returnType = .void →
      Parameter.readList env rest = .ok (h.parameters, [brace]) →
      c.constructor = none →
      Accepts env setting mods first rest
        ⟨{ env with scopes := env.scopes.modifyCurrent ({ · with
          frame := .class id { c with constructor := some (constructorDefinition id c mods h) } }) },
          none⟩
  | constructorOpened {id : ModuleId} {c : ClassDeclaration} {h : Header} {brace : Token} :
      first.kind = .keyword .new → Ends first rest .leftBrace → env.frame = .class id c →
      setting.declaring = false → h.name = first → h.returnType = .void →
      Parameter.readList env rest = .ok (h.parameters, [brace]) →
      Accepts env setting mods first rest
        ⟨env.openBody .void (.constructor id c.name) h.params first
          (.new .createConstructor first.streamLine
            (constructorParts mods h first.streamLine)), none⟩
  | conditional {kind : BlockKind} {nodeKind : NodeKind} {condition : Node} :
      conditional first = some (kind, nodeKind) → Ends first rest .leftBrace →
      env.frame.isBlock = true → env.Decides condition →
      Accepts env setting mods first rest
        ⟨env.push (.block kind {}) (.new nodeKind first.streamLine [condition]), none⟩
  | doLoop :
      first.kind = .keyword .«do» → Ends first rest .leftBrace → env.frame.isBlock = true →
      Accepts env setting mods first rest
        ⟨env.push (.block .doLoop {}) (.new .doStatement first.streamLine), none⟩
  | forLoop {defined stepped : Environment} {start condition step : Node} {implied : Bool} :
      first.kind = .keyword .«for» → Ends first rest .leftBrace → env.frame.isBlock = true →
      (env.push (.block .loopHead {}) (.new .forFakeScope first.streamLine)).Defines .inBlock
        defined start →
      defined.Decides condition → defined.Advances implied stepped step →
      Accepts env setting mods first rest
        ⟨([start, condition, .new .forInstruct first.streamLine [step]].foldl
            (fun env node => env.append setting node) stepped).push
          (.block .forLoop {}) (.new .forStatement first.streamLine), none⟩
  | returned {value : Option Typed} :
      first.kind = .keyword .ret → Ends first rest .semicolon → env.frame.isBlock = true →
      (∀ e, value = some e → env.Means e) →
      (∀ wanted, env.scopes.returnType? = some wanted →
        Environment.returnFits wanted ((value.map Typed.type).getD .void) = true) →
      Accepts env setting mods first rest
        ⟨env.modifyBlock fun b => { b with returned := true, terminated := true },
          some (.new .returnValue first.streamLine (value.map Typed.node).toList)⟩
  | exited {nodeKind : NodeKind} :
      exitKind first = some nodeKind → Ends first rest .semicolon → env.frame.isBlock = true →
      env.scopes.inLoop = true →
      Accepts env setting mods first rest
        ⟨env.modifyBlock ({ · with terminated := true }), some (.leaf nodeKind first)⟩
  | used {id : ModuleId} {path : Token} :
      first.kind = .keyword .use → Ends first rest .semicolon → env.frame.isBlock = true →
      Accepts env setting mods first rest
        ⟨{ env with scopes := (env.scopes.addUse? id).getD env.scopes },
          some (.leaf .useStatement path)⟩
  | libraryEnded :
      first.kind = .keyword .libraryEnd → Ends first rest .semicolon → env.scopes.depth = 1 →
      Accepts env setting mods first rest
        ⟨{ env with inLibrary := false }, some (.leaf .stdlibFinish first)⟩
  | variableDefined {placement : Placement} {place : Token} {declared : Environment} {node : Node} :
      startsVariable first = true → Ends first rest .semicolon →
      env.placement place = .ok placement →
      (setting.declaring = true ∨ placement = .inBlock) → env.Defines placement declared node →
      Accepts env setting mods first rest ⟨declared, some node⟩
  | variableKept {placement : Placement} {place : Token} {tokens : List Token} :
      startsVariable first = true → Ends first rest .semicolon →
      env.placement place = .ok placement →
      setting.declaring = false → placement ≠ .inBlock →
      Accepts env setting mods first rest
        ⟨env, env.knownVariable placement mods first tokens⟩
  | called {node : Node} :
      first.kind = .identifier → Ends first rest .semicolon → env.frame.isBlock = true →
      env.Calls node → Accepts env setting mods first rest ⟨env, some node⟩
  | assigned {after : Environment} {node : Node} :
      first.kind = .identifier → Ends first rest .semicolon → env.frame.isBlock = true →
      env.Assigns false after node → Accepts env setting mods first rest ⟨after, some node⟩

variable {env : Environment} {setting : Setting} {mods : LeadingModifiers} {first : Token}
  {rest : List Token} {accepted : Accepted}

theorem titled_of_named {before name : Token} {what place : String}
    (declared : declaredName rest.head? before what = .ok name) {done : Unit}
    (brace : requireBrace name rest.tail place = .ok done) : Titled rest name := by
  obtain ⟨head, _, plain⟩ := declaredName_eq_ok declared
  obtain ⟨last, tail, kind⟩ := requireBrace_eq_ok brace
  cases rest with
  | nil => simp at head
  | cons t rest =>
      cases head
      exact ⟨last, by simpa using tail, kind, plain⟩

namespace Environment

theorem openModule_accepts (kind : first.kind = .keyword .module)
    (read : env.openModule setting mods first rest = .ok accepted) :
    Accepts env setting mods first rest accepted := by
  simp only [openModule, Checked.bind_eq_ok] at read
  obtain ⟨_, _, read⟩ := read
  cases frame : env.frame with
  | parent | module =>
      have isModule : env.frame.isModule = true := by rw [frame]; rfl
      simp only [frame, Checked.bind_eq_ok] at read
      obtain ⟨name, declared, _, brace, read⟩ := read
      have titled := titled_of_named declared brace
      split at read
      next declaring =>
        cases read
        exact .moduleDeclared kind titled isModule declaring rfl
      next kept =>
        split at read
        next id child =>
          cases read
          exact .moduleEntered kind titled isModule (by simpa using kept) child
        next => simp at read
  | _ => simp [frame] at read

theorem isModule_of_typePlace {plural title : String} {done : Unit}
    (place : env.requireTypePlace first plural title = .ok done) : env.frame.isModule = true := by
  unfold requireTypePlace at place
  split at place
  next frame => rw [frame]; rfl
  next frame => rw [frame]; rfl
  next => simp at place

theorem openClass_accepts (kind : first.kind = .keyword .«class»)
    (read : env.openClass setting mods first rest = .ok accepted) :
    Accepts env setting mods first rest accepted := by
  simp only [openClass, Checked.bind_eq_ok] at read
  obtain ⟨_, _, _, place, name, declared, _, brace, read⟩ := read
  have isModule := isModule_of_typePlace place
  have titled := titled_of_named declared brace
  split at read
  next declaring =>
    simp only [requireFreeName, Checked.bind_eq_ok, Checked.require_eq_ok, Bool.not_eq_true'] at read
    obtain ⟨_, free, same⟩ := read
    cases same
    exact .classDeclared kind titled isModule declaring free rfl
  next kept =>
    have kept : setting.declaring = false := by simpa using kept
    split at read
    next c found =>
      cases read
      exact .classEntered kind titled isModule kept found
    next missing =>
      cases read
      exact .classMissing kind titled isModule kept missing

theorem openEnum_accepts (kind : first.kind = .keyword .enum)
    (read : env.openEnum setting mods first rest = .ok accepted) :
    Accepts env setting mods first rest accepted := by
  simp only [openEnum, Checked.bind_eq_ok] at read
  obtain ⟨_, _, _, place, name, declared, _, brace, read⟩ := read
  have isModule := isModule_of_typePlace place
  have titled := titled_of_named declared brace
  split at read
  next declaring =>
    simp only [requireFreeName, Checked.bind_eq_ok, Checked.require_eq_ok, Bool.not_eq_true'] at read
    obtain ⟨_, free, same⟩ := read
    cases same
    exact .enumDeclared kind titled isModule declaring free rfl
  next kept =>
    have kept : setting.declaring = false := by simpa using kept
    split at read
    next e found =>
      cases read
      exact .enumEntered kind titled isModule kept found
    next missing =>
      cases read
      exact .enumMissing kind titled isModule kept missing

theorem memberNames_plain {last : Token} {parts : List (List Token)} {names : List Token}
    (read : memberNames last parts = .ok names) : ∀ name ∈ names, isDotted name.lexeme = false := by
  induction parts generalizing names with
  | nil =>
      cases read
      simp
  | cons part parts ih =>
      match part with
      | [t] =>
          simp only [memberNames, Checked.bind_eq_ok, Except.ok.injEq] at read
          obtain ⟨name, named, names, later, rfl⟩ := read
          exact List.forall_mem_cons.mpr ⟨(declaredName_eq_ok named).2.2, ih later⟩
      | [] => simp [memberNames] at read
      | _ :: _ :: _ => simp [memberNames] at read

theorem readMembers_plain {names : List Token} (read : readMembers mods first rest = .ok names) :
    ∀ name ∈ names, isDotted name.lexeme = false := by
  simp only [readMembers, Checked.bind_eq_ok] at read
  obtain ⟨_, _, _, _, read⟩ := read
  exact memberNames_plain read

theorem declareMembers_accepts {id : ModuleId} {e : EnumDeclaration} {after : Environment}
    {node : Option Node} (kind : first.kind = .identifier) (frame : env.frame = .enum id e)
    (read : env.declareMembers setting id e mods first rest = (after, .ok node)) :
    Accepts env setting mods first rest ⟨after, node⟩ := by
  unfold declareMembers at read
  split at read
  next => cases read
  next names members =>
    have plain := readMembers_plain members
    simp only [readMembers, Checked.bind_eq_ok] at members
    obtain ⟨_, _, _, dropped, _⟩ := members
    have ends : Ends first rest .semicolon := by
      simpa [Ends, List.getLast?_cons] using (dropLastOf_eq_ok dropped).1
    dsimp only at read
    split at read
    next declaring =>
      split at read
      next =>
        generalize added : addMembers e names = found at read
        obtain ⟨extended, repeated⟩ := found
        cases repeated with
        | some name => simp [blame] at read
        | none =>
            cases read
            exact .membersDeclared kind ends frame declaring added plain
      next => simp [blame] at read
    next kept =>
      cases read
      exact .membersKept kind ends frame (by simpa using kept)

theorem requireBlock_eq_ok {done : Unit} (block : env.requireBlock first = .ok done) :
    env.frame.isBlock = true := by
  simpa [requireBlock] using block

theorem functionPlace {done : Unit} (place : env.requireFunctionPlace first = .ok done) :
    (env.frame.isModule || env.frame.isClass) = true := by
  unfold requireFunctionPlace at place
  split at place
  next frame => rw [frame]; rfl
  next frame => rw [frame]; rfl
  next frame => rw [frame]; rfl
  next => simp at place
  next => simp at place

theorem declareFunction_eq_ok {h : Header} {body : FunctionBody}
    (declared : env.declareFunction mods h body = .ok accepted) :
    env.addFunction? (env.definition mods h body) = some accepted.environment ∧
      accepted.node = none := by
  simp only [declareFunction] at declared
  split at declared
  next added => cases declared; exact ⟨added, rfl⟩
  next => simp at declared

theorem function_accepts (kind : first.kind = .keyword .fn)
    (read : env.function setting mods first rest = .ok accepted) :
    Accepts env setting mods first rest accepted := by
  simp only [function, Checked.bind_eq_ok] at read
  obtain ⟨_, _, _, place, h, header, read⟩ := read
  have place := functionPlace place
  have ends := (Header.read_eq_ok header).2.2
  cases host : h.hostClass with
  | some hostClass =>
      simp only [host] at read ends
      split at read
      next declaring =>
        split at read
        next binding _ =>
          obtain ⟨added, same⟩ := declareFunction_eq_ok read
          cases accepted
          cases same
          exact .nativeDeclared kind ends place declaring header added
        next => simp at read
      next kept =>
        cases read
        exact .nativeKept kind ends place (by simpa using kept) header
  | none =>
      simp only [host] at read ends
      split at read
      next declaring =>
        obtain ⟨added, same⟩ := declareFunction_eq_ok read
        cases accepted
        cases same
        exact .functionDeclared kind ends place declaring header host added
      next kept =>
        cases read
        exact .functionOpened kind ends place (by simpa using kept) header host

theorem constructor_accepts (kind : first.kind = .keyword .new)
    (read : env.constructor setting mods first rest = .ok accepted) :
    Accepts env setting mods first rest accepted := by
  cases frame : env.frame with
  | «class» id c =>
      simp only [constructor, frame, Checked.bind_eq_ok, Except.ok.injEq, exists_eq_left'] at read
      obtain ⟨_, _, ⟨parameters, tail⟩, list, _, brace, read⟩ := read
      obtain ⟨brace, rfl, braceKind⟩ := requireBrace_eq_ok brace
      have ends : Ends first rest .leftBrace := by
        simpa [braceKind] using ends_of_suffix (Parameter.readList_shown list).2
      let h : Header := { name := first, parameters }
      split at read
      next declaring =>
        simp only [Checked.bind_eq_ok, Checked.require_eq_ok, Option.isNone_iff_eq_none] at read
        obtain ⟨_, fresh, same⟩ := read
        cases same
        exact .constructorDeclared (h := h) kind ends frame declaring rfl rfl list fresh
      next kept =>
        cases read
        exact .constructorOpened (h := h) kind ends frame (by simpa using kept) rfl rfl list
  | _ => simp [constructor, frame] at read

theorem openConditional_accepts {kind : BlockKind} {nodeKind : NodeKind}
    (starts : conditional first = some (kind, nodeKind))
    (read : env.openConditional mods kind nodeKind first rest = .ok accepted) :
    Accepts env setting mods first rest accepted := by
  simp only [openConditional, Checked.bind_eq_ok] at read
  obtain ⟨_, _, _, block, head, dropped, condition, decides, same⟩ := read
  cases same
  exact .conditional starts (dropLastOf_eq_ok dropped).1 (requireBlock_eq_ok block)
    (wrappedCondition_decides decides)

theorem openDo_accepts (kind : first.kind = .keyword .«do»)
    (read : env.openDo mods first rest = .ok accepted) :
    Accepts env setting mods first rest accepted := by
  simp only [openDo, Checked.bind_eq_ok] at read
  obtain ⟨_, _, _, block, _, brace, same⟩ := read
  obtain ⟨brace, rfl, braceKind⟩ := requireBrace_eq_ok brace
  cases same
  exact .doLoop kind braceKind (requireBlock_eq_ok block)

theorem openFor_accepts (kind : first.kind = .keyword .«for»)
    (read : env.openFor setting mods first rest = .ok accepted) :
    Accepts env setting mods first rest accepted := by
  simp only [openFor, Checked.bind_eq_ok] at read
  obtain ⟨_, _, _, block, header, dropped, read⟩ := read
  split at read
  next =>
    simp only [Checked.bind_eq_ok] at read
    obtain ⟨_, _, head, _, ⟨defined, start⟩, definition, condition, decides, ⟨stepped, step⟩,
      advances, same⟩ := read
    cases same
    exact .forLoop kind (dropLastOf_eq_ok dropped).1 (requireBlock_eq_ok block)
      (loopDefinition_defines definition) (conditionNode_decides decides)
      (loopStep_advances advances)
  next => simp at read

-- The value of a `return` fits what the function wants.
theorem returned_accepts {fault : Datatype → Fault} {place : Token} (value : Option Typed)
    (kind : first.kind = .keyword .ret) (ends : Ends first rest .semicolon)
    (block : env.frame.isBlock = true) (means : ∀ e, value = some e → env.Means e)
    (found : (match env.scopes.returnType? with
      | some wanted => do
        require (returnFits wanted ((value.map Typed.type).getD .void)) (fault wanted) place
        .ok ⟨env.modifyBlock fun b => { b with returned := true, terminated := true },
          some (.new .returnValue first.streamLine (value.map Typed.node).toList)⟩
      | _ => .ok ⟨env.modifyBlock fun b => { b with returned := true, terminated := true },
          some (.new .returnValue first.streamLine (value.map Typed.node).toList)⟩) =
      Except.ok accepted) :
    Accepts env setting mods first rest accepted := by
  cases wanted : env.scopes.returnType? with
  | some type =>
      simp only [wanted, Checked.bind_eq_ok, Checked.require_eq_ok] at found
      obtain ⟨_, fits, same⟩ := found
      cases same
      exact .returned kind ends block means (by simpa [wanted] using fits)
  | none =>
      simp only [wanted] at found
      cases found
      exact .returned kind ends block means (by simp [wanted])

theorem returnStatement_accepts (kind : first.kind = .keyword .ret)
    (read : env.returnStatement mods first rest = .ok accepted) :
    Accepts env setting mods first rest accepted := by
  simp only [returnStatement, Checked.bind_eq_ok] at read
  obtain ⟨_, _, _, placed, tokens, dropped, read⟩ := read
  have ends := (dropLastOf_eq_ok dropped).1
  have block := requireBlock_eq_ok placed
  cases tokens with
  | nil =>
      simp only [Checked.bind_eq_ok, Except.ok.injEq, exists_eq_left'] at read
      exact returned_accepts none kind ends block (by simp) read
  | cons t tokens =>
      simp only [Checked.bind_eq_ok, Except.ok.injEq, exists_eq_left'] at read
      obtain ⟨e, value, read⟩ := read
      refine returned_accepts (some e) kind ends block ?_ read
      intro found same
      cases same
      exact expression_means value

theorem loopExit_accepts {nodeKind : NodeKind} (kind : exitKind first = some nodeKind)
    (read : env.loopExit mods nodeKind first rest = .ok accepted) :
    Accepts env setting mods first rest accepted := by
  simp only [loopExit, Checked.bind_eq_ok, Checked.require_eq_ok] at read
  obtain ⟨_, _, _, block, _, ends, _, inLoop, same⟩ := read
  obtain ⟨last, rfl, lastKind⟩ := requireEnd_eq_ok ends
  cases same
  exact .exited kind lastKind (requireBlock_eq_ok block) inLoop

theorem useStatement_accepts (kind : first.kind = .keyword .use)
    (read : env.useStatement mods first rest = .ok accepted) :
    Accepts env setting mods first rest accepted := by
  simp only [useStatement, Checked.bind_eq_ok] at read
  obtain ⟨_, _, _, block, read⟩ := read
  cases rest with
  | nil => simp at read
  | cons path tail =>
      simp only at read
      split at read
      next =>
        simp only [Checked.bind_eq_ok, Except.ok.injEq, exists_eq_left'] at read
        obtain ⟨_, ends, read⟩ := read
        obtain ⟨last, rfl, lastKind⟩ := requireEnd_eq_ok ends
        split at read
        next => simp at read
        next =>
          cases read
          exact .used kind lastKind (requireBlock_eq_ok block)
      next => simp at read

theorem endLibrary_accepts (kind : first.kind = .keyword .libraryEnd)
    (read : env.endLibrary mods first rest = .ok accepted) :
    Accepts env setting mods first rest accepted := by
  simp only [endLibrary, Checked.bind_eq_ok, Checked.require_eq_ok, Bool.and_eq_true,
    decide_eq_true_eq] at read
  obtain ⟨_, _, _, ends, _, ⟨_, depth⟩, same⟩ := read
  obtain ⟨last, rfl, lastKind⟩ := requireEnd_eq_ok ends
  cases same
  exact .libraryEnded kind lastKind depth

theorem variableStatement_accepts (starts : startsVariable first = true)
    (read : env.variableStatement setting mods first rest = .ok accepted) :
    Accepts env setting mods first rest accepted := by
  simp only [variableStatement, Checked.bind_eq_ok] at read
  obtain ⟨definition, dropped, placement, place, read⟩ := read
  have ends := (dropLastOf_eq_ok dropped).1
  split at read
  next reads =>
    simp only [Checked.bind_eq_ok] at read
    obtain ⟨⟨declared, node⟩, found, same⟩ := read
    cases same
    have kind : first.kind ≠ .datatype .void := by
      intro void
      simp [startsVariable, void, TokenKind.isDatatype] at starts
    exact .variableDefined starts ends place (by simpa using reads) (newVariable_defines found kind)
  next kept =>
    simp only [Bool.or_eq_true, decide_eq_true_eq, not_or, Bool.not_eq_true] at kept
    cases read
    exact .variableKept starts ends place kept.1 kept.2

theorem callStatement_accepts (kind : first.kind = .identifier)
    (read : env.callStatement mods first rest = .ok accepted) :
    Accepts env setting mods first rest accepted := by
  simp only [callStatement, Checked.bind_eq_ok, Checked.require_eq_ok, decide_eq_true_eq] at read
  obtain ⟨_, _, _, block, call, dropped, e, value, _, isCall, same⟩ := read
  have ends : Ends first rest .semicolon := by
    simpa [Ends, List.getLast?_cons] using (dropLastOf_eq_ok dropped).1
  cases same
  exact .called kind ends (requireBlock_eq_ok block) ⟨e, expression_means value, isCall, rfl⟩

theorem nameStatement_accepts (kind : first.kind = .identifier)
    (read : env.nameStatement setting mods first rest = .ok accepted) :
    Accepts env setting mods first rest accepted := by
  unfold nameStatement at read
  split at read
  next => simp at read
  next op rest =>
    split at read
    next => exact variableStatement_accepts (by simp [startsVariable, kind]) read
    next => exact callStatement_accepts kind read
    next =>
      split at read
      next =>
        simp only [assignment, Checked.bind_eq_ok] at read
        obtain ⟨_, _, _, block, value, dropped, ⟨after, node⟩, assigned, same⟩ := read
        have ends : Ends first (op :: rest) .semicolon := by
          simpa [Ends, List.getLast?_cons] using (dropLastOf_eq_ok dropped).1
        cases same
        exact .assigned kind ends (requireBlock_eq_ok block) (assign_assigns assigned)
      next => simp at read

theorem read_accepts (read : env.read setting mods first rest = .ok accepted) :
    Accepts env setting mods first rest accepted := by
  cases kind : first.kind with
  | keyword k =>
      simp only [Environment.read, kind] at read
      cases k with
      | module => exact openModule_accepts kind read
      | «class» => exact openClass_accepts kind read
      | enum => exact openEnum_accepts kind read
      | fn => exact function_accepts kind read
      | new => exact constructor_accepts kind read
      | «if» => exact openConditional_accepts (by simp [conditional, kind]) read
      | «while» => exact openConditional_accepts (by simp [conditional, kind]) read
      | «do» => exact openDo_accepts kind read
      | «for» => exact openFor_accepts kind read
      | ret => exact returnStatement_accepts kind read
      | «break» => exact loopExit_accepts (by simp [exitKind, kind]) read
      | «continue» => exact loopExit_accepts (by simp [exitKind, kind]) read
      | use => exact useStatement_accepts kind read
      | libraryEnd => exact endLibrary_accepts kind read
  | identifier =>
      simp only [Environment.read, kind] at read
      exact nameStatement_accepts kind read
  | datatype p =>
      simp only [Environment.read, kind] at read
      split at read
      next isDatatype =>
        exact variableStatement_accepts (by simp [startsVariable, kind, isDatatype]) read
      next => simp at read
  | punctuation p =>
      cases p with
      | question =>
          simp only [Environment.read, kind] at read
          exact variableStatement_accepts (by simp [startsVariable, kind]) read
      | _ => simp [Environment.read, kind, TokenKind.isDatatype] at read
  | _ => simp [Environment.read, kind, TokenKind.isDatatype] at read

-- A statement with a result has been accepted, after its modifiers.
theorem statement_accepts {after : Environment} {node : Option Node}
    (read : env.statement setting first rest = ⟨after, .ok node⟩) :
    ∃ mods head tail, LeadingModifiers.read (first :: rest) = .ok (mods, head :: tail) ∧
      Accepts env setting mods head tail ⟨after, node⟩ := by
  unfold statement at read
  split at read
  next => simp at read
  next => simp [blame] at read
  next mods head tail modifiers =>
    refine ⟨mods, head, tail, modifiers, ?_⟩
    unfold dispatch at read
    split at read
    next id e kind frame =>
      generalize members : env.declareMembers setting id e mods head tail = outcome at read
      obtain ⟨after, result⟩ := outcome
      cases read
      exact declareMembers_accepts kind frame members
    next =>
      cases found : env.read setting mods head tail with
      | ok accepted =>
          simp only [found, Outcome.ofChecked] at read
          cases read
          exact read_accepts found
      | error => simp [found, Outcome.ofChecked] at read

-- Some of the names in a list of enum members, up to one that is repeated.
def Extends (e extended : EnumDeclaration) : Prop :=
  ∃ names repeated, addMembers e names = (extended, some repeated) ∧
    ∀ name ∈ names, isDotted name.lexeme = false

theorem declareMembers_rejects {id : ModuleId} {e : EnumDeclaration} {after : Environment}
    {report : Report} (read : env.declareMembers setting id e mods first rest = (after, .error report)) :
    after = env ∨ setting.declaring = true ∧ ∃ extended, Extends e extended ∧
      after = { env with scopes := env.scopes.modifyCurrent ({ · with frame := .enum id extended }) } := by
  unfold declareMembers at read
  split at read
  next => cases read; exact .inl rfl
  next names members =>
    dsimp only at read
    split at read
    next declaring =>
      split at read
      next =>
        generalize added : addMembers e names = found at read
        obtain ⟨extended, repeated⟩ := found
        cases repeated with
        | some name =>
            cases read
            exact .inr ⟨declaring, extended, ⟨names, name, added, readMembers_plain members⟩, rfl⟩
        | none => cases read
      next => cases read; exact .inl rfl
    next => cases read

-- A statement that is blamed has changed no more than the members of the enum around it, and that
-- in the first pass only.
theorem statement_rejects_members {after : Environment} {report : Report}
    (read : env.statement setting first rest = ⟨after, .error report⟩) :
    after = env ∨ setting.declaring = true ∧ ∃ id e extended, env.frame = .enum id e ∧
      Extends e extended ∧ after = { env with scopes := env.scopes.modifyCurrent ({ · with frame := .enum id extended }) } := by
  unfold statement at read
  split at read
  next => cases read; exact .inl rfl
  next => cases read; exact .inl rfl
  next mods head tail _ =>
    unfold dispatch at read
    split at read
    next id e _ frame =>
      generalize members : env.declareMembers setting id e mods head tail = outcome at read
      obtain ⟨after, result⟩ := outcome
      cases read
      rcases declareMembers_rejects members with same | ⟨declaring, extended, extending, same⟩
      · exact .inl same
      · exact .inr ⟨declaring, id, e, extended, frame, extending, same⟩
    next =>
      cases found : env.read setting mods head tail with
      | ok => simp [found, Outcome.ofChecked] at read
      | error =>
          simp only [found, Outcome.ofChecked] at read
          cases read
          exact .inl rfl

theorem statement_rejects_cases {after : Environment} {report : Report}
    (read : env.statement setting first rest = ⟨after, .error report⟩) :
    after = env ∨ setting.declaring = true ∧ ∃ id e extended, env.frame = .enum id e ∧
      after = { env with scopes := env.scopes.modifyCurrent ({ · with frame := .enum id extended }) } := by
  rcases statement_rejects_members read with same | ⟨declaring, id, e, extended, frame, _, same⟩
  · exact .inl same
  · exact .inr ⟨declaring, id, e, extended, frame, same⟩

theorem statement_rejects {after : Environment} {report : Report}
    (read : env.statement setting first rest = ⟨after, .error report⟩) :
    after = env ∨ ∃ id e extended, env.frame = .enum id e ∧
      after = { env with scopes := env.scopes.modifyCurrent ({ · with frame := .enum id extended }) } := by
  rcases statement_rejects_cases read with same | ⟨_, changed⟩
  · exact .inl same
  · exact .inr changed

end Environment

end MiLanguage
