import MiLanguage.Proofs.Passes.Signature

set_option autoImplicit false

namespace MiLanguage

/-- What a statement outside of bodies is, by its first token and by its last one. -/
inductive StatementSort where
  | module | «class» | enum | body | native | other

def statementSort (head : Token) (tail : List Token) : StatementSort :=
  match head.kind with
  | .keyword .module => .module
  | .keyword .«class» => .class
  | .keyword .enum => .enum
  | .keyword .new => .body
  | .keyword .fn => if (tail.getLast?.getD head).kind = .leftBrace then .body else .native
  | _ => .other

theorem statementSort_body {head : Token} {tail : List Token} (kind : head.kind = .keyword .fn)
    (ends : Ends head tail .leftBrace) : statementSort head tail = .body := by
  unfold Ends at ends
  simp [statementSort, kind, ends]

theorem statementSort_native {head : Token} {tail : List Token} (kind : head.kind = .keyword .fn)
    (ends : Ends head tail .semicolon) : statementSort head tail = .native := by
  unfold Ends at ends
  simp [statementSort, kind, ends]

namespace Title

theorem Outside.push {titles : List Title} {top new : Title} (outside : Outside titles)
    (head : titles.head? = some top) (module : top.isModule = true)
    (declaration : new.isDeclaration = true) : Outside (new :: titles) := by
  obtain ⟨_, below, rfl, _, modules, last⟩ := outside
  cases head
  refine ⟨new, top :: below, rfl, declaration, ?_, by simpa using last⟩
  intro title member
  rcases List.mem_cons.mp member with rfl | member
  · exact module
  · exact modules title member

theorem Outside.pop {top : Title} {titles : List Title} (outside : Outside (top :: titles))
    (nonempty : titles ≠ []) : Outside titles ∧ ∃ next, titles.head? = some next ∧ next.isModule = true := by
  obtain ⟨_, _, same, _, modules, last⟩ := outside
  cases same
  cases titles with
  | nil => exact absurd rfl nonempty
  | cons next below =>
      have module := modules next (by simp)
      refine ⟨⟨next, below, rfl, ?_, fun title member => modules title (by simp [member]),
        by simpa using last⟩, next, rfl, module⟩
      cases next <;> first | rfl | cases module

end Title

namespace Environment

variable {env after : Environment} {mods : LeadingModifiers} {head : Token} {tail : List Token}

/-- Between the statements of the first pass. -/
structure Outer (env : Environment) : Prop where
  outside : Title.Outside env.titles
  proper : env.declared.Proper
  inside : ∀ title ∈ env.titles, ∀ id, title.moduleId? = some id → id.index < env.declared.size

/-- What a statement outside of bodies does in the first pass. -/
inductive Declaring (env : Environment) (mods : LeadingModifiers) (head : Token)
    (tail : List Token) (after : Environment) : StatementSort → Prop
  | module {name : Token} {id : ModuleId} :
      Titled tail name → env.frame.isModule = true → after.titles = .module id :: env.titles →
      after.declared.child? env.currentModule name.lexeme = some id →
      env.declared.Declares after.declared none → Declaring env mods head tail after .module
  | «class» {name : Token} :
      Titled tail name → env.frame.isModule = true →
      after.titles = .class env.currentModule name.lexeme :: env.titles →
      (after.declared.class? env.currentModule name.lexeme).isSome = true →
      env.declared.Declares after.declared none → Declaring env mods head tail after .class
  | enum {name : Token} :
      Titled tail name → env.frame.isModule = true →
      after.titles = .enum env.currentModule :: env.titles →
      (after.declared.enum? env.currentModule name.lexeme).isSome = true →
      env.declared.Declares after.declared none → Declaring env mods head tail after .enum
  | body {owner : BodyOwner} {sig : Signature} {d : FunctionDefinition} :
      env.Heads mods head tail owner sig → Ends head tail .leftBrace → d.body = .pending →
      d.paramTypes = sig.paramTypes → d.returnType = sig.returnType → after.titles = env.titles →
      env.declared.Declares after.declared (some (owner, d)) →
      Declaring env mods head tail after .body
  | native {owner : BodyOwner} {d : FunctionDefinition} :
      d.isNative = true → Ends head tail .semicolon → after.titles = env.titles →
      env.declared.Declares after.declared (some (owner, d)) →
      Declaring env mods head tail after .native
  | other :
      Ends head tail .semicolon → after.titles = env.titles →
      env.declared.Declares after.declared none → Declaring env mods head tail after .other

theorem declared_of_isModule (isModule : env.frame.isModule = true) :
    env.declared = env.modules := by
  unfold declared
  cases frame : env.frame <;> first | rfl | (rw [frame] at isModule; cases isModule)

theorem size_declared (env : Environment) : env.declared.size = env.modules.size := by
  unfold declared
  split
  next => exact ModuleTree.size_insertClass _ _ _
  next => exact ModuleTree.size_insertEnum _ _ _
  next => rfl

theorem isModule_title {frame : Frame} (isModule : frame.isModule = true) :
    frame.title.isModule = true := by
  cases frame <;> first | rfl | cases isModule

theorem Outer.currentModule_mem (outer : env.Outer) :
    ∃ title ∈ env.titles, title.moduleId? = some env.currentModule := by
  rw [currentModule_eq outer.outside]
  obtain ⟨top, below, titles, declaration, _⟩ := outer.outside
  rw [titles]
  refine ⟨top, by simp, ?_⟩
  cases top <;> first | rfl | cases declaration

theorem Outer.currentModule_lt (outer : env.Outer) :
    env.currentModule.index < env.declared.size := by
  obtain ⟨title, member, id⟩ := outer.currentModule_mem
  exact outer.inside title member _ id

theorem Declaring.outer {sort : StatementSort} (declaring : env.Declaring mods head tail after sort)
    (outer : env.Outer) : after.Outer := by
  obtain ⟨_, _, top⟩ := title_frame outer.outside
  have stays : ∀ {added}, after.titles = env.titles → env.declared.Declares after.declared added →
      after.Outer := by
    intro added titles declares
    refine ⟨by rw [titles]; exact outer.outside, declares.proper, ?_⟩
    rw [titles]
    exact fun title member id found =>
      Nat.lt_of_lt_of_le (outer.inside title member id found) declares.size
  have opens : ∀ {title : Title} {id : ModuleId} {added}, env.frame.isModule = true →
      after.titles = title :: env.titles → title.isDeclaration = true → title.moduleId? = some id →
      id.index < after.declared.size → env.declared.Declares after.declared added →
      after.Outer := by
    intro title id added isModule titles declaration moduleId inside declares
    refine ⟨?_, declares.proper, ?_⟩
    · rw [titles]
      exact outer.outside.push top (isModule_title isModule) declaration
    · rw [titles]
      intro other member id' found
      rcases List.mem_cons.mp member with rfl | member
      · rw [moduleId] at found
        cases found
        exact inside
      · exact Nat.lt_of_lt_of_le (outer.inside other member id' found) declares.size
  cases declaring with
  | module _ isModule titles child declares =>
      exact opens isModule titles rfl rfl (declares.proper.children _ _ _ child) declares
  | «class» _ isModule titles _ declares =>
      exact opens isModule titles rfl rfl
        (Nat.lt_of_lt_of_le outer.currentModule_lt declares.size) declares
  | enum _ isModule titles _ declares =>
      exact opens isModule titles rfl rfl
        (Nat.lt_of_lt_of_le outer.currentModule_lt declares.size) declares
  | body _ _ _ _ _ titles declares => exact stays titles declares
  | native _ _ titles declares => exact stays titles declares
  | other _ titles declares => exact stays titles declares

section Class

variable {id : ModuleId} {c : ClassDeclaration}

theorem Outer.modifyClass? (outer : env.Outer) (frame : env.frame = .class id c)
    (f : ClassDeclaration → ClassDeclaration) :
    env.scopes.modifyClass? f =
      some (env.scopes.modifyCurrent ({ · with frame := .class id (f c) })) := by
  obtain ⟨top, below, titles, _, _, last⟩ := outer.outside
  apply modifyClass?_of_frame frame
  -- The lowest scope is the root module's.
  intro opened
  have title := (title_frame outer.outside).2.2
  have only : env.titles = [env.scopes.base.title] := by
    simp [Environment.titles, ScopeStack.all, opened]
  rw [only] at last title
  simp only [List.getLast?_singleton, List.head?_cons, Option.some.injEq] at last title
  rw [last, frame] at title
  cases title

-- The class that is open may get fields and functions.
theorem Outer.updateClass (outer : env.Outer) (frame : env.frame = .class id c)
    (new : ClassDeclaration) (name : new.name = c.name) :
    ({ env with scopes := env.scopes.modifyCurrent ({ · with frame := .class id new }) } :
        Environment).titles = env.titles ∧
      ({ env with scopes := env.scopes.modifyCurrent ({ · with frame := .class id new }) } :
        Environment).declared = env.declared.insertClass id new ∧
      id.index < env.declared.size ∧ env.declared.class? id c.name = some c := by
  have declared : env.declared = env.modules.insertClass id c := by
    unfold Environment.declared
    rw [frame]
  obtain ⟨kept, _, head⟩ := title_frame outer.outside
  have inside : id.index < env.declared.size := by
    refine outer.inside (.class id c.name) (List.mem_of_mem_head? ?_) id rfl
    rw [head, frame]
    rfl
  refine ⟨?_, ?_, inside, ?_⟩
  · obtain ⟨below, titles, changed⟩ := env.titles_eq_current
    rw [changed, titles]
    unfold Environment.frame at frame
    simp [Scope.title, kept, frame, Frame.title, name]
  · rw [declared, ModuleTree.insertClass_insertClass name]
    unfold Environment.declared
    rw [frame_modifyCurrent]
  · rw [size_declared] at inside
    rw [declared, ModuleTree.class?_insertClass inside]
    simp

end Class

theorem keyed_of_class? {id : ModuleId} {name : String} {c : ClassDeclaration} (outer : env.Outer)
    (found : env.declared.class? id name = some c) : c.methods.Keyed :=
  (outer.proper.classes id name c found).2

theorem Outer.addFunction? (outer : env.Outer)
    (host : (env.frame.isModule || env.frame.isClass) = true) {f : FunctionDefinition}
    (owner : f.owner = env.owner) (added : env.addFunction? f = some after) :
    after.titles = env.titles ∧
      env.declared.Declares after.declared
        (some (.function env.owner f.name f.paramTypes, f)) := by
  cases isClass : env.frame.isModule with
  | true =>
      have module : env.owner = .module env.currentModule := by
        unfold Environment.owner
        cases frame : env.frame <;> first | rfl | (rw [frame] at isClass; cases isClass)
      have declared := declared_of_isModule isClass
      have inside := outer.currentModule_lt
      unfold Environment.addFunction? at added
      rw [owner, module] at added
      obtain ⟨modules, grown, rfl⟩ := Option.map_eq_some_iff.mp added
      have declares := ModuleTree.declares_addFunction? outer.proper inside
        (by rw [declared]; exact grown)
      have declared' : ({ env with modules } : Environment).declared = modules :=
        declared_of_isModule isClass
      rw [module, declared']
      exact ⟨rfl, declares⟩
  | false =>
      rw [isClass, Bool.false_or] at host
      cases frame : env.frame with
      | «class» id c =>
          have inClass : env.owner = .inClass id c.name := by
            unfold Environment.owner
            rw [frame]
          unfold Environment.addFunction? at added
          rw [owner, inClass, class?_of_frame frame] at added
          simp only [Option.bind_eq_bind, Option.bind_eq_some_iff] at added
          obtain ⟨methods, grown, scopes, changed, same⟩ := added
          cases same
          rw [outer.modifyClass? frame] at changed
          cases changed
          obtain ⟨titles, declared, inside, found⟩ :=
            outer.updateClass frame { c with methods } rfl
          have keyed := keyed_of_class? outer found
          rw [inClass, declared]
          refine ⟨titles, ModuleTree.declares_insertClass outer.proper (keyed.add? grown) ?_ ?_⟩
          · intro o d same
            cases same
            simp [ModuleTree.definition?, found, FunctionTable.find?_eq_none_of_add? keyed grown]
          · refine ModuleTree.definition?_replaceClass inside found ?_ ?_ ?_
            · intro name types
              rw [FunctionTable.find?_add? keyed grown]
              simp [ModuleTree.afterAdding]
            · simp [ModuleTree.afterAdding]
            · intro o d same
              cases same
              exact .inl ⟨_, _, rfl⟩
      | _ => rw [frame] at host; cases host

theorem name_addMembers {e extended : EnumDeclaration} {names : List Token}
    {repeated : Option Token} (added : addMembers e names = (extended, repeated)) :
    extended.name = e.name := by
  induction names generalizing e with
  | nil => cases added; rfl
  | cons name names ih =>
      unfold addMembers at added
      split at added
      next grown found =>
        unfold EnumDeclaration.addMember? at found
        split at found
        next => cases found
        next =>
          cases found
          exact (ih added).trans rfl
      next => cases added; rfl

theorem Outer.updateEnum {id : ModuleId} {e new : EnumDeclaration} (outer : env.Outer)
    (frame : env.frame = .enum id e) (name : new.name = e.name) :
    ({ env with scopes := env.scopes.modifyCurrent ({ · with frame := .enum id new }) } :
        Environment).titles = env.titles ∧
      ({ env with scopes := env.scopes.modifyCurrent ({ · with frame := .enum id new }) } :
        Environment).declared = env.declared.insertEnum id new := by
  have kept := (title_frame outer.outside).1
  refine ⟨?_, ?_⟩
  · obtain ⟨below, titles, changed⟩ := env.titles_eq_current
    rw [changed, titles]
    unfold Environment.frame at frame
    simp [Scope.title, kept, frame, Frame.title]
  · have declared : env.declared = env.modules.insertEnum id e := by
      unfold Environment.declared
      rw [frame]
    rw [declared, ModuleTree.insertEnum_insertEnum name]
    unfold Environment.declared
    rw [frame_modifyCurrent]

-- Globals and fields are no functions.
theorem Outer.declareVariable? {placement : Placement} {v : Variable} {place : Token}
    (outer : env.Outer) (placed : env.placement place = .ok placement)
    (added : env.declareVariable? placement v = some after) :
    after.titles = env.titles ∧ env.declared.Declares after.declared none := by
  have outside := isBlock_of_outside outer.outside
  have global : env.frame.isModule = true → env.declareVariable? .global v = some after →
      after.titles = env.titles ∧ env.declared.Declares after.declared none := by
    intro isModule added
    unfold Environment.declareVariable? at added
    dsimp only at added
    split at added
    next => cases added
    next =>
      cases added
      have declares := ModuleTree.declares_insertVariable outer.proper env.currentModule v
      have declared' : ({ env with modules := env.modules.insertVariable env.currentModule v } :
          Environment).declared = env.modules.insertVariable env.currentModule v :=
        declared_of_isModule isModule
      rw [declared']
      rw [declared_of_isModule isModule] at declares ⊢
      exact ⟨rfl, declares⟩
  unfold Environment.placement at placed
  cases frame : env.frame with
  | module =>
      simp only [frame] at placed
      cases placed
      exact global (by rw [frame]; rfl) added
  | parent =>
      simp only [frame, Checked.bind_eq_ok] at placed
      obtain ⟨_, _, same⟩ := placed
      cases same
      exact global (by rw [frame]; rfl) added
  | «class» id c =>
      simp only [frame] at placed
      cases placed
      unfold Environment.declareVariable? at added
      dsimp only at added
      split at added
      next => cases added
      next =>
        rw [outer.modifyClass? frame] at added
        cases added
        obtain ⟨titles, declared, inside, found⟩ :=
          outer.updateClass frame { c with fields := c.fields.insert v.name v } rfl
        rw [declared]
        have keyed := keyed_of_class? outer found
        refine ⟨titles, ModuleTree.declares_insertClass outer.proper keyed (by simp) ?_⟩
        exact ModuleTree.definition?_replaceClass inside found (fun _ _ => rfl) rfl (by simp)
  | block => rw [frame] at outside; cases outside
  | enum => simp [frame] at placed

theorem isFree_class {m : Module} {name : String} (free : m.nameTaken name = false) :
    m.members.classes.find? name = none := by
  unfold Module.nameTaken SymbolTable.contains at free
  simp only [Bool.or_eq_false_iff, Option.isSome_eq_false_iff, Option.isNone_iff_eq_none] at free
  exact free.1.1.2

section Open

variable {name : Token} {n : Node}

theorem Outer.openModule {id : ModuleId} {modules : ModuleTree} (outer : env.Outer)
    (isModule : env.frame.isModule = true)
    (added : env.modules.addChild env.currentModule name.lexeme = (id, modules)) :
    (Environment.push { env with modules } (.module id) n).declared.child? env.currentModule
        name.lexeme = some id ∧
      env.declared.Declares (Environment.push { env with modules } (.module id) n).declared none := by
  have declared := declared_of_isModule isModule
  have inside := outer.currentModule_lt
  have proper := outer.proper
  rw [declared] at inside proper
  obtain ⟨declares, _⟩ := ModuleTree.declares_addChild proper inside name.lexeme
  have child := ModuleTree.child?_addChild inside name.lexeme env.currentModule name.lexeme
  rw [added] at declares child
  rw [if_pos ⟨rfl, rfl⟩] at child
  rw [declared]
  exact ⟨child, declares⟩

theorem Outer.openClass {c : ClassDeclaration} (outer : env.Outer)
    (isModule : env.frame.isModule = true)
    (free : (env.modules.get env.currentModule).nameTaken c.name = false)
    (methods : c.methods = .empty) (constructor : c.constructor = none) :
    let after := Environment.push
      { env with modules := env.modules.insertClass env.currentModule c }
      (.class env.currentModule c) n
    (after.declared.class? env.currentModule c.name).isSome = true ∧
      env.declared.Declares after.declared none := by
  have declared := declared_of_isModule isModule
  have inside := outer.currentModule_lt
  have proper := outer.proper
  rw [declared] at inside proper
  have after : Environment.declared
      (Environment.push { env with modules := env.modules.insertClass env.currentModule c }
        (.class env.currentModule c) n) = env.modules.insertClass env.currentModule c :=
    ModuleTree.insertClass_insertClass rfl _ _
  dsimp only
  rw [after, declared, ModuleTree.class?_insertClass inside]
  exact ⟨by simp, ModuleTree.declares_insertClass_fresh proper inside (isFree_class free) methods
    constructor⟩

theorem Outer.openEnum {e : EnumDeclaration} (outer : env.Outer)
    (isModule : env.frame.isModule = true) :
    let after := Environment.push
      { env with modules := env.modules.insertEnum env.currentModule e }
      (.enum env.currentModule e) n
    (after.declared.enum? env.currentModule e.name).isSome = true ∧
      env.declared.Declares after.declared none := by
  have declared := declared_of_isModule isModule
  have inside := outer.currentModule_lt
  have proper := outer.proper
  rw [declared] at inside proper
  have after : Environment.declared
      (Environment.push { env with modules := env.modules.insertEnum env.currentModule e }
        (.enum env.currentModule e) n) = env.modules.insertEnum env.currentModule e :=
    ModuleTree.insertEnum_insertEnum rfl _ _
  dsimp only
  rw [after, declared]
  refine ⟨?_, ModuleTree.declares_insertEnum proper _ e⟩
  unfold ModuleTree.insertEnum
  rw [ModuleTree.enum?_modifyMembers]
  simp [inside]

theorem Outer.addConstructor {id : ModuleId} {c : ClassDeclaration} {d : FunctionDefinition}
    (outer : env.Outer) (frame : env.frame = .class id c) (unset : c.constructor = none) :
    let after : Environment := { env with scopes := env.scopes.modifyCurrent ({ · with
      frame := .class id { c with constructor := some d } }) }
    after.titles = env.titles ∧
      env.declared.Declares after.declared (some (.constructor id c.name, d)) := by
  obtain ⟨titles, declared, within, found⟩ :=
    outer.updateClass frame { c with constructor := some d } rfl
  have keyed := keyed_of_class? outer found
  dsimp only
  rw [declared]
  refine ⟨titles, ModuleTree.declares_insertClass outer.proper keyed ?_ ?_⟩
  · intro o d' same
    cases same
    simp [ModuleTree.definition?, found, unset]
  · refine ModuleTree.definition?_replaceClass within found ?_ ?_ ?_
    · intro _ _
      simp [ModuleTree.afterAdding]
    · simp [ModuleTree.afterAdding]
    · intro o d' same
      cases same
      exact .inr rfl

end Open

end Environment

section Accepted

variable {env : Environment} {setting : Setting} {mods : LeadingModifiers} {head : Token}
  {tail : List Token} {accepted : Accepted}

theorem statementSort_of_variable {first : Token} {rest : List Token}
    (starts : startsVariable first = true) : statementSort first rest = .other := by
  unfold statementSort
  unfold startsVariable at starts
  split <;> simp_all [TokenKind.isDatatype]

-- The first pass declares, and opens nothing but modules, classes and enums.
theorem Accepts.declaring (accepts : Accepts env setting mods head tail accepted)
    (pass : setting.declaring = true) (outer : env.Outer) :
    env.Declaring mods head tail accepted.environment (statementSort head tail) := by
  have outside := Environment.isBlock_of_outside outer.outside
  have building : ¬setting.declaring = false := by simp [pass]
  have bare : ¬env.frame.isBlock = true := by simp [outside]
  cases accepts with
  | moduleDeclared kind titled isModule _ added =>
      have sort : statementSort head tail = .module := by simp [statementSort, kind]
      obtain ⟨child, declares⟩ := outer.openModule isModule added
      rw [sort]
      exact .module titled isModule rfl child declares
  | @classDeclared name c kind titled isModule _ free fresh =>
      have sort : statementSort head tail = .class := by simp [statementSort, kind]
      have named : c.name = name.lexeme := by rw [fresh]
      rw [← named] at free
      obtain ⟨found, declares⟩ :=
        outer.openClass isModule free (by rw [fresh]) (by rw [fresh])
      rw [named] at found
      rw [sort]
      refine .class titled isModule ?_ found declares
      rw [Environment.titles_push, Frame.title, named]
      rfl
  | @enumDeclared name e kind titled isModule _ _ fresh =>
      have sort : statementSort head tail = .enum := by simp [statementSort, kind]
      have named : e.name = name.lexeme := by rw [fresh]
      obtain ⟨found, declares⟩ := outer.openEnum isModule
      rw [named] at found
      rw [sort]
      exact .enum titled isModule rfl found declares
  | membersDeclared kind ends frame _ added =>
      obtain ⟨titles, declared⟩ := outer.updateEnum frame (Environment.name_addMembers added)
      have sort : statementSort head tail = .other := by simp [statementSort, kind]
      rw [sort]
      refine .other ends titles ?_
      rw [declared]
      exact ModuleTree.declares_insertEnum outer.proper _ _
  | @functionDeclared h declared kind ends host _ read bodied added =>
      obtain ⟨titles, declares⟩ := outer.addFunction? host rfl added
      rw [statementSort_body kind ends]
      exact .body (.function kind read bodied) ends rfl rfl rfl titles declares
  | nativeDeclared kind ends host _ _ added =>
      obtain ⟨titles, declares⟩ := outer.addFunction? host rfl added
      rw [statementSort_native kind ends]
      exact .native rfl ends titles declares
  | @constructorDeclared id c h _ kind ends frame _ _ _ list none =>
      have sort : statementSort head tail = .body := by simp [statementSort, kind]
      have types : (constructorDefinition id c mods h).paramTypes =
          h.parameters.map (·.parameter.type) := by
        simp [constructorDefinition, FunctionDefinition.paramTypes, Header.params]
      obtain ⟨titles, declares⟩ := outer.addConstructor frame none
      rw [sort]
      exact .body (.constructor kind frame list) ends rfl types rfl titles declares
  | libraryEnded kind ends =>
      have sort : statementSort head tail = .other := by simp [statementSort, kind]
      rw [sort]
      exact .other ends rfl (ModuleTree.declares_refl outer.proper)
  | variableDefined starts ends placed _ defines =>
      obtain ⟨_, _, _, added⟩ := defines
      obtain ⟨titles, declares⟩ := outer.declareVariable? placed added
      rw [statementSort_of_variable starts]
      exact .other ends titles declares
  | moduleEntered _ _ _ entering => exact absurd entering building
  | classEntered _ _ _ entering => exact absurd entering building
  | classMissing _ _ _ entering => exact absurd entering building
  | enumEntered _ _ _ entering => exact absurd entering building
  | enumMissing _ _ _ entering => exact absurd entering building
  | membersKept _ _ _ entering => exact absurd entering building
  | functionOpened _ _ _ entering => exact absurd entering building
  | nativeKept _ _ _ entering => exact absurd entering building
  | constructorOpened _ _ _ entering => exact absurd entering building
  | variableKept _ _ _ entering => exact absurd entering building
  | conditional _ _ block => exact absurd block bare
  | doLoop _ _ block => exact absurd block bare
  | forLoop _ _ block => exact absurd block bare
  | returned _ _ block => exact absurd block bare
  | exited _ _ block => exact absurd block bare
  | used _ _ block => exact absurd block bare
  | called _ _ block => exact absurd block bare
  | assigned _ _ block => exact absurd block bare

end Accepted

/-- What a statement outside of bodies does in the second pass. -/
inductive Environment.Entering (env : Environment) (mods : LeadingModifiers) (head : Token)
    (tail : List Token) (after : Environment) : StatementSort → Prop
  | module {name : Token} {id : ModuleId} :
      Titled tail name → env.modules.child? env.currentModule name.lexeme = some id →
      after.titles = .module id :: env.titles → after.modules = env.modules →
      Entering env mods head tail after .module
  | «class» {name : Token} {c : ClassDeclaration} :
      Titled tail name → env.modules.class? env.currentModule name.lexeme = some c →
      after.titles = .class env.currentModule c.name :: env.titles → after.modules = env.modules →
      Entering env mods head tail after .class
  | classMissing {name : Token} :
      Titled tail name → env.modules.class? env.currentModule name.lexeme = none →
      Entering env mods head tail after .class
  | enum {name : Token} :
      Titled tail name → after.titles = .enum env.currentModule :: env.titles →
      after.modules = env.modules → Entering env mods head tail after .enum
  | enumMissing {name : Token} :
      Titled tail name → env.modules.enum? env.currentModule name.lexeme = none →
      Entering env mods head tail after .enum
  | body {owner : BodyOwner} {sig : Signature} {parameters : List FunctionParameter}
      {place : Token} {n : Node} :
      env.Heads mods head tail owner sig → n.Records owner sig →
      after = env.openBody sig.returnType owner parameters place n →
      Entering env mods head tail after .body
  | native :
      Ends head tail .semicolon → after.titles = env.titles → after.modules = env.modules →
      Entering env mods head tail after .native
  | other :
      Ends head tail .semicolon → after.titles = env.titles → after.modules = env.modules →
      Entering env mods head tail after .other

variable {env : Environment} {setting : Setting} {mods : LeadingModifiers} {head : Token}
  {tail : List Token} {accepted : Accepted}

theorem modules_append (env : Environment) (setting : Setting) (n : Node) :
    (env.append setting n).modules = env.modules := by
  unfold Environment.append
  split <;> rfl

theorem Accepted.settled_kept (accepted : Accepted) (setting : Setting) :
    (accepted.settled setting).titles = accepted.environment.titles ∧
      (accepted.settled setting).modules = accepted.environment.modules := by
  unfold Accepted.settled
  split
  next n _ => exact ⟨Environment.titles_append _ _ _, modules_append _ _ _⟩
  next => exact ⟨rfl, rfl⟩

-- The second pass finds what the first one has declared, and opens bodies.
theorem Accepts.entering (accepts : Accepts env setting mods head tail accepted)
    (pass : setting.declaring = false) (outside : Title.Outside env.titles) :
    env.Entering mods head tail (accepted.settled setting) (statementSort head tail) := by
  have frame' := Environment.isBlock_of_outside outside
  have declaring : ¬setting.declaring = true := by simp [pass]
  have bare : ¬env.frame.isBlock = true := by simp [frame']
  have stays : ∀ {node : Option Node},
      ((⟨env, node⟩ : Accepted).settled setting).titles = env.titles ∧
        ((⟨env, node⟩ : Accepted).settled setting).modules = env.modules :=
    fun {node} => (⟨env, node⟩ : Accepted).settled_kept setting
  cases accepts with
  | moduleEntered kind titled _ _ child =>
      have sort : statementSort head tail = .module := by simp [statementSort, kind]
      rw [sort]
      exact .module titled child rfl rfl
  | classEntered kind titled _ _ found =>
      have sort : statementSort head tail = .class := by simp [statementSort, kind]
      rw [sort]
      exact .class titled found rfl rfl
  | classMissing kind titled _ _ missing =>
      have sort : statementSort head tail = .class := by simp [statementSort, kind]
      rw [sort]
      exact .classMissing titled missing
  | enumEntered kind titled =>
      have sort : statementSort head tail = .enum := by simp [statementSort, kind]
      rw [sort]
      exact .enum titled rfl rfl
  | enumMissing kind titled _ _ missing =>
      have sort : statementSort head tail = .enum := by simp [statementSort, kind]
      rw [sort]
      exact .enumMissing titled missing
  | membersKept kind ends =>
      have sort : statementSort head tail = .other := by simp [statementSort, kind]
      rw [sort]
      exact .other ends stays.1 stays.2
  | @functionOpened h kind ends _ _ read bodied =>
      rw [statementSort_body kind ends]
      exact .body (.function kind read bodied)
        (h.parts_records (Header.read_eq_ok read).2.1 mods _ _ _ _) rfl
  | nativeKept kind ends =>
      rw [statementSort_native kind ends]
      exact .native ends stays.1 stays.2
  | @constructorOpened id c h _ kind _ frame _ _ _ list =>
      have sort : statementSort head tail = .body := by simp [statementSort, kind]
      rw [sort]
      exact .body (.constructor kind frame list)
        (constructorParts_records (Parameter.readList_shown list).1 mods _ id c.name) rfl
  | libraryEnded kind ends =>
      have sort : statementSort head tail = .other := by simp [statementSort, kind]
      rw [sort]
      have kept := (⟨{ env with inLibrary := false }, some (.leaf .stdlibFinish head)⟩ :
        Accepted).settled_kept setting
      exact .other ends kept.1 kept.2
  | variableKept starts ends =>
      rw [statementSort_of_variable starts]
      exact .other ends stays.1 stays.2
  | @variableDefined placement place _ _ starts ends placed inBlock =>
      rcases inBlock with pass | rfl
      · exact absurd pass declaring
      · unfold Environment.placement at placed
        cases frame : env.frame with
        | block => rw [frame] at frame'; cases frame'
        | parent =>
            simp only [frame, Checked.bind_eq_ok] at placed
            obtain ⟨_, _, same⟩ := placed
            cases same
        | _ => simp [frame] at placed
  | moduleDeclared _ _ _ pass => exact absurd pass declaring
  | classDeclared _ _ _ pass => exact absurd pass declaring
  | enumDeclared _ _ _ pass => exact absurd pass declaring
  | membersDeclared _ _ _ pass => exact absurd pass declaring
  | functionDeclared _ _ _ pass => exact absurd pass declaring
  | nativeDeclared _ _ _ pass => exact absurd pass declaring
  | constructorDeclared _ _ _ pass => exact absurd pass declaring
  | conditional _ _ block => exact absurd block bare
  | doLoop _ _ block => exact absurd block bare
  | forLoop _ _ block => exact absurd block bare
  | returned _ _ block => exact absurd block bare
  | exited _ _ block => exact absurd block bare
  | used _ _ block => exact absurd block bare
  | called _ _ block => exact absurd block bare
  | assigned _ _ block => exact absurd block bare

end MiLanguage
