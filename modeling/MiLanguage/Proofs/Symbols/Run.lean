import MiLanguage.Proofs.Analysis.Shifts
import MiLanguage.Proofs.Statement.Accepts
import MiLanguage.Proofs.Symbols.WellFormed

set_option autoImplicit false

namespace MiLanguage

/-- The new scope is in the module of the old one, and as well formed. -/
structure Scope.Keeps (old new : Scope) : Prop where
  home : new.frame.moduleId? = old.frame.moduleId?
  frame : ∀ home, old.frame.WellFormed home → new.frame.WellFormed home

theorem Scope.keeps_refl (s : Scope) : s.Keeps s := ⟨rfl, fun _ wellFormed => wellFormed⟩

theorem homeOf_keeps {old new : List Scope} (keeps : List.Forall₂ Scope.Keeps old new) :
    homeOf new = homeOf old := by
  unfold homeOf
  congr 1
  induction keeps with
  | nil => rfl
  | cons head _ ih => simp only [List.findSome?_cons, head.home, ih]

theorem ScopesWellFormed.keeps {old new : List Scope} (wellFormed : ScopesWellFormed old)
    (keeps : List.Forall₂ Scope.Keeps old new) : ScopesWellFormed new := by
  induction keeps with
  | nil => trivial
  | cons head tail ih =>
      refine ⟨?_, ih wellFormed.2⟩
      rw [homeOf_keeps (.cons head tail)]
      exact head.frame _ wellFormed.1

namespace ScopeStack

variable {s t : ScopeStack}

theorem currentModule_eq (s : ScopeStack) : s.currentModule = homeOf s.all := rfl

theorem wellFormed_modifyCurrent {f : Scope → Scope} (wellFormed : ScopesWellFormed s.all)
    (home : (f s.current).frame.moduleId? = s.current.frame.moduleId?)
    (frame : (f s.current).frame.WellFormed s.currentModule) :
    ScopesWellFormed (s.modifyCurrent f).all := by
  rw [currentModule_eq] at frame
  obtain ⟨outer, all, modified⟩ := s.all_eq_current
  rw [all] at wellFormed frame
  rw [modified]
  refine ⟨?_, wellFormed.2⟩
  have same : homeOf (f s.current :: outer) = homeOf (s.current :: outer) := by
    simp [homeOf, List.findSome?_cons, home]
  rw [same]
  exact frame

theorem wellFormed_current (wellFormed : ScopesWellFormed s.all) :
    s.current.frame.WellFormed s.currentModule := by
  rw [currentModule_eq]
  obtain ⟨outer, all, _⟩ := s.all_eq_current
  rw [all] at wellFormed ⊢
  exact wellFormed.1

theorem wellFormed_modifyCurrentBlock {f : Block → Block} (wellFormed : ScopesWellFormed s.all)
    (locals : ∀ b : Block, b.locals.Each (fun name l => l.declaration.WellFormed s.currentModule name) →
      (f b).locals.Each fun name l => l.declaration.WellFormed s.currentModule name) :
    ScopesWellFormed (s.modifyCurrentBlock f).all := by
  have current := wellFormed_current wellFormed
  refine wellFormed_modifyCurrent wellFormed ?_ ?_
  all_goals cases frame : s.current.frame with
    | block kind b =>
      rw [frame] at current
      first | rfl | exact locals b current
    | _ => rw [frame] at current; first | rfl | exact current

theorem wellFormed_modifyInnermost {f : Scope → Option Scope} (wellFormed : ScopesWellFormed s.all)
    (each : ∀ a b, f a = some b → a.Keeps b) (changed : s.modifyInnermost f = some t) :
    ScopesWellFormed t.all := by
  obtain ⟨opened, found, rfl⟩ := Option.map_eq_some_iff.mp changed
  exact wellFormed.keeps (List.rel_append (modifyFirst_related Scope.keeps_refl each found)
    (.cons s.base.keeps_refl .nil))

theorem wellFormed_modifyLocal (wellFormed : ScopesWellFormed s.all) (name : String) :
    ScopesWellFormed (s.modifyLocal name fun l =>
      { l with declaration := { l.declaration with initialized := true } }).all := by
  unfold modifyLocal
  split
  next => exact wellFormed
  next =>
    generalize changed : s.modifyInnermost _ = found
    cases found with
    | none => exact wellFormed
    | some t =>
        refine wellFormed_modifyInnermost wellFormed ?_ changed
        intro a b same
        split at same
        next kind block frame =>
          split at same
          next =>
            cases same
            refine ⟨by rw [frame]; rfl, fun home locals => ?_⟩
            rw [frame] at locals
            exact SymbolTable.Each.modify locals fun _ fits => fits.initialized
          next => cases same
        next => cases same

theorem wellFormed_modifyClass? {f : ClassDeclaration → ClassDeclaration}
    (wellFormed : ScopesWellFormed s.all)
    (keeps : ∀ id c, c.WellFormed id c.name → (f c).WellFormed id (f c).name)
    (changed : s.modifyClass? f = some t) : ScopesWellFormed t.all := by
  refine wellFormed_modifyInnermost wellFormed ?_ changed
  intro a b same
  split at same
  next id c frame =>
    cases same
    refine ⟨by rw [frame]; rfl, fun home fits => ?_⟩
    rw [frame] at fits
    exact keeps id c fits
  next => cases same

theorem wellFormed_addUse? {id : ModuleId} (wellFormed : ScopesWellFormed s.all)
    (added : s.addUse? id = some t) : ScopesWellFormed t.all := by
  refine wellFormed_modifyInnermost wellFormed ?_ added
  intro a b same
  split at same
  next block frame =>
    cases same
    refine ⟨by rw [frame]; rfl, fun home locals => ?_⟩
    rw [frame] at locals
    exact locals
  next => cases same

theorem wellFormed_declareLocal? {v : Variable} (wellFormed : ScopesWellFormed s.all)
    (fits : v.WellFormed s.currentModule v.name) (declared : s.declareLocal? v = some t) :
    ScopesWellFormed t.all := by
  unfold declareLocal? at declared
  split at declared
  next => cases declared
  next =>
    cases declared
    exact wellFormed_modifyCurrentBlock wellFormed fun _ locals => locals.insert fits

theorem wellFormed_pop? {scope : Scope} {scopes : ScopeStack} (wellFormed : ScopesWellFormed s.all)
    (popped : s.pop? = some (scope, scopes)) :
    scope.frame.WellFormed s.currentModule ∧ ScopesWellFormed scopes.all := by
  rw [currentModule_eq]
  rw [all_of_pop? popped] at wellFormed ⊢
  exact wellFormed

end ScopeStack

namespace Environment

variable {env declared after : Environment} {placement : Placement} {v : Variable} {node : Node}
  {implied : Bool} {setting : Setting} {frame : Frame}

theorem WellFormed.push (wellFormed : env.WellFormed) (node : Node)
    (fits : ∀ home, frame.WellFormed home) : (env.push frame node).WellFormed :=
  ⟨wellFormed.modules, fits _, wellFormed.scopes⟩

theorem WellFormed.pushBlock (wellFormed : env.WellFormed) (kind : BlockKind) (b : Block)
    (locals : b.locals = .empty) (node : Node) : (env.push (.block kind b) node).WellFormed := by
  refine wellFormed.push node fun home => ?_
  show b.locals.Each _
  rw [locals]
  exact SymbolTable.each_empty _

theorem WellFormed.append (wellFormed : env.WellFormed) (setting : Setting) (node : Node) :
    (env.append setting node).WellFormed := by
  unfold Environment.append
  split
  next => exact wellFormed
  next =>
    exact ⟨wellFormed.modules, ScopeStack.wellFormed_modifyCurrent wellFormed.scopes rfl
      (ScopeStack.wellFormed_current wellFormed.scopes)⟩

theorem WellFormed.modifyBlock (wellFormed : env.WellFormed) {f : Block → Block}
    (locals : ∀ b, (f b).locals = b.locals) : (env.modifyBlock f).WellFormed :=
  ⟨wellFormed.modules, ScopeStack.wellFormed_modifyCurrentBlock wellFormed.scopes fun b fits => by
    rw [locals]; exact fits⟩

theorem WellFormed.markInitialized (wellFormed : env.WellFormed) (v : ResolvedVariable) :
    (env.markInitialized v).WellFormed := by
  refine ⟨wellFormed.modules.updated (env.updated_markInitialized v).modules, ?_⟩
  unfold Environment.markInitialized
  split
  next => exact ScopeStack.wellFormed_modifyLocal wellFormed.scopes v.name
  next => exact wellFormed.scopes
  next =>
    dsimp only
    generalize changed : env.scopes.modifyClass? _ = found
    cases found with
    | none => exact wellFormed.scopes
    | some scopes =>
        refine ScopeStack.wellFormed_modifyClass? wellFormed.scopes ?_ changed
        exact fun id c fits => ⟨fits.named, fits.plain, fits.origin,
          fits.fields.modify fun _ v => v.initialized, fits.methods, fits.constructor⟩

theorem WellFormed.use (wellFormed : env.WellFormed) (id : ModuleId) :
    Environment.WellFormed { env with scopes := (env.scopes.addUse? id).getD env.scopes } := by
  refine ⟨wellFormed.modules, ?_⟩
  cases added : env.scopes.addUse? id with
  | none => exact wellFormed.scopes
  | some scopes => exact ScopeStack.wellFormed_addUse? wellFormed.scopes added

theorem WellFormed.openClass {id : ModuleId} {c : ClassDeclaration} (wellFormed : env.WellFormed)
    (frame : env.frame = .class id c) : c.WellFormed id c.name ∧ env.currentModule = id := by
  have current := ScopeStack.wellFormed_current wellFormed.scopes
  have home : env.scopes.currentModule = id := by
    obtain ⟨outer, all, _⟩ := env.scopes.all_eq_current
    unfold Environment.frame at frame
    simp [ScopeStack.currentModule, all, frame, Frame.moduleId?]
  unfold Environment.frame at frame
  rw [frame] at current
  exact ⟨current, home⟩

theorem WellFormed.openEnum {id : ModuleId} {e : EnumDeclaration} (wellFormed : env.WellFormed)
    (frame : env.frame = .enum id e) : e.WellFormed id e.name := by
  have current := ScopeStack.wellFormed_current wellFormed.scopes
  unfold Environment.frame at frame
  rw [frame] at current
  exact current

theorem WellFormed.replaceClass {id : ModuleId} {c new : ClassDeclaration}
    (wellFormed : env.WellFormed) (frame : env.frame = .class id c) (fits : new.WellFormed id new.name) :
    Environment.WellFormed
      { env with scopes := env.scopes.modifyCurrent ({ · with frame := .class id new }) } := by
  unfold Environment.frame at frame
  exact ⟨wellFormed.modules, ScopeStack.wellFormed_modifyCurrent wellFormed.scopes
    (by rw [frame]; rfl) fits⟩

theorem WellFormed.replaceEnum {id : ModuleId} {e new : EnumDeclaration}
    (wellFormed : env.WellFormed) (frame : env.frame = .enum id e) (fits : new.WellFormed id new.name) :
    Environment.WellFormed
      { env with scopes := env.scopes.modifyCurrent ({ · with frame := .enum id new }) } := by
  unfold Environment.frame at frame
  exact ⟨wellFormed.modules, ScopeStack.wellFormed_modifyCurrent wellFormed.scopes
    (by rw [frame]; rfl) fits⟩

end Environment

theorem Header.Introduced.returns {env : Environment} {h : Header} (introduced : h.Introduced env) :
    h.returnType.isNull = false := by
  rcases introduced.returnType with void | ⟨place, spells⟩
  · rw [void]
    rfl
  · exact spells.notNull

theorem wellFormed_of_introduced {env : Environment} {parameters : List ReadParameter}
    (introduced : ∀ p ∈ parameters, p.Introduced env) :
    ∀ p ∈ parameters.map ReadParameter.parameter, p.WellFormed := by
  intro p member
  obtain ⟨q, inside, rfl⟩ := List.mem_map.mp member
  exact ⟨(introduced q inside).plain, (introduced q inside).stored⟩

theorem distinct_of_introduced {parameters : List ReadParameter}
    (distinct : (parameters.map (·.parameter.name)).Nodup) :
    ((parameters.map ReadParameter.parameter).map FunctionParameter.name).Nodup := by
  rw [List.map_map]
  exact distinct

namespace Environment

variable {env declared after : Environment} {placement : Placement} {v : Variable} {node : Node}
  {implied : Bool} {setting : Setting} {mods : LeadingModifiers}

theorem Introduces.wellFormed {typeToken name : Token}
    (introduces : env.Introduces typeToken name mods v) (kind : typeToken.kind ≠ .datatype .void) :
    v.WellFormed env.currentModule v.name :=
  ⟨rfl, introduces.plain, by rw [introduces.origin]; rfl, introduces.stored kind⟩

theorem WellFormed.definesLocal (wellFormed : env.WellFormed)
    (defines : env.Defines .inBlock declared node) : declared.WellFormed := by
  obtain ⟨typeToken, mods, introduces, added, kind⟩ := defines
  obtain ⟨scopes, found, rfl⟩ := Option.map_eq_some_iff.mp added
  exact ⟨wellFormed.modules, ScopeStack.wellFormed_declareLocal? wellFormed.scopes
    (introduces.wellFormed kind) found⟩

theorem WellFormed.modifyOpenClass {id : ModuleId} {c : ClassDeclaration}
    {f : ClassDeclaration → ClassDeclaration} {scopes : ScopeStack} (wellFormed : env.WellFormed)
    (frame : env.frame = .class id c) (fits : (f c).WellFormed id (f c).name)
    (changed : env.scopes.modifyClass? f = some scopes) :
    Environment.WellFormed { env with scopes } := by
  have deep : env.scopes.opened ≠ [] := by
    intro classless
    simp [ScopeStack.modifyClass?, ScopeStack.modifyInnermost, ScopeStack.modifyFirst, classless] at changed
  rw [modifyClass?_of_frame frame deep] at changed
  cases changed
  exact wellFormed.replaceClass frame fits

theorem class_of_placement {place : Token} (found : env.placement place = .ok .field) :
    ∃ id c, env.frame = .class id c := by
  unfold Environment.placement at found
  split at found
  next => cases found
  next => simp at found
  next id c frame => exact ⟨id, c, frame⟩
  next => cases found
  next => simp at found

theorem WellFormed.defines {place : Token} (wellFormed : env.WellFormed)
    (found : env.placement place = .ok placement) (defines : env.Defines placement declared node) :
    declared.WellFormed := by
  cases placement with
  | inBlock => exact wellFormed.definesLocal defines
  | global =>
      obtain ⟨typeToken, mods, introduces, added, kind⟩ := defines
      simp only [declareVariable?] at added
      split at added
      next => cases added
      next =>
        cases added
        exact ⟨wellFormed.modules.insertVariable (introduces.wellFormed kind), wellFormed.scopes⟩
  | field =>
      obtain ⟨typeToken, mods, introduces, added, kind⟩ := defines
      obtain ⟨id, c, frame⟩ := class_of_placement found
      obtain ⟨fits, home⟩ := wellFormed.openClass frame
      simp only [declareVariable?] at added
      split at added
      next => cases added
      next =>
        obtain ⟨scopes, changed, rfl⟩ := Option.map_eq_some_iff.mp added
        have field := introduces.wellFormed kind
        rw [home] at field
        exact wellFormed.modifyOpenClass frame ⟨fits.named, fits.plain, fits.origin,
          fits.fields.insert field, fits.methods, fits.constructor⟩ changed

theorem WellFormed.assigns (wellFormed : env.WellFormed)
    (assigns : env.Assigns implied after node) : after.WellFormed := by
  obtain ⟨_, _, _, _, _, _, _⟩ := assigns
  exact wellFormed.markInitialized _

theorem WellFormed.advances (wellFormed : env.WellFormed)
    (advances : env.Advances implied after node) : after.WellFormed := by
  cases advances with
  | assigns assigns => exact wellFormed.assigns assigns
  | calls => exact wellFormed

theorem wellFormed_definition {h : Header} (introduced : h.Introduced env) (body : FunctionBody) :
    (env.definition mods h body).WellFormed env.owner :=
  ⟨introduced.plain, rfl, introduced.returns, wellFormed_of_introduced introduced.parameters,
    distinct_of_introduced introduced.distinct⟩

theorem WellFormed.addFunction? {f : FunctionDefinition} (wellFormed : env.WellFormed)
    (host : (env.frame.isModule || env.frame.isClass) = true) (fits : f.WellFormed env.owner)
    (added : env.addFunction? f = some declared) : declared.WellFormed := by
  have inModule : env.owner = .module env.currentModule → declared.WellFormed := by
    intro owner
    simp only [Environment.addFunction?, fits.owned, owner] at added
    rw [owner] at fits
    obtain ⟨modules, grown, rfl⟩ := Option.map_eq_some_iff.mp added
    exact ⟨wellFormed.modules.addFunction? fits grown, wellFormed.scopes⟩
  cases frame : env.frame with
  | parent | module => exact inModule (by simp only [owner, frame])
  | «class» id c =>
      have owner : env.owner = .inClass id c.name := by simp only [owner, frame]
      obtain ⟨here, _⟩ := wellFormed.openClass frame
      simp only [Environment.addFunction?, fits.owned, owner, class?_of_frame frame] at added
      rw [owner] at fits
      obtain ⟨methods, grown, added⟩ := Option.bind_eq_some_iff.mp added
      obtain ⟨scopes, changed, same⟩ := Option.bind_eq_some_iff.mp added
      cases same
      exact wellFormed.modifyOpenClass frame ⟨here.named, here.plain, here.origin, here.fields,
        here.methods.add? fits grown, here.constructor⟩ changed
  | enum | block => simp [frame, Frame.isModule, Frame.isClass, Frame.class?] at host

-- The parameters of a function are variables of its body.
theorem WellFormed.openBody {parameters : List FunctionParameter} (wellFormed : env.WellFormed)
    (fits : ∀ p ∈ parameters, p.WellFormed) (type : Datatype) (owner : BodyOwner) (place : Token)
    (node : Node) : (env.openBody type owner parameters place node).WellFormed := by
  simp only [Environment.openBody]
  have opened := wellFormed.pushBlock .function { Block.function type with bodyOf := some owner } rfl node
  generalize env.push _ node = env at opened
  induction parameters generalizing env with
  | nil => exact opened
  | cons p parameters ih =>
      obtain ⟨here, later⟩ := List.forall_mem_cons.mp fits
      refine ih later _ ⟨opened.modules, ?_⟩
      dsimp only
      generalize declared : env.scopes.declareLocal? _ = found
      cases found with
      | none => exact opened.scopes
      | some scopes =>
          exact ScopeStack.wellFormed_declareLocal? opened.scopes
            ⟨rfl, here.plain, rfl, here.stored⟩ declared

theorem WellFormed.accepts {first : Token} {rest : List Token} {accepted : Accepted}
    (wellFormed : env.WellFormed) (accepts : Accepts env setting mods first rest accepted) :
    accepted.environment.WellFormed := by
  cases accepts with
  | moduleDeclared _ titled _ _ added =>
      obtain ⟨_, _, _, plain⟩ := titled
      have grown := wellFormed.modules.addChild env.currentModule plain
      rw [added] at grown
      have opened : Environment.WellFormed { env with modules := _ } := ⟨grown, wellFormed.scopes⟩
      exact opened.push _ fun _ => trivial
  | moduleEntered => exact wellFormed.push _ fun _ => trivial
  | @classDeclared name c _ titled _ _ _ fresh =>
      obtain ⟨_, _, _, plain⟩ := titled
      have fits : c.WellFormed env.currentModule c.name := by
        rw [fresh]
        exact ⟨rfl, plain, rfl, SymbolTable.each_empty _, FunctionTable.wellFormed_empty _, by simp⟩
      have opened : Environment.WellFormed
          { env with modules := env.modules.insertClass env.currentModule c } :=
        ⟨wellFormed.modules.insertClass fits, wellFormed.scopes⟩
      exact opened.push _ fun _ => fits
  | classEntered _ _ _ _ found =>
      have fits := (wellFormed.modules.members env.currentModule).classes _ _ found
      exact wellFormed.push _ fun _ => fits.own
  | classMissing => exact wellFormed
  | @enumDeclared name e _ titled _ _ _ fresh =>
      obtain ⟨_, _, _, plain⟩ := titled
      have fits : e.WellFormed env.currentModule e.name := by
        rw [fresh]
        exact ⟨rfl, plain, rfl, by simp, by simp⟩
      have opened : Environment.WellFormed
          { env with modules := env.modules.insertEnum env.currentModule e } :=
        ⟨wellFormed.modules.insertEnum fits, wellFormed.scopes⟩
      exact opened.push _ fun _ => fits
  | enumEntered _ _ _ _ found =>
      have fits := (wellFormed.modules.members env.currentModule).enums _ _ found
      exact wellFormed.push _ fun _ => fits.own
  | enumMissing => exact wellFormed
  | membersDeclared _ _ frame _ added plain =>
      exact wellFormed.replaceEnum frame ((wellFormed.openEnum frame).addMembers plain added).own
  | membersKept => exact wellFormed
  | functionDeclared _ _ host _ header _ added | nativeDeclared _ _ host _ header added =>
      exact wellFormed.addFunction? host (wellFormed_definition (Header.read_introduced header) _) added
  | functionOpened _ _ _ _ header =>
      exact wellFormed.openBody
        (wellFormed_of_introduced (Header.read_introduced header).parameters) _ _ _ _
  | nativeKept => exact wellFormed
  | constructorDeclared _ _ frame _ _ _ list =>
      obtain ⟨⟨introduced, distinct⟩, _⟩ := Parameter.readList_introduced list
      obtain ⟨here, _⟩ := wellFormed.openClass frame
      refine wellFormed.replaceClass frame ⟨here.named, here.plain, here.origin, here.fields,
        here.methods, ?_⟩
      intro f same
      cases same
      have plain : isDotted "new" = false := by decide
      exact ⟨rfl, plain, rfl, rfl, wellFormed_of_introduced introduced,
        distinct_of_introduced distinct⟩
  | constructorOpened _ _ _ _ _ _ list =>
      obtain ⟨⟨introduced, _⟩, _⟩ := Parameter.readList_introduced list
      exact wellFormed.openBody (wellFormed_of_introduced introduced) _ _ _ _
  | conditional => exact wellFormed.pushBlock _ {} rfl _
  | doLoop => exact wellFormed.pushBlock _ {} rfl _
  | forLoop _ _ _ defines _ advances =>
      have stepped := ((wellFormed.pushBlock _ {} rfl _).definesLocal defines).advances advances
      exact WellFormed.pushBlock (((stepped.append _ _).append _ _).append _ _) _ {} rfl _
  | returned => exact wellFormed.modifyBlock fun _ => rfl
  | exited => exact wellFormed.modifyBlock fun _ => rfl
  | used => exact wellFormed.use _
  | libraryEnded => exact ⟨wellFormed.modules, wellFormed.scopes⟩
  | variableDefined _ _ place _ defines => exact wellFormed.defines place defines
  | variableKept => exact wellFormed
  | called => exact wellFormed
  | assigned _ _ _ assigns => exact wellFormed.assigns assigns

-- A scope that stands in for one that was rejected declares nothing.
theorem wellFormed_recoveryFrame (env : Environment) (head : Token) (home : ModuleId) :
    (AnalysisState.recoveryFrame env head).WellFormed home := by
  have block : ∀ kind, (Frame.block kind {}).WellFormed home := fun _ => SymbolTable.each_empty _
  unfold AnalysisState.recoveryFrame
  split
  all_goals try exact block _
  split
  next => exact block _
  next => trivial

theorem WellFormed.shifts (wellFormed : env.WellFormed) (shifts : env.Shifts setting after) :
    after.WellFormed := by
  cases shifts with
  | reads first rest =>
      generalize read : env.statement setting first rest = outcome
      obtain ⟨after, result⟩ := outcome
      cases result with
      | ok =>
          obtain ⟨mods, head, tail, _, accepts⟩ := statement_accepts read
          exact wellFormed.accepts accepts
      | error =>
          rcases statement_rejects_members read with rfl | ⟨_, id, e, extended, frame, added, rfl⟩
          · exact wellFormed
          · obtain ⟨names, repeated, added, plain⟩ := added
            exact wellFormed.replaceEnum frame ((wellFormed.openEnum frame).addMembers plain added).own
  | warns => exact wellFormed.modifyBlock fun _ => rfl
  | appends node => exact wellFormed.append setting node
  | recovers head node =>
      exact ⟨wellFormed.modules, wellFormed_recoveryFrame env head _, wellFormed.scopes⟩
  | drops popped =>
      exact ⟨wellFormed.modules, (ScopeStack.wellFormed_pop? wellFormed.scopes popped).2⟩
  | closesClass popped frame =>
      obtain ⟨fits, scopes⟩ := ScopeStack.wellFormed_pop? wellFormed.scopes popped
      rw [frame] at fits
      exact ⟨wellFormed.modules.insertClass fits, scopes⟩
  | closesEnum popped frame =>
      obtain ⟨fits, scopes⟩ := ScopeStack.wellFormed_pop? wellFormed.scopes popped
      rw [frame] at fits
      exact ⟨wellFormed.modules.insertEnum fits, scopes⟩
  | closesBody popped =>
      exact ⟨wellFormed.modules.attachBody _ _, (ScopeStack.wellFormed_pop? wellFormed.scopes popped).2⟩

end Environment

namespace Analysis

theorem startPass_wellFormed (setting : Setting) {modules : ModuleTree}
    (wellFormed : modules.WellFormed) (log : DiagnosticLog) (tokens : List Token) :
    (startPass setting modules log tokens).environment.WellFormed :=
  ⟨wellFormed, trivial, trivial⟩

theorem runPass_wellFormed (setting : Setting) {modules : ModuleTree}
    (wellFormed : modules.WellFormed) (log : DiagnosticLog) (tokens : List Token) :
    (runPass setting modules log tokens).environment.WellFormed :=
  (runPass_evolves setting modules log tokens).keeps (fun _ _ shifts env => env.shifts shifts)
    (startPass_wellFormed setting wellFormed log tokens)

theorem steps_wellFormed (setting : Setting) {modules : ModuleTree}
    (wellFormed : modules.WellFormed) (log : DiagnosticLog) (tokens : List Token) (count : Nat) :
    ((startPass setting modules log tokens).steps count).environment.WellFormed :=
  (AnalysisState.steps_evolves count _).keeps (fun _ _ shifts env => env.shifts shifts)
    (startPass_wellFormed setting wellFormed log tokens)

/-- Whatever the tokens are, the symbol table is well formed after any number of statements of
either pass, and at the end. -/
theorem symbols_wellFormed (host : Host) (maxErrors : Nat) (tokens : List Token) (count : Nat) :
    let first : Setting := ⟨.declarations, host⟩
    let second : Setting := ⟨.bodies, host⟩
    let declared := runPass first .empty { maxErrors } tokens
    ((startPass first .empty { maxErrors } tokens).steps count).environment.WellFormed ∧
      ((startPass second declared.environment.modules declared.log tokens).steps
        count).environment.WellFormed ∧
      (ofTokens host maxErrors tokens).modules.WellFormed := by
  intro first second declared
  have empty := ModuleTree.wellFormed_empty
  have modules : declared.environment.modules.WellFormed :=
    (runPass_wellFormed first empty _ tokens).modules
  refine ⟨steps_wellFormed first empty _ tokens count, steps_wellFormed second modules _ tokens count, ?_⟩
  simp only [ofTokens]
  split
  next => exact modules
  next => exact (runPass_wellFormed second modules _ tokens).modules

end Analysis

end MiLanguage
