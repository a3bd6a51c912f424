import MiLanguage.Proofs.Symbols.Homes

set_option autoImplicit false

namespace MiLanguage

def BodyOwner.home : BodyOwner → ModuleId
  | function owner _ _ => owner.moduleId
  | constructor id _ => id

-- The modules that a block names: the ones in use, and that of the declaration its body is of.
def Block.modules (b : Block) : List ModuleId := b.uses ++ (b.bodyOf.map BodyOwner.home).toList

-- The modules that a frame names, but for the one that it is of.
def Frame.named (f : Frame) : List ModuleId := (f.block?.map Block.modules).getD []

def ScopeStack.namedModules (s : ScopeStack) : List ModuleId := s.all.flatMap (·.frame.named)

theorem Frame.named_modifyBlock {g : Block → Block} (f : Frame)
    (same : ∀ b, (g b).modules = b.modules) : (f.modifyBlock g).named = f.named := by
  cases f with
  | block kind b => exact same b
  | _ => rfl

namespace ModuleTree

variable {t : ModuleTree} {start id : ModuleId} {path : String}

theorem foldlM_child_inside (arena : t.Arena) {names : List String} (inside : start.index < t.size)
    (found : names.foldlM t.child? start = some id) : id.index < t.size := by
  induction names generalizing start with
  | nil =>
      cases found
      exact inside
  | cons name names ih =>
      obtain ⟨child, first, rest⟩ := Option.bind_eq_some_iff.mp found
      exact ih (arena.children _ _ _ first).1 rest

theorem resolvePath_inside (arena : t.Arena) (inside : start.index < t.size)
    (found : t.resolvePath start path = some id) : id.index < t.size := by
  obtain ⟨origin, member, leads⟩ := List.exists_of_findSome?_eq_some found
  exact foldlM_child_inside arena (ancestors_inside arena inside member) leads

end ModuleTree

namespace ScopeStack

variable {s t : ScopeStack} {scope : Scope}

theorem named_of_all {rest : ScopeStack} (ids : List ModuleId)
    (each : List.Forall₂ (fun a b : Scope => b.frame.named ⊆ ids ++ a.frame.named) s.all rest.all) :
    rest.namedModules ⊆ ids ++ s.namedModules := by
  unfold namedModules
  generalize s.all = old at each
  generalize rest.all = new at each
  induction each with
  | nil => exact List.nil_subset _
  | cons head _ ih =>
      intro id member
      rw [List.flatMap_cons, List.mem_append] at member
      rw [List.flatMap_cons, List.mem_append, List.mem_append]
      rcases member with member | member
      · rcases List.mem_append.mp (head member) with here | there
        · exact .inl here
        · exact .inr (.inl there)
      · rcases List.mem_append.mp (ih member) with here | there
        · exact .inl here
        · exact .inr (.inr there)

theorem named_modifyCurrent {f : Scope → Scope} (s : ScopeStack)
    (same : (f s.current).frame.named = s.current.frame.named) :
    (s.modifyCurrent f).namedModules = s.namedModules := by
  obtain ⟨outer, all, changed⟩ := s.all_eq_current
  simp only [namedModules, all, changed, List.flatMap_cons, same]

theorem named_modifyCurrentBlock {f : Block → Block} (s : ScopeStack)
    (same : ∀ b, (f b).modules = b.modules) : (s.modifyCurrentBlock f).namedModules = s.namedModules :=
  s.named_modifyCurrent (Frame.named_modifyBlock _ same)

theorem named_modifyInnermost {f : Scope → Option Scope} (ids : List ModuleId)
    (each : ∀ a b, f a = some b → b.frame.named ⊆ ids ++ a.frame.named)
    (changed : s.modifyInnermost f = some t) : t.namedModules ⊆ ids ++ s.namedModules := by
  obtain ⟨opened, found, rfl⟩ := Option.map_eq_some_iff.mp changed
  have refl : ∀ a : Scope, a.frame.named ⊆ ids ++ a.frame.named :=
    fun a => List.subset_append_right ids _
  exact named_of_all ids (List.rel_append (modifyFirst_related refl each found)
    (.cons (refl s.base) .nil))

theorem named_addUse? {id : ModuleId} (added : s.addUse? id = some t) :
    t.namedModules ⊆ id :: s.namedModules := by
  refine named_modifyInnermost [id] ?_ added
  intro a b changed
  split at changed
  next block frame =>
    cases changed
    rw [frame]
    intro other member
    simp only [Frame.named, Frame.block?, Option.map_some, Option.getD_some, Block.modules] at member ⊢
    split at member
    next => exact List.mem_cons_of_mem _ member
    next =>
      rw [List.append_assoc, List.mem_append] at member
      simp only [List.mem_append, List.mem_cons] at member ⊢
      tauto
  next => cases changed

theorem named_modifyClass? {f : ClassDeclaration → ClassDeclaration}
    (changed : s.modifyClass? f = some t) : t.namedModules ⊆ s.namedModules := by
  refine named_modifyInnermost [] ?_ changed
  intro a b same
  split at same
  next id c frame =>
    cases same
    exact List.nil_subset _
  next => cases same

theorem named_modifyLocal (s : ScopeStack) (name : String) (f : LocalVariable → LocalVariable) :
    (s.modifyLocal name f).namedModules ⊆ s.namedModules := by
  unfold modifyLocal
  split
  next => exact List.Subset.refl _
  next =>
    generalize changed : s.modifyInnermost _ = found
    cases found with
    | none => exact List.Subset.refl _
    | some t =>
        refine named_modifyInnermost [] ?_ changed
        intro a b same
        split at same
        next kind block frame =>
          split at same
          next =>
            cases same
            rw [frame]
            exact List.Subset.refl _
          next => cases same
        next => cases same

theorem named_declareLocal? {v : Variable} (declared : s.declareLocal? v = some t) :
    t.namedModules = s.namedModules := by
  unfold declareLocal? at declared
  split at declared
  next => cases declared
  next =>
    cases declared
    exact s.named_modifyCurrentBlock fun _ => rfl

theorem named_pop? {rest : ScopeStack} (popped : s.pop? = some (scope, rest)) :
    rest.namedModules ⊆ s.namedModules := by
  unfold namedModules
  rw [all_of_pop? popped, List.flatMap_cons]
  exact List.subset_append_right _ _

end ScopeStack

namespace Environment

variable {env after : Environment} {setting : Setting} {placement : Placement} {node : Node}

-- Each module that is in use, or that the body of a function is of, is in the arena.
def Rooted (env : Environment) : Prop := ∀ id ∈ env.scopes.namedModules, id.index < env.modules.size

namespace Rooted

theorem keeps (rooted : env.Rooted) (named : after.scopes.namedModules ⊆ env.scopes.namedModules)
    (size : env.modules.size ≤ after.modules.size) : after.Rooted :=
  fun id member => Nat.lt_of_lt_of_le (rooted id (named member)) size

theorem scopes (rooted : env.Rooted) {scopes : ScopeStack}
    (named : scopes.namedModules ⊆ env.scopes.namedModules) : ({ env with scopes } : Environment).Rooted :=
  rooted.keeps named (Nat.le_refl _)

theorem sameNamed (rooted : env.Rooted) {scopes : ScopeStack}
    (same : scopes.namedModules = env.scopes.namedModules) : ({ env with scopes } : Environment).Rooted :=
  rooted.scopes (same ▸ List.Subset.refl _)

theorem modules (rooted : env.Rooted) {modules : ModuleTree} (grows : env.modules.Grows modules) :
    ({ env with modules } : Environment).Rooted :=
  rooted.keeps (List.Subset.refl _) grows.size

theorem pushed (rooted : env.Rooted) {frame : Frame} (node : Node)
    (inside : ∀ id ∈ frame.named, id.index < env.modules.size) : (env.push frame node).Rooted := by
  intro id member
  have member : id ∈ frame.named ++ env.scopes.namedModules := member
  rcases List.mem_append.mp member with here | there
  · exact inside id here
  · exact rooted id there

theorem pushPlain (rooted : env.Rooted) {frame : Frame} (node : Node) (plain : frame.named = []) :
    (env.push frame node).Rooted :=
  rooted.pushed node (by simp [plain])

theorem append (rooted : env.Rooted) (node : Node) : (env.append setting node).Rooted := by
  unfold Environment.append
  split
  next => exact rooted
  next =>
    have same : (env.scopes.append node).namedModules = env.scopes.namedModules :=
      env.scopes.named_modifyCurrent rfl
    exact rooted.sameNamed same

theorem framed (rooted : env.Rooted) {frame : Frame}
    (same : frame.named = env.scopes.current.frame.named) :
    ({ env with scopes := env.scopes.modifyCurrent ({ · with frame }) } : Environment).Rooted :=
  rooted.sameNamed (env.scopes.named_modifyCurrent same)

theorem modifyBlock (rooted : env.Rooted) {f : Block → Block} (same : ∀ b, (f b).modules = b.modules) :
    (env.modifyBlock f).Rooted :=
  rooted.sameNamed (env.scopes.named_modifyCurrentBlock same)

theorem markInitialized (rooted : env.Rooted) (v : ResolvedVariable) :
    (env.markInitialized v).Rooted := by
  unfold Environment.markInitialized
  split
  next => exact rooted.scopes (ScopeStack.named_modifyLocal _ _ _)
  next => exact rooted.modules (ModuleTree.grows_modifyMembers _ _ _)
  next =>
    dsimp only
    generalize changed : env.scopes.modifyClass? _ = found
    cases found with
    | none => exact rooted
    | some scopes => exact rooted.scopes (ScopeStack.named_modifyClass? changed)

theorem assigns {implied : Bool} (rooted : env.Rooted) (assigns : env.Assigns implied after node) :
    after.Rooted := by
  obtain ⟨_, _, _, _, _, _, _⟩ := assigns
  exact rooted.markInitialized _

theorem advances {implied : Bool} (rooted : env.Rooted) (advances : env.Advances implied after node) :
    after.Rooted := by
  cases advances with
  | assigns assigns => exact rooted.assigns assigns
  | calls => exact rooted

theorem addFunction? (rooted : env.Rooted) {f : FunctionDefinition}
    (added : env.addFunction? f = some after) : after.Rooted := by
  unfold Environment.addFunction? at added
  split at added
  next => cases added
  next =>
    obtain ⟨methods, _, added⟩ := Option.bind_eq_some_iff.mp added
    obtain ⟨scopes, changed, same⟩ := Option.bind_eq_some_iff.mp added
    cases same
    exact rooted.scopes (ScopeStack.named_modifyClass? changed)
  next =>
    obtain ⟨modules, grown, same⟩ := Option.map_eq_some_iff.mp added
    cases same
    obtain ⟨functions, _, rfl⟩ := Option.map_eq_some_iff.mp grown
    exact rooted.modules (ModuleTree.grows_modifyMembers _ _ _)

theorem defines (rooted : env.Rooted) (defines : env.Defines placement after node) : after.Rooted := by
  obtain ⟨_, _, _, added, _⟩ := defines
  cases placement with
  | inBlock =>
      obtain ⟨scopes, declared, rfl⟩ := Option.map_eq_some_iff.mp added
      exact rooted.sameNamed (ScopeStack.named_declareLocal? declared)
  | global =>
      simp only [declareVariable?] at added
      split at added
      next => cases added
      next =>
        cases added
        exact rooted.modules (ModuleTree.grows_modifyMembers _ _ _)
  | field =>
      simp only [declareVariable?] at added
      split at added
      next => cases added
      next =>
        obtain ⟨scopes, changed, same⟩ := Option.map_eq_some_iff.mp added
        cases same
        exact rooted.scopes (ScopeStack.named_modifyClass? changed)

-- A parameter that becomes a variable of the body puts nothing in use.
theorem openBody (rooted : env.Rooted) (type : Datatype) {owner : BodyOwner}
    (inside : owner.home.index < env.modules.size) (parameters : List FunctionParameter)
    (place : Token) (node : Node) : (env.openBody type owner parameters place node).Rooted := by
  simp only [Environment.openBody]
  have opened : (env.push (.block .function { Block.function type with bodyOf := some owner })
      node).Rooted := by
    refine rooted.pushed node fun id member => ?_
    rw [List.mem_singleton.mp (show id ∈ [owner.home] from member)]
    exact inside
  generalize env.push _ node = env at opened
  induction parameters generalizing env with
  | nil => exact opened
  | cons p parameters ih =>
      rw [List.foldl_cons]
      apply ih
      generalize declared : env.scopes.declareLocal? _ = found
      cases found with
      | none => exact opened
      | some scopes => exact opened.sameNamed (ScopeStack.named_declareLocal? declared)

end Rooted

theorem owner_inside (housed : env.Housed) : env.owner.moduleId.index < env.modules.size := by
  unfold Environment.owner
  split
  next id c frame =>
    obtain ⟨outer, all, _⟩ := env.scopes.all_eq_current
    refine housed.inside ⟨id, some (.class, c.name)⟩ ?_
    unfold homes
    unfold Environment.frame at frame
    rw [all, List.filterMap_cons, frame]
    exact List.mem_cons_self
  next => exact housed.currentModule

theorem Rooted.putsInUse (rooted : env.Rooted) {id : ModuleId} (inside : id.index < env.modules.size) :
    Rooted { env with scopes := (env.scopes.addUse? id).getD env.scopes } := by
  cases added : env.scopes.addUse? id with
  | none => exact rooted
  | some scopes =>
      intro other member
      rcases List.mem_cons.mp (ScopeStack.named_addUse? added member) with rfl | known
      · exact inside
      · exact rooted other known

-- The module that a statement puts in use has been found at the path that it names.
theorem Rooted.used {mods : LeadingModifiers} {head : Token} {tail : List Token} {accepted : Accepted}
    (rooted : env.Rooted) (housed : env.Housed)
    (read : env.useStatement mods head tail = .ok accepted) : accepted.environment.Rooted := by
  simp only [useStatement, Checked.bind_eq_ok] at read
  obtain ⟨_, _, _, _, read⟩ := read
  cases tail with
  | nil => simp at read
  | cons path tail =>
      simp only at read
      split at read
      next =>
        simp only [Checked.bind_eq_ok, Except.ok.injEq, exists_eq_left'] at read
        obtain ⟨_, _, read⟩ := read
        split at read
        next => simp at read
        next id found =>
          cases read
          exact rooted.putsInUse (ModuleTree.resolvePath_inside housed.arena housed.currentModule found)
      next => simp at read

theorem Rooted.accepts {mods : LeadingModifiers} {head : Token} {tail : List Token}
    {accepted : Accepted} (rooted : env.Rooted) (housed : env.Housed)
    (accepts : Accepts env setting mods head tail accepted)
    (uses : head.kind = .keyword .use → env.useStatement mods head tail = .ok accepted) :
    accepted.environment.Rooted := by
  cases accepts with
  | @moduleDeclared name id modules _ _ _ _ added =>
      have grows := env.modules.grows_addChild env.currentModule name.lexeme
      rw [added] at grows
      exact (rooted.modules grows).pushPlain _ rfl
  | classDeclared | enumDeclared =>
      exact (rooted.modules (ModuleTree.grows_modifyMembers _ _ _)).pushPlain _ rfl
  | moduleEntered | classEntered | enumEntered => exact rooted.pushPlain _ rfl
  | membersDeclared _ _ frame =>
      exact rooted.framed (by rw [show env.scopes.current.frame = _ from frame]; rfl)
  | constructorDeclared _ _ frame =>
      exact rooted.framed (by rw [show env.scopes.current.frame = _ from frame]; rfl)
  | functionDeclared _ _ _ _ _ _ added => exact rooted.addFunction? added
  | nativeDeclared _ _ _ _ _ added => exact rooted.addFunction? added
  | @functionOpened h =>
      have here : (BodyOwner.function env.owner h.name.lexeme h.paramTypes).home.index <
          env.modules.size := owner_inside housed
      exact rooted.openBody _ here _ _ _
  | @constructorOpened id c _ _ _ _ frame =>
      have here := owner_inside housed
      simp only [owner, frame] at here
      have here : (BodyOwner.constructor id c.name).home.index < env.modules.size := here
      exact rooted.openBody _ here _ _ _
  | conditional | doLoop => exact rooted.pushPlain _ rfl
  | forLoop _ _ _ defines _ advances =>
      have stepped := ((rooted.pushPlain _ rfl).defines defines).advances advances
      simp only [List.foldl_cons, List.foldl_nil]
      exact (((stepped.append _).append _).append _).pushPlain _ rfl
  | returned | exited => exact rooted.modifyBlock fun _ => rfl
  | used kind => exact rooted.used housed (uses kind)
  | libraryEnded => exact rooted.keeps (List.Subset.refl _) (Nat.le_refl _)
  | variableDefined _ _ _ _ defines => exact rooted.defines defines
  | assigned _ _ _ assigns => exact rooted.assigns assigns
  | _ => exact rooted

theorem Rooted.reads {first : Token} {rest : List Token} {node : Option Node} (rooted : env.Rooted)
    (housed : env.Housed) (read : env.statement setting first rest = ⟨after, .ok node⟩) :
    after.Rooted := by
  obtain ⟨mods, head, tail, modifiers, accepts⟩ := statement_accepts read
  refine rooted.accepts housed accepts fun kind => ?_
  unfold Environment.statement at read
  rw [modifiers] at read
  simp only [dispatch, kind, Environment.read] at read
  cases found : env.useStatement mods head tail with
  | ok accepted =>
      rw [found] at read
      cases read
      rfl
  | error =>
      rw [found] at read
      cases read

theorem Rooted.shifts (rooted : env.Rooted) (housed : env.Housed) (shifts : env.Shifts setting after) :
    after.Rooted := by
  cases shifts with
  | reads first rest =>
      generalize read : env.statement setting first rest = outcome
      obtain ⟨after, result⟩ := outcome
      cases result with
      | ok => exact rooted.reads housed read
      | error =>
          rcases statement_rejects_members read with rfl | ⟨_, id, e, extended, frame, _, rfl⟩
          · exact rooted
          · exact rooted.framed (by rw [show env.scopes.current.frame = _ from frame]; rfl)
  | warns => exact rooted.modifyBlock fun _ => rfl
  | appends node => exact rooted.append node
  | recovers head node =>
      have plain : (AnalysisState.recoveryFrame env head).named = [] := by
        unfold AnalysisState.recoveryFrame
        split
        all_goals try rfl
        split <;> rfl
      exact rooted.scopes (by
        intro id member
        have member : id ∈ (AnalysisState.recoveryFrame env head).named ++ env.scopes.namedModules := member
        rwa [plain] at member)
  | drops popped => exact rooted.scopes (ScopeStack.named_pop? popped)
  | closesClass popped | closesEnum popped =>
      exact (rooted.scopes (ScopeStack.named_pop? popped)).modules
        (ModuleTree.grows_modifyMembers _ _ _)
  | @closesBody scope scopes b owner popped =>
      obtain ⟨id, f, attached⟩ := env.modules.attachBody_modifies scope.node owner
      rw [attached]
      exact (rooted.scopes (ScopeStack.named_pop? popped)).modules
        (ModuleTree.grows_modifyMembers _ _ _)

end Environment

section Inside

variable {size : Nat} {home : ModuleId} {name : String}

/-- What a class declares belongs to modules of the arena. -/
structure ClassDeclaration.Inside (size : Nat) (c : ClassDeclaration) : Prop where
  origin : c.origin.module.index < size
  fields : c.fields.Each fun _ v => v.origin.module.index < size
  methods : ∀ name, ∀ f ∈ c.methods.overloads name, f.owner.moduleId.index < size
  constructor : ∀ f, c.constructor = some f → f.owner.moduleId.index < size

theorem Variable.WellFormed.inside {v : Variable} (wellFormed : v.WellFormed home name)
    (here : home.index < size) : v.origin.module.index < size :=
  wellFormed.origin ▸ here

theorem ClassDeclaration.WellFormed.inside {c : ClassDeclaration} (wellFormed : c.WellFormed home name)
    (here : home.index < size) : c.Inside size where
  origin := by rwa [wellFormed.origin]
  fields _ v found := (wellFormed.fields _ v found).inside here
  methods _ f member := by
    rw [(wellFormed.methods.each _ f member).owned]
    exact here
  constructor f found := by
    rw [(wellFormed.constructor f found).2.owned]
    exact here

/-- What a module declares belongs to modules of the arena. -/
structure Members.Inside (size : Nat) (m : Members) : Prop where
  functions : ∀ name, ∀ f ∈ m.functions.overloads name, f.owner.moduleId.index < size
  globals : m.globals.Each fun _ v => v.origin.module.index < size
  classes : m.classes.Each fun _ c => c.Inside size
  enums : m.enums.Each fun _ e => e.origin.module.index < size

theorem Members.WellFormed.inside {m : Members} (wellFormed : m.WellFormed home)
    (here : home.index < size) : m.Inside size where
  functions _ f member := by
    rw [(wellFormed.functions.each _ f member).owned]
    exact here
  globals _ v found := (wellFormed.globals _ v found).inside here
  classes _ c found := (wellFormed.classes _ c found).inside here
  enums _ e found := by
    show e.origin.module.index < size
    rwa [(wellFormed.enums _ e found).origin]

theorem Members.inside_empty (size : Nat) : ({} : Members).Inside size :=
  ⟨fun name f member => by simp [FunctionTable.overloads, FunctionTable.empty] at member,
    SymbolTable.each_empty _, SymbolTable.each_empty _, SymbolTable.each_empty _⟩

-- The modules that a scope is of, that it names and that it declares for are in the arena.
def Frame.Inside (size : Nat) : Frame → Prop
  | .parent id | .module id => id.index < size
  | .class id c => id.index < size ∧ c.Inside size
  | .enum id e => id.index < size ∧ e.origin.module.index < size
  | .block _ b => (∀ id ∈ b.modules, id.index < size) ∧
      b.locals.Each fun _ l => l.declaration.origin.module.index < size

theorem homeOf_inside {scopes : List Scope} (root : 0 < size)
    (homes : ∀ s ∈ scopes, ∀ id, s.frame.moduleId? = some id → id.index < size) :
    (homeOf scopes).index < size := by
  unfold homeOf
  cases found : scopes.findSome? (·.frame.moduleId?) with
  | none => exact root
  | some id =>
      obtain ⟨s, member, here⟩ := List.exists_of_findSome?_eq_some found
      exact homes s member id here

theorem Frame.WellFormed.inside {f : Frame} (wellFormed : f.WellFormed home) (here : home.index < size)
    (ids : ∀ id, f.moduleId? = some id → id.index < size) (named : ∀ id ∈ f.named, id.index < size) :
    f.Inside size := by
  cases f with
  | parent id | module id => exact ids id rfl
  | «class» id c => exact ⟨ids id rfl, ClassDeclaration.WellFormed.inside wellFormed (ids id rfl)⟩
  | enum id e =>
      have origin : e.origin.module = id := EnumDeclaration.WellFormed.origin wellFormed
      exact ⟨ids id rfl, origin ▸ ids id rfl⟩
  | block kind b =>
      exact ⟨named, fun name l found => Variable.WellFormed.inside (wellFormed name l found) here⟩

theorem scopes_inside {scopes : List Scope} (root : 0 < size) (wellFormed : ScopesWellFormed scopes)
    (homes : ∀ s ∈ scopes, ∀ id, s.frame.moduleId? = some id → id.index < size)
    (named : ∀ s ∈ scopes, ∀ id ∈ s.frame.named, id.index < size) :
    ∀ s ∈ scopes, s.frame.Inside size := by
  induction scopes with
  | nil => simp
  | cons scope outer ih =>
      have first : scope.frame.Inside size := wellFormed.1.inside (homeOf_inside root homes)
        (homes scope List.mem_cons_self) (named scope List.mem_cons_self)
      have later := ih wellFormed.2 (fun s member => homes s (List.mem_cons_of_mem _ member))
        fun s member => named s (List.mem_cons_of_mem _ member)
      exact List.forall_mem_cons.mpr ⟨first, later⟩

/-- Every module that is named in an environment, in its modules, in what they declare and in the open
scopes, is in the arena. -/
structure Environment.InArena (env : Environment) : Prop where
  arena : env.modules.Arena
  members : ∀ id, (env.modules.get id).members.Inside env.modules.size
  scopes : ∀ s ∈ env.scopes.all, s.frame.Inside env.modules.size

theorem Environment.Housed.inArena {env : Environment} (housed : env.Housed)
    (wellFormed : env.WellFormed) (rooted : env.Rooted) : env.InArena where
  arena := housed.arena
  members id := by
    by_cases here : id.index < env.modules.size
    · exact (wellFormed.modules.members id).inside here
    · rw [ModuleTree.get_of_size_le here]
      exact Members.inside_empty _
  scopes := by
    refine scopes_inside housed.arena.root wellFormed.scopes (fun s member id found => ?_)
      fun s member id named => rooted id (List.mem_flatMap.mpr ⟨s, member, named⟩)
    rw [← s.frame.id_home?] at found
    obtain ⟨h, home, rfl⟩ := Option.map_eq_some_iff.mp found
    exact housed.inside h (List.mem_filterMap.mpr ⟨s, member, home⟩)

end Inside

namespace Analysis

variable {setting : Setting} {modules : ModuleTree} {log : DiagnosticLog} {tokens : List Token}

theorem inArena_of_evolves {s : AnalysisState} (wellFormed : modules.WellFormed)
    (arena : modules.Arena) (apart : modules.TypesApart)
    (evolves : (startPass setting modules log tokens).Evolves s) : s.environment.InArena := by
  have start : (startPass setting modules log tokens).environment.Rooted :=
    fun id member => absurd (show id ∈ [] from member) List.not_mem_nil
  obtain ⟨wellFormed, housed, rooted⟩ := evolves.keeps
    (P := fun env => env.WellFormed ∧ env.Housed ∧ env.Rooted)
    (fun _ _ shifts holds => ⟨holds.1.shifts shifts, holds.2.1.shifts holds.1 shifts,
      holds.2.2.shifts holds.2.1 shifts⟩)
    ⟨startPass_wellFormed setting wellFormed log tokens, startPass_housed arena apart, start⟩
  exact housed.inArena wellFormed rooted

-- The states that the two passes over some tokens go through, each after a number of statements.
def Passes (host : Host) (maxErrors : Nat) (tokens : List Token) (s : AnalysisState) : Prop :=
  let declared := runPass ⟨.declarations, host⟩ .empty { maxErrors } tokens
  ∃ count, s = (startPass ⟨.declarations, host⟩ .empty { maxErrors } tokens).steps count ∨
    s = (startPass ⟨.bodies, host⟩ declared.environment.modules declared.log tokens).steps count

theorem Passes.inArena {host : Host} {maxErrors : Nat} {s : AnalysisState}
    (passes : Passes host maxErrors tokens s) : s.environment.InArena := by
  have first := runPass_evolves ⟨.declarations, host⟩ .empty { maxErrors } tokens
  obtain ⟨count, rfl | rfl⟩ := passes
  · exact inArena_of_evolves ModuleTree.wellFormed_empty ModuleTree.arena_empty typesApart_empty
      (AnalysisState.steps_evolves count _)
  · have known := housed_of_declarations first
    exact inArena_of_evolves
      (runPass_wellFormed ⟨.declarations, host⟩ ModuleTree.wellFormed_empty { maxErrors } tokens).modules
      known.arena known.apart (AnalysisState.steps_evolves count _)

end Analysis

end MiLanguage
