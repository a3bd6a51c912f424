import MiLanguage.Proofs.Symbols.Apart

set_option autoImplicit false

namespace MiLanguage

namespace ModuleTree

variable {t old new : ModuleTree} {id parent child : ModuleId} {kind : NameKind} {name : String}

theorem ancestors_eq_cons (t : ModuleTree) (id : ModuleId) : ∃ outer, t.ancestors id = id :: outer := by
  unfold ancestors
  cases id.index with
  | zero => exact ⟨[], rfl⟩
  | succ bound => exact ⟨_, rfl⟩

theorem self_mem_ancestors (t : ModuleTree) (id : ModuleId) : id ∈ t.ancestors id := by
  obtain ⟨outer, all⟩ := t.ancestors_eq_cons id
  simp [all]

theorem Grows.ancestors (grows : old.Grows new) (arena : old.Arena) (later : new.Arena)
    (inside : id.index < old.size) : new.ancestors id = old.ancestors id := by
  obtain ⟨index⟩ := id
  induction index using Nat.strongRecOn with
  | ind index ih =>
      by_cases top : (⟨index⟩ : ModuleId) = root
      · simp only [top, ancestors_root]
      · obtain ⟨parent, above, less, found⟩ := arena.parents _ inside top
        obtain ⟨parent', above', _, found'⟩ :=
          later.parents _ (Nat.lt_of_lt_of_le inside grows.size) top
        rw [grows.parents _ inside, above] at above'
        cases above'
        rw [ancestors_child arena found, ancestors_child later found',
          ih parent.index less (Nat.lt_trans less inside)]

theorem sameNames_modifyMembers {f : Members → Members} (id : ModuleId)
    (same : ∀ (m : Module) kind name,
      ({ m with members := f m.members } : Module).names kind name = m.names kind name) :
    t.SameNames (t.modifyMembers id f) := by
  intro other kind name
  unfold names modifyMembers
  rw [get_modify_eq]
  split
  next here => rw [same, here.1]
  next => rfl

theorem contains_modify {α : Type} (t : SymbolTable α) (name other : String) (f : α → α) :
    (t.modify name f).contains other = t.contains other := by
  unfold SymbolTable.contains
  rw [SymbolTable.find?_modify]
  split
  next same => simp [same]
  next => rfl

theorem sameNames_modifyVariable (t : ModuleTree) (id : ModuleId) (name : String)
    (f : Variable → Variable) : t.SameNames (t.modifyVariable id name f) :=
  sameNames_modifyMembers id fun m kind other => by
    cases kind <;> simp [Module.names, contains_modify]

theorem sameNames_attachBody (t : ModuleTree) (body : Node) (owner : BodyOwner) :
    t.SameNames (AnalysisState.attachBody t body owner) := by
  have ofClass : ∀ (id : ModuleId) (name : String) (f : ClassDeclaration → ClassDeclaration),
      t.SameNames (t.modifyClass id name f) := fun id name f =>
    sameNames_modifyMembers id fun m kind other => by
      cases kind <;> simp [Module.names, contains_modify]
  unfold AnalysisState.attachBody
  split
  next => exact sameNames_modifyMembers _ fun m kind other => by cases kind <;> rfl
  next => exact ofClass _ _ _
  next => exact ofClass _ _ _

theorem SameNames.trans {a b c : ModuleTree} (first : a.SameNames b) (second : b.SameNames c) :
    a.SameNames c := fun id kind name => (second id kind name).trans (first id kind name)

theorem Updated.sameNames (updated : old.Updated new) : old.SameNames new := by
  induction updated with
  | refl => exact fun _ _ _ => Iff.rfl
  | marked id name _ ih => exact ih.trans (sameNames_modifyVariable _ id name _)

theorem Updated.grows (updated : old.Updated new) : old.Grows new := by
  induction updated with
  | refl => exact .refl _
  | marked id name _ ih => exact ih.trans (grows_modifyMembers _ id _)

-- No module has a class and an enum of one name.
def TypesApart (t : ModuleTree) : Prop :=
  ∀ id name, t.names id .class name = true → t.names id .enum name = true → False

/-- A tree of modules grows, and types stay apart. -/
structure Continues (old new : ModuleTree) : Prop where
  arena : old.Arena → new.Arena
  grows : old.Grows new
  names : ∀ id kind name, old.names id kind name = true → new.names id kind name = true
  apart : old.TypesApart → new.TypesApart

theorem continues_refl (t : ModuleTree) : t.Continues t :=
  ⟨fun arena => arena, .refl t, fun _ _ _ named => named, fun apart => apart⟩

theorem SameNames.typesApart (same : old.SameNames new) (apart : old.TypesApart) :
    new.TypesApart := fun id name ofClass ofEnum =>
  apart id name ((same _ _ _).mp ofClass) ((same _ _ _).mp ofEnum)

-- A name that is free, or one of another kind.
theorem AddsName.typesApart (adds : old.AddsName new id kind name)
    (free : kind = .class ∨ kind = .enum → (old.get id).nameTaken name = false)
    (apart : old.TypesApart) : new.TypesApart := by
  intro id' name' ofClass ofEnum
  have taken : ∀ {kind}, old.names id kind name = true → (old.get id).nameTaken name = true :=
    fun named => (Module.nameTaken_iff _ _).mpr ⟨_, named⟩
  rcases (adds _ _ _).mp ofClass with ofClass | ⟨rfl, rfl, rfl⟩
  · rcases (adds _ _ _).mp ofEnum with ofEnum | ⟨rfl, rfl, rfl⟩
    · exact apart id' name' ofClass ofEnum
    · have free := free (.inr rfl)
      rw [taken ofClass] at free
      cases free
  · rcases (adds _ _ _).mp ofEnum with ofEnum | ⟨_, other, _⟩
    · have free := free (.inl rfl)
      rw [taken ofEnum] at free
      cases free
    · cases other

theorem continues_of_same {f : Members → Members} (same : t.SameNames (t.modifyMembers id f)) :
    t.Continues (t.modifyMembers id f) :=
  ⟨fun arena => arena.modifyMembers id f, t.grows_modifyMembers id f,
    fun _ _ _ named => (same _ _ _).mpr named, same.typesApart⟩

theorem continues_of_adds {f : Members → Members}
    (adds : t.AddsName (t.modifyMembers id f) id kind name)
    (free : kind = .class ∨ kind = .enum → (t.get id).nameTaken name = false) :
    t.Continues (t.modifyMembers id f) :=
  ⟨fun arena => arena.modifyMembers id f, t.grows_modifyMembers id f,
    fun _ _ _ named => (adds _ _ _).mpr (.inl named), adds.typesApart free⟩

theorem continues_addChild (inside : parent.index < t.size) (name : String) :
    t.Continues (t.addChild parent name).2 := by
  have adds := addsName_addChild inside name
  exact ⟨fun arena => arena.addChild inside name, t.grows_addChild parent name,
    fun _ _ _ named => (adds _ _ _).mpr (.inl named), adds.typesApart (by simp)⟩

theorem Updated.continues (updated : old.Updated new) : old.Continues new :=
  ⟨fun arena => arena.updated updated, updated.grows,
    fun _ _ _ named => (updated.sameNames _ _ _).mpr named, updated.sameNames.typesApart⟩

end ModuleTree

/-- The module that a scope is of, and the type that is declared there in this scope. -/
structure Home where
  id : ModuleId
  type : Option (NameKind × String) := none

def Frame.home? : Frame → Option Home
  | .parent id | .module id => some { id }
  | .class id c => some { id, type := some (.class, c.name) }
  | .enum id e => some { id, type := some (.enum, e.name) }
  | .block _ _ => none

theorem Frame.id_home? (f : Frame) : f.home?.map Home.id = f.moduleId? := by
  cases f <;> rfl

namespace Environment

variable {env after : Environment} {setting : Setting}

def homes (env : Environment) : List Home := env.scopes.all.filterMap (·.frame.home?)

-- The current module is the innermost one.
theorem currentModule_homes (env : Environment) :
    env.currentModule = (env.homes.head?.map Home.id).getD ModuleTree.root := by
  unfold Environment.currentModule ScopeStack.currentModule homes
  congr 1
  induction env.scopes.all with
  | nil => rfl
  | cons scope outer ih =>
      have id := scope.frame.id_home?
      rw [List.findSome?_cons, List.filterMap_cons]
      cases home : scope.frame.home? with
      | none =>
          rw [home] at id
          rw [← id]
          exact ih
      | some h =>
          rw [home] at id
          rw [← id]
          rfl

theorem homes_of_all (modules : ModuleTree) (scopes : ScopeStack) (inLibrary : Bool)
    (same : List.Forall₂ (fun a b : Scope => b.frame.home? = a.frame.home?) env.scopes.all
      scopes.all) : (Environment.mk modules scopes inLibrary).homes = env.homes := by
  show scopes.all.filterMap _ = env.scopes.all.filterMap _
  generalize env.scopes.all = old at same
  generalize scopes.all = new at same
  induction same with
  | nil => rfl
  | cons head _ ih => rw [List.filterMap_cons, List.filterMap_cons, head, ih]

theorem Updated.homes (updated : env.Updated after) : after.homes = env.homes := by
  refine homes_of_all _ _ _ (updated.scopes.all.imp fun a b same => ?_)
  have same := same.frame
  generalize a.frame = old at same
  generalize b.frame = new at same
  cases same <;> rfl

theorem homes_modifyCurrent {f : Scope → Scope}
    (same : (f env.scopes.current).frame.home? = env.scopes.current.frame.home?) :
    ({ env with scopes := env.scopes.modifyCurrent f } : Environment).homes = env.homes := by
  obtain ⟨outer, all, changed⟩ := env.scopes.all_eq_current
  simp only [homes, all, changed, List.filterMap_cons, same]

theorem homes_modifyClass? {f : ClassDeclaration → ClassDeclaration} {scopes : ScopeStack}
    (changed : env.scopes.modifyClass? f = some scopes) (named : ∀ c, (f c).name = c.name) :
    ({ env with scopes } : Environment).homes = env.homes := by
  obtain ⟨opened, found, rfl⟩ := Option.map_eq_some_iff.mp changed
  have same := ScopeStack.modifyFirst_related
    (R := fun a b => b.frame.home? = a.frame.home?) (fun _ => rfl) ?_ found
  · exact homes_of_all env.modules { env.scopes with opened } env.inLibrary
      (List.rel_append same (.cons rfl .nil))
  intro a b same
  split at same
  next id c frame =>
    cases same
    simp [frame, Frame.home?, named]
  next => cases same

theorem homes_append (node : Node) : (env.append setting node).homes = env.homes := by
  unfold append
  split
  next => rfl
  next => exact homes_modifyCurrent rfl

theorem homes_push (frame : Frame) (node : Node) :
    (env.push frame node).homes = frame.home?.toList ++ env.homes := by
  show List.filterMap _ (_ :: env.scopes.all) = _
  rw [List.filterMap_cons]
  cases frame.home? <;> simp [homes]

theorem homes_of_pop? {scope : Scope} {scopes : ScopeStack}
    (popped : env.scopes.pop? = some (scope, scopes)) :
    env.homes = scope.frame.home?.toList ++ ({ env with scopes } : Environment).homes := by
  unfold homes
  rw [ScopeStack.all_of_pop? popped, List.filterMap_cons]
  cases scope.frame.home? <;> rfl

/-- Types are told apart by their names, and the open scopes are nested as the modules are that they
are of. -/
structure Housed (env : Environment) : Prop where
  arena : env.modules.Arena
  apart : env.modules.TypesApart
  inside : ∀ h ∈ env.homes, h.id.index < env.modules.size
  declared : ∀ h ∈ env.homes, ∀ kind name, h.type = some (kind, name) →
    env.modules.names h.id kind name = true
  nested : env.homes.Pairwise fun inner outer => outer.id ∈ env.modules.ancestors inner.id

namespace Housed

theorem continues (housed : env.Housed) (continues : env.modules.Continues after.modules)
    (homes : after.homes.Sublist env.homes) : after.Housed where
  arena := continues.arena housed.arena
  apart := continues.apart housed.apart
  inside h member :=
    Nat.lt_of_lt_of_le (housed.inside h (homes.subset member)) continues.grows.size
  declared h member kind name type :=
    continues.names _ _ _ (housed.declared h (homes.subset member) kind name type)
  nested := (housed.nested.sublist homes).imp_of_mem fun {inner outer} member _ above => by
    rwa [continues.grows.ancestors housed.arena (continues.arena housed.arena)
      (housed.inside inner (homes.subset member))]

theorem scopes (housed : env.Housed) {scopes : ScopeStack}
    (homes : ({ env with scopes } : Environment).homes = env.homes) :
    ({ env with scopes } : Environment).Housed :=
  housed.continues (ModuleTree.continues_refl _) (homes ▸ List.Sublist.refl _)

theorem modules (housed : env.Housed) {modules : ModuleTree} (continues : env.modules.Continues modules) :
    ({ env with modules } : Environment).Housed :=
  housed.continues continues (List.Sublist.refl _)

theorem updated (housed : env.Housed) (updated : env.Updated after) : after.Housed :=
  housed.continues updated.modules.continues (updated.homes ▸ List.Sublist.refl _)

theorem append (housed : env.Housed) (node : Node) : (env.append setting node).Housed := by
  have homes : (env.append setting node).homes = env.homes := homes_append node
  exact housed.continues (by rw [modules_append]; exact ModuleTree.continues_refl _)
    (homes ▸ List.Sublist.refl _)

theorem mem_ancestors (housed : env.Housed) {h : Home} (member : h ∈ env.homes) :
    h.id ∈ env.modules.ancestors env.currentModule := by
  rw [currentModule_homes]
  have nested := housed.nested
  cases homes : env.homes with
  | nil => simp [homes] at member
  | cons inner outer =>
      rw [homes] at nested member
      rcases List.mem_cons.mp member with rfl | member
      · exact ModuleTree.self_mem_ancestors _ _
      · exact (List.pairwise_cons.mp nested).1 h member

theorem currentModule (housed : env.Housed) : env.currentModule.index < env.modules.size := by
  rw [currentModule_homes]
  cases homes : env.homes with
  | nil => exact housed.arena.root
  | cons inner outer => exact housed.inside inner (by simp [homes])

theorem pushBlock (housed : env.Housed) (kind : BlockKind) (b : Block) (node : Node) :
    (env.push (.block kind b) node).Housed :=
  housed.continues (ModuleTree.continues_refl _)
    (by rw [homes_push]; exact List.Sublist.refl _)

theorem push (housed : env.Housed) {frame : Frame} {h : Home} (node : Node)
    (home : frame.home? = some h) (inside : h.id.index < env.modules.size)
    (declared : ∀ kind name, h.type = some (kind, name) → env.modules.names h.id kind name = true)
    (around : ∀ id ∈ env.modules.ancestors env.currentModule, id ∈ env.modules.ancestors h.id) :
    (env.push frame node).Housed := by
  have homes : (env.push frame node).homes = h :: env.homes := by rw [homes_push, home]; rfl
  refine ⟨housed.arena, housed.apart, ?_, ?_, ?_⟩
  · rw [homes]
    exact List.forall_mem_cons.mpr ⟨inside, housed.inside⟩
  · rw [homes]
    exact List.forall_mem_cons.mpr ⟨declared, housed.declared⟩
  · rw [homes]
    exact .cons (fun outer member => around _ (housed.mem_ancestors member)) housed.nested

end Housed

theorem Housed.addFunction? (housed : env.Housed) {f : FunctionDefinition}
    (added : env.addFunction? f = some after) : after.Housed := by
  unfold Environment.addFunction? at added
  split at added
  next => cases added
  next =>
    obtain ⟨methods, _, added⟩ := Option.bind_eq_some_iff.mp added
    obtain ⟨scopes, changed, same⟩ := Option.bind_eq_some_iff.mp added
    cases same
    exact housed.scopes (homes_modifyClass? changed fun _ => rfl)
  next =>
    obtain ⟨modules, grown, same⟩ := Option.map_eq_some_iff.mp added
    cases same
    obtain ⟨functions, _, rfl⟩ := Option.map_eq_some_iff.mp grown
    exact housed.modules (ModuleTree.continues_of_same (ModuleTree.sameNames_modifyMembers _
      fun m kind name => by cases kind <;> rfl))

theorem Housed.defines (housed : env.Housed) {placement : Placement} {node : Node}
    (defines : env.Defines placement after node) : after.Housed := by
  obtain ⟨_, _, _, added⟩ := defines
  cases placement with
  | inBlock => exact housed.updated (updated_declareLocal added)
  | global =>
      simp only [declareVariable?] at added
      split at added
      next => cases added
      next =>
        cases added
        exact housed.modules (ModuleTree.continues_of_adds
          (ModuleTree.addsName_insertVariable housed.currentModule _) (by simp))
  | field =>
      simp only [declareVariable?] at added
      split at added
      next => cases added
      next =>
        obtain ⟨scopes, changed, same⟩ := Option.map_eq_some_iff.mp added
        cases same
        exact housed.scopes (homes_modifyClass? changed fun _ => rfl)

theorem Housed.openBody (housed : env.Housed) (type : Datatype) (owner : BodyOwner)
    (parameters : List FunctionParameter) (place : Token) (node : Node) :
    (env.openBody type owner parameters place node).Housed :=
  (housed.pushBlock _ _ node).updated (env.updated_openBody type owner parameters place node)

end Environment

open Environment in
theorem Accepts.housed {env : Environment} {setting : Setting} {mods : LeadingModifiers}
    {head : Token} {tail : List Token} {accepted : Accepted}
    (accepts : Accepts env setting mods head tail accepted) (wellFormed : env.WellFormed)
    (housed : env.Housed) : accepted.environment.Housed := by
  have here := housed.currentModule
  cases accepts with
  | @moduleDeclared name id modules _ _ _ _ added =>
      have continues := ModuleTree.continues_addChild here name.lexeme
      have child := ModuleTree.addChild_child here name.lexeme
      rw [added] at continues child
      have larger : ({ env with modules } : Environment).Housed := housed.modules continues
      refine larger.push _ rfl (larger.arena.children _ _ _ child).1 nofun fun outer around => ?_
      rw [ModuleTree.ancestors_child larger.arena child]
      exact List.mem_cons_of_mem _ around
  | moduleEntered _ _ _ _ child =>
      refine housed.push _ rfl (housed.arena.children _ _ _ child).1 nofun fun outer around => ?_
      rw [ModuleTree.ancestors_child housed.arena child]
      exact List.mem_cons_of_mem _ around
  | @classDeclared name c _ _ _ _ free fresh =>
      have named : c.name = name.lexeme := by rw [fresh]
      have adds := ModuleTree.addsName_insertClass here c
      have larger : ({ env with modules := env.modules.insertClass env.currentModule c } :
          Environment).Housed := housed.modules (ModuleTree.continues_of_adds adds (by simp [named, free]))
      refine larger.push _ rfl larger.currentModule ?_ fun _ around => around
      rintro _ _ same
      cases same
      exact (adds _ _ _).mpr (.inr ⟨rfl, rfl, rfl⟩)
  | classEntered _ _ _ _ found =>
      refine housed.push _ rfl here ?_ fun _ around => around
      rintro _ _ same
      cases same
      rw [((wellFormed.modules.members _).classes _ _ found).named]
      exact Option.isSome_of_eq_some found
  | @enumDeclared name e _ _ _ _ free fresh =>
      have named : e.name = name.lexeme := by rw [fresh]
      have adds := ModuleTree.addsName_insertEnum here e
      have larger : ({ env with modules := env.modules.insertEnum env.currentModule e } :
          Environment).Housed := housed.modules (ModuleTree.continues_of_adds adds (by simp [named, free]))
      refine larger.push _ rfl larger.currentModule ?_ fun _ around => around
      rintro _ _ same
      cases same
      exact (adds _ _ _).mpr (.inr ⟨rfl, rfl, rfl⟩)
  | enumEntered _ _ _ _ found =>
      refine housed.push _ rfl here ?_ fun _ around => around
      rintro _ _ same
      cases same
      rw [((wellFormed.modules.members _).enums _ _ found).named]
      exact Option.isSome_of_eq_some found
  | membersDeclared _ _ frame _ added =>
      refine housed.scopes (homes_modifyCurrent ?_)
      rw [show env.scopes.current.frame = _ from frame]
      simp [Frame.home?, name_addMembers added]
  | constructorDeclared _ _ frame =>
      refine housed.scopes (homes_modifyCurrent ?_)
      rw [show env.scopes.current.frame = _ from frame]
      rfl
  | functionDeclared _ _ _ _ _ _ added => exact housed.addFunction? added
  | nativeDeclared _ _ _ _ _ added => exact housed.addFunction? added
  | functionOpened | constructorOpened => exact housed.openBody _ _ _ _ _
  | conditional | doLoop => exact housed.pushBlock _ _ _
  | forLoop _ _ _ defines _ advances =>
      have stepped := ((housed.pushBlock _ _ _).defines defines).updated advances.updated
      simp only [List.foldl_cons, List.foldl_nil]
      exact (((stepped.append _).append _).append _).pushBlock _ _ _
  | returned | exited =>
      exact housed.scopes (homes_modifyCurrent (by cases env.scopes.current.frame <;> rfl))
  | used => exact housed.updated (env.updated_use _)
  | libraryEnded => exact housed.continues (ModuleTree.continues_refl _) (List.Sublist.refl _)
  | variableDefined _ _ _ _ defines => exact housed.defines defines
  | assigned _ _ _ assigns => exact housed.updated assigns.updated
  | _ => exact housed

namespace Environment

variable {env after : Environment} {setting : Setting}

theorem Housed.pop (housed : env.Housed) {scope : Scope} {scopes : ScopeStack}
    (popped : env.scopes.pop? = some (scope, scopes)) :
    ({ env with scopes } : Environment).Housed :=
  housed.continues (ModuleTree.continues_refl _)
    (by rw [homes_of_pop? popped]; exact List.sublist_append_right _ _)

-- A type that is closed has its name already.
theorem Housed.closes (housed : env.Housed) {scope : Scope} {scopes : ScopeStack} {id : ModuleId}
    {kind : NameKind} {name : String} {f : Members → Members}
    (popped : env.scopes.pop? = some (scope, scopes))
    (home : scope.frame.home? = some ⟨id, some (kind, name)⟩)
    (adds : id.index < env.modules.size →
      env.modules.AddsName (env.modules.modifyMembers id f) id kind name) :
    ({ env with scopes, modules := env.modules.modifyMembers id f } : Environment).Housed := by
  have member : ⟨id, some (kind, name)⟩ ∈ env.homes := by
    rw [homes_of_pop? popped, home]
    exact List.mem_append_left _ (by simp)
  have same := (adds (housed.inside _ member)).same (housed.declared _ member kind name rfl)
  exact (housed.pop popped).modules (ModuleTree.continues_of_same same)

theorem Housed.shifts (wellFormed : env.WellFormed) (housed : env.Housed)
    (shifts : env.Shifts setting after) : after.Housed := by
  cases shifts with
  | reads first rest =>
      generalize read : env.statement setting first rest = outcome
      obtain ⟨after, result⟩ := outcome
      cases result with
      | ok =>
          obtain ⟨mods, head, tail, _, accepts⟩ := statement_accepts read
          exact accepts.housed wellFormed housed
      | error =>
          rcases statement_rejects_members read with rfl | ⟨_, id, e, extended, frame, added, rfl⟩
          · exact housed
          · obtain ⟨names, repeated, added, _⟩ := added
            refine housed.scopes (homes_modifyCurrent ?_)
            rw [show env.scopes.current.frame = _ from frame]
            simp [Frame.home?, name_addMembers added]
  | warns =>
      exact housed.scopes (homes_modifyCurrent (by cases env.scopes.current.frame <;> rfl))
  | appends node => exact housed.append node
  | recovers head node =>
      have pushed : (env.push (AnalysisState.recoveryFrame env head) node).Housed := by
        unfold AnalysisState.recoveryFrame
        split
        all_goals try exact housed.pushBlock _ _ _
        split
        next => exact housed.pushBlock _ _ _
        next => exact housed.push _ rfl housed.currentModule nofun fun _ around => around
      exact pushed.continues (ModuleTree.continues_refl _) (List.Sublist.refl _)
  | drops popped => exact housed.pop popped
  | closesClass popped frame =>
      exact housed.closes popped (by rw [frame]; rfl) fun inside =>
        ModuleTree.addsName_insertClass inside _
  | closesEnum popped frame =>
      exact housed.closes popped (by rw [frame]; rfl) fun inside =>
        ModuleTree.addsName_insertEnum inside _
  | @closesBody scope scopes b owner popped =>
      have same := env.modules.sameNames_attachBody scope.node owner
      obtain ⟨id, f, attached⟩ := env.modules.attachBody_modifies scope.node owner
      rw [attached] at same ⊢
      exact (housed.pop popped).modules (ModuleTree.continues_of_same same)

end Environment

namespace Analysis

variable {setting : Setting} {modules : ModuleTree} {log : DiagnosticLog} {tokens : List Token}

theorem startPass_housed (arena : modules.Arena) (apart : modules.TypesApart) :
    (startPass setting modules log tokens).environment.Housed := by
  have homes : (startPass setting modules log tokens).environment.homes = [⟨ModuleTree.root, none⟩] :=
    rfl
  refine ⟨arena, apart, ?_, ?_, ?_⟩
  · rw [homes]
    intro h member
    rw [List.mem_singleton.mp member]
    exact arena.root
  · rw [homes]
    intro h member
    rw [List.mem_singleton.mp member]
    nofun
  · rw [homes]
    exact List.pairwise_singleton _ _

theorem housed_of_evolves {s : AnalysisState} (wellFormed : modules.WellFormed)
    (arena : modules.Arena) (apart : modules.TypesApart)
    (evolves : (startPass setting modules log tokens).Evolves s) : s.environment.Housed :=
  (evolves.keeps (P := fun env => env.WellFormed ∧ env.Housed)
    (fun _ _ shifts holds => ⟨holds.1.shifts shifts, holds.2.shifts holds.1 shifts⟩)
    ⟨startPass_wellFormed setting wellFormed log tokens, startPass_housed arena apart⟩).2

theorem typesApart_empty : ModuleTree.empty.TypesApart := by
  intro id name ofClass
  unfold ModuleTree.names Module.names at ofClass
  rw [(ModuleTree.get_empty id).1] at ofClass
  cases ofClass

theorem housed_of_declarations {host : Host} {s : AnalysisState}
    (evolves : (startPass ⟨.declarations, host⟩ .empty log tokens).Evolves s) :
    s.environment.Housed :=
  housed_of_evolves ModuleTree.wellFormed_empty ModuleTree.arena_empty typesApart_empty evolves

-- Whatever the tokens are, scopes are nested as modules are after any number of statements of
-- either pass.
theorem scopes_housed (host : Host) (maxErrors : Nat) (tokens : List Token) (count : Nat) :
    let first : Setting := ⟨.declarations, host⟩
    let second : Setting := ⟨.bodies, host⟩
    let declared := runPass first .empty { maxErrors } tokens
    ((startPass first .empty { maxErrors } tokens).steps count).environment.Housed ∧
      ((startPass second declared.environment.modules declared.log tokens).steps
        count).environment.Housed := by
  intro first second declared
  have known : declared.environment.Housed :=
    housed_of_declarations (runPass_evolves first .empty { maxErrors } tokens)
  have wellFormed := (runPass_wellFormed first ModuleTree.wellFormed_empty { maxErrors } tokens).modules
  exact ⟨housed_of_declarations (AnalysisState.steps_evolves count _),
    housed_of_evolves wellFormed known.arena known.apart (AnalysisState.steps_evolves count _)⟩

end Analysis

end MiLanguage
