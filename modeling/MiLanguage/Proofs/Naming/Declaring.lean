import MiLanguage.Proofs.Naming.Scopes
import MiLanguage.Proofs.Naming.Statement
import MiLanguage.Proofs.Passes.Lockstep
import MiLanguage.Proofs.Statement.Names

set_option autoImplicit false

namespace MiLanguage

variable {env : Environment} {t : ModuleTree} {id : ModuleId}

namespace ModuleTree

theorem named_empty : empty.Named := by
  intro id inside inner
  obtain ⟨index⟩ := id
  have first : index = 0 := by
    simp only [size, empty, List.length_singleton] at inside
    omega
  exact absurd (congrArg ModuleId.mk first) inner

theorem Named.modifyMembers (named : t.Named) (id : ModuleId) (f : Members → Members) :
    (t.modifyMembers id f).Named := by
  intro other inside inner
  rw [(t.get_modifyMembers id other f).1]
  exact named other (by simpa using inside) inner

theorem Named.addChild (named : t.Named) {name : String} (nonempty : name ≠ "") :
    (t.addChild id name).2.Named := by
  intro other within inner
  cases found : t.child? id name with
  | some child =>
      rw [addChild_of_found found] at within ⊢
      exact named other within inner
  | none =>
      rw [size_addChild found] at within
      rw [(get_addChild found other).1]
      split
      next => exact nonempty
      next => exact named other (by omega) inner

end ModuleTree

namespace Environment

-- What is in sight outside of functions.
def sight (env : Environment) : Sight where
  path := env.declared.pathSegments env.currentModule
  owner := env.frame.class?.map fun found => found.2.label

/-- Whatever is declared so far refers to what is declared so far. -/
structure Coherent (env : Environment) : Prop where
  arena : env.modules.Arena
  offers : env.modules.Offers env.declared
  known : env.declared.Known env.modules
  «class» : ∀ id c, env.frame = .class id c → c.Known env.declared id
  enum : ∀ id e, env.frame = .enum id e → e.origin.module = id

/-- What a statement of the first pass leaves: more declarations, which are coherent again. -/
structure Adds (env after : Environment) : Prop where
  coherent : after.Coherent
  offers : env.declared.Offers after.declared

theorem frames_of_outside (outside : Title.Outside env.titles) :
    ∃ outer, env.scopes.all = env.scopes.current :: outer ∧
      ∀ scope ∈ outer, scope.frame.isModule = true := by
  obtain ⟨outer, all, _⟩ := env.scopes.all_eq_current
  refine ⟨outer, all, ?_⟩
  intro scope member
  have kept := discard_of_outside outside scope (by rw [all]; simp [member])
  obtain ⟨top, below, titles, _, modules, _⟩ := outside
  have module : scope.title.isModule = true := by
    apply modules
    rw [Environment.titles, all, List.map_cons, List.cons.injEq] at titles
    rw [← titles.2]
    exact List.mem_map_of_mem member
  unfold Scope.title at module
  rw [if_neg (by simp [kept])] at module
  exact isModule_of_title module

theorem currentModule_of_class {c : ClassDeclaration} (frame : env.frame = .class id c) :
    env.currentModule = id := by
  obtain ⟨below, all, _⟩ := env.scopes.all_eq_current
  unfold Environment.currentModule ScopeStack.currentModule
  unfold Environment.frame at frame
  rw [all, List.findSome?_cons, frame]
  rfl

theorem sight_of_class {c : ClassDeclaration} (frame : env.frame = .class id c) :
    env.sight = env.declared.outline id (some c.label) := by
  unfold sight ModuleTree.outline
  rw [currentModule_of_class frame, frame]
  rfl

-- A class is open innermost or not at all.
theorem Outer.class?_eq (outer : env.Outer) : env.scopes.class? = env.frame.class? := by
  obtain ⟨below, all, modules⟩ := frames_of_outside outer.outside
  have bare : ∀ scope ∈ below, scope.frame.class? = none := by
    intro scope member
    have module := modules scope member
    cases frame : scope.frame <;> first | rfl | (rw [frame] at module; cases module)
  show env.scopes.all.findSome? (·.frame.class?) = _
  rw [all, List.findSome?_cons, List.findSome?_eq_none_iff.mpr bare]
  unfold Environment.frame
  cases env.scopes.current.frame.class? <;> rfl

theorem Outer.frame_of_class? (outer : env.Outer) {c : ClassDeclaration}
    (around : env.scopes.class? = some (id, c)) : env.frame = .class id c := by
  rw [outer.class?_eq] at around
  cases frame : env.frame <;> simp_all [Frame.class?]

theorem Coherent.stands (coherent : env.Coherent) (outer : env.Outer) :
    Stands env.declared false env.scopes.all env.sight := by
  obtain ⟨below, all, modules⟩ := frames_of_outside outer.outside
  have bare := isBlock_of_outside outer.outside
  have classes : env.scopes.all.findSome? (·.frame.class?) = env.frame.class? := outer.class?_eq
  have outside : env.scopes.all.any (·.frame.isFunction) = false := by
    rw [List.any_eq_false]
    intro scope member
    rw [all] at member
    rcases List.mem_cons.mp member with rfl | member
    · unfold Environment.frame at bare
      cases frame : env.scopes.current.frame <;> simp_all [Frame.isBlock, Frame.block?,
        Frame.isFunction, Frame.blockKind?]
    · have module := modules scope member
      cases frame : scope.frame <;> simp_all [Frame.isModule, Frame.isFunction, Frame.blockKind?]
  refine ⟨rfl, ?_, ?_, outside.symm, ?_, ?_, ?_, ?_, ?_, ?_⟩
  · rw [classes]
    rfl
  · intro id c found
    have frame : env.frame = .class id c := outer.frame_of_class? found
    have path : env.declared.pathSegments id = env.sight.path := by
      rw [sight_of_class frame]
      rfl
    exact ⟨path, coherent.class id c frame, c, (outer.updateClass frame c rfl).2.2.2, c.offers_refl,
      by simp⟩
  · intro inside
    cases inside
  · intro scope member
    rw [all] at member
    cases member
    exact bare.symm
  · intro scope member isModule
    rw [all] at member
    cases member
    unfold sight Environment.frame
    cases frame : env.scopes.current.frame <;> simp_all [Frame.isModule, Frame.class?]
  · intro name
    rw [lookupIn_outside outside]
    rfl
  · intro l member
    cases member
  · intro l member
    cases member

theorem Coherent.lists (coherent : env.Coherent) (outer : env.Outer) {owner : Owner}
    {functions : FunctionTable} (lists : env.Lists owner functions) :
    functions = env.declared.functionsOf owner ∧ functions.Known env.declared owner := by
  cases lists with
  | module id =>
      refine ⟨?_, (coherent.known id).functions⟩
      unfold ModuleTree.functionsOf Environment.declared
      cases env.frame with
      | «class» | enum =>
          simp only [ModuleTree.insertClass, ModuleTree.insertEnum, ModuleTree.members_modifyMembers]
          split
          next here => rw [here.1]
          next => rfl
      | _ => rfl
  | @«class» id c around =>
      have frame : env.frame = .class id c := outer.frame_of_class? around
      refine ⟨?_, (coherent.class id c frame).methods⟩
      rw [ModuleTree.functionsOf, (outer.updateClass frame c rfl).2.2.2]
      rfl

theorem inside_of_outer (outer : env.Outer) : env.currentModule.index < env.modules.size := by
  rw [← env.size_declared]
  exact outer.currentModule_lt

theorem Coherent.sees (coherent : env.Coherent) (outer : env.Outer) :
    env.Sees env.declared false env.sight where
  arena := coherent.arena
  offers := coherent.offers
  offered := nofun
  known := coherent.known
  here := inside_of_outer outer
  inside id c found := by
    obtain ⟨_, _, d, there, _⟩ := (coherent.stands outer).class id c found
    rw [← env.size_declared]
    exact ModuleTree.inside_of_class there
  stands := coherent.stands outer

section Module

variable (isModule : env.frame.isModule = true)

include isModule

theorem coherent_of_isModule (arena : env.modules.Arena) (known : env.modules.Known env.modules) :
    env.Coherent := by
  have same := declared_of_isModule isModule
  refine ⟨arena, ?_, ?_, ?_, ?_⟩
  · rw [same]
    exact env.modules.offers_refl
  · rw [same]
    exact known
  · intro id c frame
    rw [frame] at isModule
    cases isModule
  · intro id e frame
    rw [frame] at isModule
    cases isModule

theorem coherent_of_modules {modules : ModuleTree} (arena : modules.Arena)
    (known : modules.Known modules) : ({ env with modules } : Environment).Coherent := by
  have isModule' : ({ env with modules } : Environment).frame.isModule = true := isModule
  exact coherent_of_isModule isModule' arena known

theorem Coherent.ofModule (coherent : env.Coherent) : env.modules.Known env.modules := by
  have known := coherent.known
  rw [declared_of_isModule isModule] at known
  exact known

theorem sight_of_isModule : env.sight = env.modules.outline env.currentModule none := by
  unfold sight ModuleTree.outline
  rw [declared_of_isModule isModule]
  cases frame : env.frame <;> first | rfl | (rw [frame] at isModule; cases isModule)

end Module

theorem Coherent.openModule {name : String} {n : Node} {modules : ModuleTree}
    (coherent : env.Coherent) (outer : env.Outer) (isModule : env.frame.isModule = true)
    (added : env.modules.addChild env.currentModule name = (id, modules)) :
    env.Adds (Environment.push { env with modules } (.module id) n) := by
  have known := coherent.ofModule isModule
  have inside := inside_of_outer outer
  have grown : modules = (env.modules.addChild env.currentModule name).2 := by rw [added]
  have offers := ModuleTree.offers_addChild coherent.arena inside name
  refine ⟨coherent_of_isModule rfl ?_ ?_, ?_⟩
  · show modules.Arena
    rw [grown]
    exact coherent.arena.addChild inside name
  · show modules.Known modules
    rw [grown]
    exact (known.offers offers (Nat.le_refl _)).addChild _ _
  · show env.declared.Offers modules
    rw [declared_of_isModule isModule, grown]
    exact offers

theorem known_fresh {c : ClassDeclaration} (home : c.origin.module = id) (fields : c.fields = .empty)
    (methods : c.methods = .empty) (constructor : c.constructor = none) : c.Known t id where
  origin := home
  fields name v found := by
    rw [fields] at found
    cases found
  methods := by
    rw [methods]
    exact FunctionTable.known_empty
  constructor f found := by
    rw [constructor] at found
    cases found

theorem Coherent.openClass {c : ClassDeclaration} {n : Node} (coherent : env.Coherent)
    (isModule : env.frame.isModule = true)
    (free : (env.modules.get env.currentModule).nameTaken c.name = false)
    (fresh : ∀ t, c.Known t env.currentModule) :
    env.Adds (Environment.push { env with modules := env.modules.insertClass env.currentModule c }
      (.class env.currentModule c) n) := by
  have known := coherent.ofModule isModule
  have declared : (Environment.push
      { env with modules := env.modules.insertClass env.currentModule c }
      (.class env.currentModule c) n).declared = env.modules.insertClass env.currentModule c :=
    ModuleTree.insertClass_insertClass rfl _ _
  have offers : env.modules.Offers (env.modules.insertClass env.currentModule c) := by
    apply ModuleTree.offers_insertClass
    intro d found
    rw [ModuleTree.class?, isFree_class free] at found
    cases found
  refine ⟨⟨?_, ?_, ?_, ?_, ?_⟩, ?_⟩
  · show (env.modules.insertClass env.currentModule c).Arena
    exact coherent.arena.modifyMembers _ _
  · rw [declared]
    exact ModuleTree.offers_refl _
  · rw [declared]
    exact (known.offers offers (Nat.le_refl _)).modifyMembers fun members =>
      members.insertClass (fresh _)
  · intro _ _ same
    cases same
    exact fresh _
  · intro _ _ same
    cases same
  · rw [declared, declared_of_isModule isModule]
    exact offers

theorem Coherent.openEnum {e : EnumDeclaration} {n : Node} (coherent : env.Coherent)
    (isModule : env.frame.isModule = true)
    (free : (env.modules.get env.currentModule).nameTaken e.name = false)
    (home : e.origin.module = env.currentModule) :
    env.Adds (Environment.push { env with modules := env.modules.insertEnum env.currentModule e }
      (.enum env.currentModule e) n) := by
  have known := coherent.ofModule isModule
  have declared : (Environment.push
      { env with modules := env.modules.insertEnum env.currentModule e }
      (.enum env.currentModule e) n).declared = env.modules.insertEnum env.currentModule e :=
    ModuleTree.insertEnum_insertEnum rfl _ _
  have offers : env.modules.Offers (env.modules.insertEnum env.currentModule e) := by
    apply ModuleTree.offers_insertEnum
    intro d found
    unfold Module.nameTaken SymbolTable.contains at free
    simp only [Bool.or_eq_false_iff, Option.isSome_eq_false_iff, Option.isNone_iff_eq_none] at free
    rw [ModuleTree.enum?, free.1.2] at found
    cases found
  refine ⟨⟨?_, ?_, ?_, ?_, ?_⟩, ?_⟩
  · show (env.modules.insertEnum env.currentModule e).Arena
    exact coherent.arena.modifyMembers _ _
  · rw [declared]
    exact ModuleTree.offers_refl _
  · rw [declared]
    exact (known.offers offers (Nat.le_refl _)).modifyMembers fun members =>
      members.insertEnum home
  · intro _ _ same
    cases same
  · intro _ _ same
    cases same
    exact home
  · rw [declared, declared_of_isModule isModule]
    exact offers

-- The class that is open may get fields and functions.
theorem Coherent.updateClass {c : ClassDeclaration} (coherent : env.Coherent)
    (outer : env.Outer) (frame : env.frame = .class id c) (new : ClassDeclaration)
    (grown : c.Offers new)
    (known : ∀ t, env.declared.Offers t → t.pathSegments id = env.declared.pathSegments id →
      new.Known t id) :
    env.Adds { env with scopes := env.scopes.modifyCurrent ({ · with frame := .class id new }) } := by
  obtain ⟨_, declared, _, found⟩ := outer.updateClass frame new grown.name
  have offers : env.declared.Offers (env.declared.insertClass id new) := by
    apply ModuleTree.offers_insertClass
    intro d there
    rw [grown.name, found] at there
    cases there
    exact grown
  refine ⟨⟨coherent.arena, ?_, ?_, ?_, ?_⟩, by rw [declared]; exact offers⟩
  · rw [declared]
    exact coherent.offers.trans offers
  · rw [declared]
    exact coherent.known.offers offers (Nat.le_of_eq env.size_declared.symm)
  · intro other d same
    rw [frame_modifyCurrent] at same
    cases same
    rw [declared]
    exact known _ offers (ModuleTree.pathSegments_modifyMembers _ _ _ _)
  · intro other e same
    rw [frame_modifyCurrent] at same
    cases same

theorem Coherent.updateEnum {e new : EnumDeclaration} (coherent : env.Coherent)
    (outer : env.Outer) (frame : env.frame = .enum id e) (name : new.name = e.name)
    (grown : e.Offers new) :
    env.Adds { env with scopes := env.scopes.modifyCurrent ({ · with frame := .enum id new }) } := by
  obtain ⟨_, declared⟩ := outer.updateEnum frame name
  have old : env.declared = env.modules.insertEnum id e := by
    unfold Environment.declared
    rw [frame]
  have offers : env.declared.Offers (env.declared.insertEnum id new) := by
    apply ModuleTree.offers_insertEnum
    intro d there
    rw [old, ModuleTree.insertEnum, ModuleTree.enum?_modifyMembers] at there
    split at there
    next inside =>
      rw [SymbolTable.find?_insert, if_pos name] at there
      cases there
      exact grown
    next outside =>
      have inside := outer.inside (.enum id) (by
        have title := (title_frame outer.outside).2.2
        rw [frame] at title
        exact List.mem_of_mem_head? title) id rfl
      rw [env.size_declared] at inside
      exact absurd ⟨rfl, inside⟩ outside
  refine ⟨⟨coherent.arena, ?_, ?_, ?_, ?_⟩, by rw [declared]; exact offers⟩
  · rw [declared]
    exact coherent.offers.trans offers
  · rw [declared]
    exact coherent.known.offers offers (Nat.le_of_eq env.size_declared.symm)
  · intro other d same
    rw [frame_modifyCurrent] at same
    cases same
  · intro other d same
    rw [frame_modifyCurrent] at same
    cases same
    rw [grown.origin]
    exact coherent.enum id e frame

theorem Coherent.definition {mods : LeadingModifiers} {h : Header} {body : FunctionBody}
    (coherent : env.Coherent) (outer : env.Outer) (introduced : h.Introduced env) :
    (env.definition mods h body).Known env.declared := by
  have sees := coherent.sees outer
  refine ⟨?_, ?_⟩
  · show env.declared.Knows h.returnType
    rcases introduced.returnType with void | ⟨place, spells⟩
    · rw [void]
      exact ModuleTree.knows_primitive _ _ _
    · exact (sees.spells spells).1
  · intro p member
    obtain ⟨q, inside, rfl⟩ := List.mem_map.mp member
    obtain ⟨_, _, _, _, _, _, spells, _⟩ := (introduced.parameters q inside).shown
    exact (sees.spells spells).1

theorem Coherent.addFunction? {f : FunctionDefinition} {after : Environment}
    (coherent : env.Coherent) (outer : env.Outer)
    (host : (env.frame.isModule || env.frame.isClass) = true) (owner : f.owner = env.owner)
    (known : f.Known env.declared) (added : env.addFunction? f = some after) : env.Adds after := by
  unfold Environment.addFunction? at added
  rw [owner] at added
  cases isModule : env.frame.isModule with
  | true =>
      have module : env.owner = .module env.currentModule := by
        unfold Environment.owner
        cases frame : env.frame <;> first | rfl | (rw [frame] at isModule; cases isModule)
      rw [module] at added owner
      obtain ⟨modules, grown, rfl⟩ := Option.map_eq_some_iff.mp added
      have all := coherent.ofModule isModule
      rw [declared_of_isModule isModule] at known
      have offers := ModuleTree.offers_addFunction? grown
      have known' :=
        (all.offers offers (Nat.le_refl _)).addFunction? (known.offers offers) owner grown
      obtain ⟨functions, _, rfl⟩ := Option.map_eq_some_iff.mp grown
      refine ⟨coherent_of_modules isModule (coherent.arena.modifyMembers _ _) known', ?_⟩
      rw [declared_of_isModule isModule, declared_of_isModule (by exact isModule)]
      exact offers
  | false =>
      rw [isModule, Bool.false_or] at host
      cases frame : env.frame with
      | «class» id c =>
          have inClass : env.owner = .inClass id c.name := by
            unfold Environment.owner
            rw [frame]
          rw [inClass] at owner
          rw [inClass, class?_of_frame frame] at added
          simp only [Option.bind_eq_bind, Option.bind_eq_some_iff] at added
          obtain ⟨methods, grown, scopes, changed, same⟩ := added
          cases same
          rw [outer.modifyClass? frame] at changed
          cases changed
          apply coherent.updateClass outer frame { c with methods }
            ⟨rfl, rfl, rfl, c.fields.offers_refl, FunctionTable.offers_add? grown⟩
          intro t offers path
          have old := (coherent.class id c frame).offers
            (ModuleTree.inside_of_class (outer.updateClass frame c rfl).2.2.2) offers
          exact ⟨old.origin, old.fields, old.methods.add? (known.offers offers) owner grown,
            old.constructor⟩
      | _ => rw [frame] at host; cases host

theorem Coherent.declareVariable? {placement : Placement} {v : Variable}
    {place typeToken name : Token} {mods : LeadingModifiers} {after : Environment}
    (coherent : env.Coherent) (outer : env.Outer) (placed : env.placement place = .ok placement)
    (introduces : env.Introduces typeToken name mods v)
    (added : env.declareVariable? placement v = some after) : env.Adds after := by
  have outside := isBlock_of_outside outer.outside
  have known := ((coherent.sees outer).introduces introduces).1
  have home : v.origin.module = env.currentModule := by
    rw [introduces.origin]
    rfl
  have global : env.frame.isModule = true → env.declareVariable? .global v = some after →
      env.Adds after := by
    intro isModule added
    unfold Environment.declareVariable? at added
    dsimp only at added
    split at added
    next => cases added
    next free =>
      cases added
      have all := coherent.ofModule isModule
      rw [declared_of_isModule isModule, sight_of_isModule isModule] at known
      have fresh : (env.modules.get env.currentModule).members.globals.find? v.name = none := by
        unfold Module.nameTaken SymbolTable.contains at free
        simp only [Bool.or_eq_true, not_or, Option.not_isSome_iff_eq_none] at free
        exact free.1.1.1
      have offers := ModuleTree.offers_insertVariable fresh
      refine ⟨coherent_of_modules isModule (coherent.arena.modifyMembers _ _) ?_, by
        rw [declared_of_isModule isModule, declared_of_isModule (by exact isModule)]
        exact offers⟩
      apply (all.offers offers (Nat.le_refl _)).modifyMembers
      intro members
      apply members.insertVariable _ home
      unfold ModuleTree.outline at known ⊢
      rw [ModuleTree.insertVariable, ModuleTree.pathSegments_modifyMembers]
      exact known.offers rfl offers
  unfold Environment.placement at placed
  cases frame : env.frame with
  | module =>
      simp only [frame] at placed
      cases placed
      exact global (by rw [frame]; rfl) added
  | parent =>
      simp only [frame, Checked.bind_eq_ok] at placed
      obtain ⟨_, _, same⟩ := placed
      cases same
      exact global (by rw [frame]; rfl) added
  | «class» id c =>
      simp only [frame] at placed
      cases placed
      unfold Environment.declareVariable? at added
      dsimp only at added
      split at added
      next => cases added
      next free =>
        rw [outer.modifyClass? frame] at added
        cases added
        have fresh : c.fields.find? v.name = none := by
          simpa [class?_of_frame frame, SymbolTable.contains] using free
        apply coherent.updateClass outer frame { c with fields := c.fields.insert v.name v }
          ⟨rfl, rfl, rfl, SymbolTable.offers_insert fresh, c.methods.offers_refl⟩
        intro t offers path
        have old := (coherent.class id c frame).offers
          (ModuleTree.inside_of_class (outer.updateClass frame c rfl).2.2.2) offers
        refine ⟨old.origin, ?_, old.methods, old.constructor⟩
        intro name w found
        rw [SymbolTable.find?_insert] at found
        split at found
        next =>
          cases found
          rw [sight_of_class frame] at known
          unfold ModuleTree.outline at known ⊢
          rw [path]
          exact known.offers rfl offers
        next => exact old.fields name w found
  | block => rw [frame] at outside; cases outside
  | enum => simp [frame] at placed

end Environment

section Accepted

variable {setting : Setting} {mods : LeadingModifiers} {head : Token} {tail : List Token}
  {accepted : Accepted}

-- What a statement declares refers to what is declared before it, or along with it.
theorem Accepts.adds (accepts : Accepts env setting mods head tail accepted)
    (pass : setting.declaring = true) (outer : env.Outer) (coherent : env.Coherent) :
    env.Adds accepted.environment := by
  have building : ¬setting.declaring = false := by simp [pass]
  have bare : ¬env.frame.isBlock = true := by
    simp [Environment.isBlock_of_outside outer.outside]
  cases accepts with
  | moduleDeclared kind titled isModule _ added => exact coherent.openModule outer isModule added
  | classDeclared _ _ isModule _ free fresh =>
      apply coherent.openClass isModule
      · rw [fresh]
        exact free
      · rw [fresh]
        exact fun t => Environment.known_fresh rfl rfl rfl rfl
  | enumDeclared _ _ isModule _ free fresh =>
      apply coherent.openEnum isModule
      · rw [fresh]
        exact free
      · rw [fresh]
        rfl
  | membersDeclared _ _ frame _ added =>
      rw [Environment.addMembers_eq added]
      exact coherent.updateEnum outer frame rfl ⟨rfl, rfl, List.subset_append_left _ _⟩
  | functionDeclared _ _ host _ read _ added =>
      exact coherent.addFunction? outer host rfl
        (coherent.definition outer (Header.read_introduced read)) added
  | nativeDeclared _ _ host _ read added =>
      exact coherent.addFunction? outer host rfl
        (coherent.definition outer (Header.read_introduced read)) added
  | @constructorDeclared id c h _ _ _ frame _ _ _ list =>
      have sees := coherent.sees outer
      apply coherent.updateClass outer frame
        { c with constructor := some (constructorDefinition id c mods h) }
        ⟨rfl, rfl, rfl, c.fields.offers_refl, c.methods.offers_refl⟩
      intro t offers path
      have old := (coherent.class id c frame).offers
        (ModuleTree.inside_of_class (outer.updateClass frame c rfl).2.2.2) offers
      refine ⟨old.origin, old.fields, old.methods, ?_⟩
      rintro _ same
      cases same
      refine ⟨t.knows_primitive _ _, ?_⟩
      intro p member
      obtain ⟨q, inside, rfl⟩ := List.mem_map.mp member
      obtain ⟨_, _, _, _, _, _, spells, _⟩ :=
        ((Parameter.readList_introduced list).1.1 q inside).shown
      exact offers.knows (sees.spells spells).1
  | libraryEnded =>
      exact ⟨⟨coherent.arena, coherent.offers, coherent.known, coherent.class, coherent.enum⟩,
        env.declared.offers_refl⟩
  | variableDefined _ _ placed _ defines =>
      obtain ⟨_, _, introduces, added⟩ := defines
      exact coherent.declareVariable? outer placed introduces added
  | moduleEntered _ _ _ entering => exact absurd entering building
  | classEntered _ _ _ entering => exact absurd entering building
  | classMissing _ _ _ entering => exact absurd entering building
  | enumEntered _ _ _ entering => exact absurd entering building
  | enumMissing _ _ _ entering => exact absurd entering building
  | membersKept _ _ _ entering => exact absurd entering building
  | functionOpened _ _ _ entering => exact absurd entering building
  | nativeKept _ _ _ entering => exact absurd entering building
  | constructorOpened _ _ _ entering => exact absurd entering building
  | variableKept _ _ _ entering => exact absurd entering building
  | conditional _ _ block => exact absurd block bare
  | doLoop _ _ block => exact absurd block bare
  | forLoop _ _ block => exact absurd block bare
  | returned _ _ block => exact absurd block bare
  | exited _ _ block => exact absurd block bare
  | used _ _ block => exact absurd block bare
  | called _ _ block => exact absurd block bare
  | assigned _ _ block => exact absurd block bare

end Accepted

end MiLanguage
