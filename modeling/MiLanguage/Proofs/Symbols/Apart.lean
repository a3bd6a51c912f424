import MiLanguage.Proofs.Naming.Qualified
import MiLanguage.Proofs.Naming.Run
import MiLanguage.Proofs.Symbols.Run

set_option autoImplicit false

namespace MiLanguage

/-- What has a name to itself in its module. Functions are overloaded. -/
inductive NameKind where
  | global | «class» | enum | module
  deriving DecidableEq, Repr

def Module.names (m : Module) : NameKind → String → Bool
  | .global => m.members.globals.contains
  | .class => m.members.classes.contains
  | .enum => m.members.enums.contains
  | .module => m.children.contains

theorem Module.nameTaken_iff (m : Module) (name : String) :
    m.nameTaken name = true ↔ ∃ kind, m.names kind name = true := by
  simp only [nameTaken, Bool.or_eq_true]
  constructor
  · rintro (((global | isClass) | enum) | module)
    · exact ⟨.global, global⟩
    · exact ⟨.class, isClass⟩
    · exact ⟨.enum, enum⟩
    · exact ⟨.module, module⟩
  · rintro ⟨kind, named⟩
    cases kind with
    | global => exact .inl (.inl (.inl named))
    | «class» => exact .inl (.inl (.inr named))
    | enum => exact .inl (.inr named)
    | module => exact .inr named

theorem SymbolTable.contains_insert {α : Type} (t : SymbolTable α) (name other : String) (a : α) :
    (t.insert name a).contains other = true ↔ t.contains other = true ∨ other = name := by
  unfold contains
  rw [find?_insert]
  split
  next same => simp [same]
  next other => simp [other]

namespace ModuleTree

variable {t old new : ModuleTree} {id parent : ModuleId} {kind : NameKind} {name : String}

def names (t : ModuleTree) (id : ModuleId) : NameKind → String → Bool := (t.get id).names

-- The same modules have the same names.
def SameNames (old new : ModuleTree) : Prop :=
  ∀ id kind name, new.names id kind name = true ↔ old.names id kind name = true

-- The names of `new` are those of `old` and one besides.
def AddsName (old new : ModuleTree) (id : ModuleId) (kind : NameKind) (name : String) : Prop :=
  ∀ id' kind' name', new.names id' kind' name' = true ↔
    old.names id' kind' name' = true ∨ (id' = id ∧ kind' = kind ∧ name' = name)

theorem AddsName.same (adds : old.AddsName new id kind name)
    (named : old.names id kind name = true) : old.SameNames new := by
  intro id' kind' name'
  rw [adds id' kind' name']
  constructor
  · rintro (there | ⟨rfl, rfl, rfl⟩)
    · exact there
    · exact named
  · exact .inl

theorem names_modifyMembers (inside : id.index < t.size) (f : Members → Members) (other : ModuleId)
    (kind : NameKind) (name : String) :
    (t.modifyMembers id f).names other kind name =
      if other = id then ({ t.get id with members := f (t.get id).members } : Module).names kind name
      else t.names other kind name := by
  unfold names modifyMembers
  rw [get_modify t id other _ inside]
  split <;> rfl

theorem addsName_modifyMembers (inside : id.index < t.size) {f : Members → Members}
    (here : ∀ kind' name',
      ({ t.get id with members := f (t.get id).members } : Module).names kind' name' = true ↔
        t.names id kind' name' = true ∨ (kind' = kind ∧ name' = name)) :
    t.AddsName (t.modifyMembers id f) id kind name := by
  intro id' kind' name'
  rw [names_modifyMembers inside]
  split
  next same => rw [here, same]; simp
  next other => simp [other]

theorem addsName_insertVariable (inside : id.index < t.size) (v : Variable) :
    t.AddsName (t.insertVariable id v) id .global v.name := by
  refine addsName_modifyMembers inside fun kind name => ?_
  cases kind <;> simp [names, Module.names, SymbolTable.contains_insert]

theorem addsName_insertClass (inside : id.index < t.size) (c : ClassDeclaration) :
    t.AddsName (t.insertClass id c) id .class c.name := by
  refine addsName_modifyMembers inside fun kind name => ?_
  cases kind <;> simp [names, Module.names, SymbolTable.contains_insert]

theorem addsName_insertEnum (inside : id.index < t.size) (e : EnumDeclaration) :
    t.AddsName (t.insertEnum id e) id .enum e.name := by
  refine addsName_modifyMembers inside fun kind name => ?_
  cases kind <;> simp [names, Module.names, SymbolTable.contains_insert]

theorem addsName_addChild (inside : parent.index < t.size) (name : String) :
    t.AddsName (t.addChild parent name).2 parent .module name := by
  intro id kind name'
  unfold names Module.names
  rw [members_addChild]
  cases kind with
  | module =>
      have found := child?_addChild inside name id name'
      unfold child? at found
      simp only [SymbolTable.contains, found]
      split
      next same => simp [same]
      next other => simpa using fun first second => absurd ⟨first, second⟩ other
  | global | «class» | enum => simp

theorem sameNames_addFunction? {f : FunctionDefinition} (inside : id.index < t.size)
    (added : t.addFunction? id f = some new) : t.SameNames new := by
  obtain ⟨functions, _, rfl⟩ := Option.map_eq_some_iff.mp added
  intro id' kind name
  rw [names_modifyMembers inside]
  split
  next same =>
    rw [same]
    cases kind <;> rfl
  next => rfl

theorem Built.sameNames (built : old.Built new) : old.SameNames new := by
  obtain ⟨offers, offered⟩ := built.agrees
  have fills := built.fills
  intro id kind name
  unfold names Module.names SymbolTable.contains
  cases kind with
  | global =>
      simp only [Option.isSome_iff_exists]
      constructor
      · rintro ⟨v, found⟩
        obtain ⟨_, found⟩ := (offered.members id).globals name v found
        exact ⟨_, found⟩
      · rintro ⟨v, found⟩
        obtain ⟨_, found⟩ := (offers.members id).globals name v found
        exact ⟨_, found⟩
  | «class» => exact iff_of_eq (congrArg (· = true) (fills.classes id name))
  | enum => exact iff_of_eq (congrArg (· = true) (fills.enums id name))
  | module =>
      have children := fills.children id name
      unfold child? at children
      dsimp only
      rw [children]

end ModuleTree

namespace Environment

variable {env after : Environment} {setting : Setting}

/-- What a statement of the first pass makes of the names. A module alone may take one that
something else has. -/
inductive Claims (env after : Environment) : Prop
  | none : env.declared.SameNames after.declared → Claims env after
  | member (id : ModuleId) (kind : NameKind) (name : String) :
      (env.declared.get id).nameTaken name = false →
      env.declared.AddsName after.declared id kind name → Claims env after
  | module {id : ModuleId} {name : String} :
      env.declared = env.modules → after.declared = after.modules →
      env.modules.AddsName after.modules id .module name → Claims env after

theorem Outer.claims_class {id : ModuleId} {c : ClassDeclaration} (outer : env.Outer)
    (frame : env.frame = .class id c) (new : ClassDeclaration) (name : new.name = c.name) :
    env.Claims { env with
      scopes := env.scopes.modifyCurrent ({ · with frame := .class id new }) } := by
  obtain ⟨_, declared, inside, found⟩ := outer.updateClass frame new name
  have adds := ModuleTree.addsName_insertClass inside new
  refine .none ?_
  rw [declared]
  refine adds.same ?_
  rw [name]
  exact Option.isSome_of_eq_some found

theorem Outer.claims_enum {id : ModuleId} {e : EnumDeclaration} (outer : env.Outer)
    (frame : env.frame = .enum id e) (new : EnumDeclaration) (name : new.name = e.name) :
    env.Claims { env with
      scopes := env.scopes.modifyCurrent ({ · with frame := .enum id new }) } := by
  obtain ⟨_, declared⟩ := outer.updateEnum frame name
  have current : env.declared = env.modules.insertEnum id e := by
    unfold Environment.declared
    rw [frame]
  have inside : id.index < env.declared.size := by
    have title := (title_frame outer.outside).2.2
    rw [frame] at title
    exact outer.inside (.enum id) (List.mem_of_mem_head? title) id rfl
  have inside' := inside
  rw [env.size_declared] at inside'
  refine .none ?_
  rw [declared]
  refine (ModuleTree.addsName_insertEnum inside new).same ?_
  rw [current, name]
  exact (ModuleTree.addsName_insertEnum inside' e id .enum e.name).mpr (.inr ⟨rfl, rfl, rfl⟩)

theorem Outer.claims_function {f : FunctionDefinition} (outer : env.Outer)
    (host : (env.frame.isModule || env.frame.isClass) = true) (owner : f.owner = env.owner)
    (added : env.addFunction? f = some after) : env.Claims after := by
  unfold Environment.addFunction? at added
  rw [owner] at added
  cases frame : env.frame with
  | parent | module =>
      have isModule : env.frame.isModule = true := by rw [frame]; rfl
      simp only [Environment.owner, frame] at added
      obtain ⟨modules, grown, rfl⟩ := Option.map_eq_some_iff.mp added
      refine .none ?_
      rw [declared_of_isModule isModule, declared_of_isModule (by exact isModule)]
      exact ModuleTree.sameNames_addFunction? (inside_of_outer outer) grown
  | «class» id c =>
      simp only [Environment.owner, frame, class?_of_frame frame] at added
      obtain ⟨methods, _, added⟩ := Option.bind_eq_some_iff.mp added
      obtain ⟨scopes, changed, same⟩ := Option.bind_eq_some_iff.mp added
      cases same
      rw [outer.modifyClass? frame] at changed
      cases changed
      exact outer.claims_class frame { c with methods } rfl
  | enum | block => simp [frame, Frame.isModule, Frame.isClass, Frame.class?] at host

theorem Outer.claims_variable {placement : Placement} {v : Variable} {place : Token}
    (outer : env.Outer) (placed : env.placement place = .ok placement)
    (added : env.declareVariable? placement v = some after) : env.Claims after := by
  cases placement with
  | global =>
      have isModule : env.frame.isModule = true := by
        unfold Environment.placement at placed
        cases frame : env.frame <;> first | rfl | simp [frame] at placed
      simp only [Environment.declareVariable?] at added
      split at added
      next => cases added
      next free =>
        cases added
        have declared := declared_of_isModule isModule
        refine .member env.currentModule .global v.name ?_ ?_
        · rw [declared]
          exact Bool.eq_false_iff.mpr free
        · rw [declared, declared_of_isModule (by exact isModule)]
          exact ModuleTree.addsName_insertVariable (inside_of_outer outer) v
  | field =>
      obtain ⟨id, c, frame⟩ := class_of_placement placed
      simp only [Environment.declareVariable?] at added
      split at added
      next => cases added
      next =>
        obtain ⟨scopes, changed, rfl⟩ := Option.map_eq_some_iff.mp added
        rw [outer.modifyClass? frame] at changed
        cases changed
        exact outer.claims_class frame { c with fields := c.fields.insert v.name v } rfl
  | inBlock =>
      have bare := isBlock_of_outside outer.outside
      unfold Environment.placement at placed
      cases frame : env.frame <;> simp_all [Frame.isBlock, Frame.block?]

end Environment

open Environment in
theorem Accepts.claims {env : Environment} {setting : Setting} {mods : LeadingModifiers}
    {head : Token} {tail : List Token} {accepted : Accepted}
    (accepts : Accepts env setting mods head tail accepted) (pass : setting.declaring = true)
    (outer : env.Outer) : env.Claims accepted.environment := by
  have building : ¬setting.declaring = false := by simp [pass]
  have bare : ¬env.frame.isBlock = true := by simp [isBlock_of_outside outer.outside]
  have inside := inside_of_outer outer
  cases accepts with
  | @moduleDeclared name id modules _ _ isModule _ added =>
      have adds := ModuleTree.addsName_addChild inside name.lexeme
      rw [added] at adds
      exact .module (declared_of_isModule isModule) rfl adds
  | @classDeclared name c _ _ isModule _ free fresh =>
      have declared := declared_of_isModule isModule
      have named : c.name = name.lexeme := by rw [fresh]
      refine .member env.currentModule .class c.name ?_ ?_
      · rw [declared, named]
        exact free
      · rw [declared]
        have again := ModuleTree.insertClass_insertClass (c := c) rfl env.modules env.currentModule
        have adds := ModuleTree.addsName_insertClass inside c
        rw [← again] at adds
        exact adds
  | @enumDeclared name e _ _ isModule _ free fresh =>
      have declared := declared_of_isModule isModule
      have named : e.name = name.lexeme := by rw [fresh]
      refine .member env.currentModule .enum e.name ?_ ?_
      · rw [declared, named]
        exact free
      · rw [declared]
        have again := ModuleTree.insertEnum_insertEnum (e := e) rfl env.modules env.currentModule
        have adds := ModuleTree.addsName_insertEnum inside e
        rw [← again] at adds
        exact adds
  | membersDeclared _ _ frame _ added =>
      exact outer.claims_enum frame _ (name_addMembers added)
  | functionDeclared _ _ host _ _ _ added => exact outer.claims_function host rfl added
  | nativeDeclared _ _ host _ _ added => exact outer.claims_function host rfl added
  | constructorDeclared _ _ frame => exact outer.claims_class frame _ rfl
  | libraryEnded => exact .none fun _ _ _ => Iff.rfl
  | variableDefined _ _ placed _ defines =>
      obtain ⟨_, _, _, added⟩ := defines
      exact outer.claims_variable placed added
  | moduleEntered _ _ _ entering => exact absurd entering building
  | classEntered _ _ _ entering => exact absurd entering building
  | classMissing _ _ _ entering => exact absurd entering building
  | enumEntered _ _ _ entering => exact absurd entering building
  | enumMissing _ _ _ entering => exact absurd entering building
  | membersKept _ _ _ entering => exact absurd entering building
  | functionOpened _ _ _ entering => exact absurd entering building
  | nativeKept _ _ _ entering => exact absurd entering building
  | constructorOpened _ _ _ entering => exact absurd entering building
  | variableKept _ _ _ entering => exact absurd entering building
  | conditional _ _ block => exact absurd block bare
  | doLoop _ _ block => exact absurd block bare
  | forLoop _ _ block => exact absurd block bare
  | returned _ _ block => exact absurd block bare
  | exited _ _ block => exact absurd block bare
  | used _ _ block => exact absurd block bare
  | called _ _ block => exact absurd block bare
  | assigned _ _ block => exact absurd block bare

namespace AnalysisState

variable {s t last : AnalysisState}

theorem Coherent.claims (coherent : s.Coherent) (moves : s.Moves t) :
    s.environment.Claims t.environment := by
  obtain ⟨pass, idle, outer, _⟩ := coherent
  have reads : ∀ {head : Token} {tail : List Token} {mods : LeadingModifiers}
      {warned : Environment} {accepted : Accepted}, s.environment.Warned warned →
      Accepts warned s.setting mods head tail accepted →
      s.environment.Claims (accepted.settled s.setting) := by
    intro head tail mods warned accepted warns accepts
    cases warns.eq_of_outside outer.outside
    rw [Environment.settled_declaring pass]
    exact accepts.claims pass outer
  cases moves with
  | completes _ waiting =>
      rw [idle] at waiting
      cases waiting
  | closes _ _ _ _ popped closes =>
      obtain ⟨_, _, declared, _⟩ := closes.outside outer.outside popped
      refine .none ?_
      rw [declared pass]
      exact fun _ _ _ => Iff.rfl
  | accepts _ _ _ _ warns _ accepts => exact reads warns accepts
  | skips _ _ _ _ warns _ accepts => exact reads warns accepts

end AnalysisState

/-- On the way from `old` to `new` a module is opened for the first time, where something else has its
name. -/
structure ModuleTree.OpensOver (old new : ModuleTree) (id : ModuleId) (name : String) : Prop where
  taken : (old.get id).nameTaken name = true
  fresh : old.names id .module name = false
  opened : new.names id .module name = true

namespace Environment

variable {env after : Environment} {id : ModuleId} {kind kind' : NameKind} {name : String}

theorem Claims.keeps (claims : env.Claims after) (named : env.declared.names id kind name = true) :
    after.declared.names id kind name = true := by
  cases claims with
  | none same => exact (same id kind name).mpr named
  | member _ _ _ _ adds => exact (adds id kind name).mpr (.inl named)
  | module before later adds =>
      rw [before] at named
      rw [later]
      exact (adds id kind name).mpr (.inl named)

theorem nameTaken_of_names {t : ModuleTree} (named : t.names id kind name = true) :
    (t.get id).nameTaken name = true :=
  (Module.nameTaken_iff _ _).mpr ⟨kind, named⟩

theorem Claims.collides (claims : env.Claims after) (differ : kind ≠ kind')
    (first : after.declared.names id kind name = true)
    (second : after.declared.names id kind' name = true) :
    (env.declared.names id kind name = true ∧ env.declared.names id kind' name = true) ∨
      ((kind = .module ∨ kind' = .module) ∧ env.modules.OpensOver after.modules id name) := by
  cases claims with
  | none same => exact .inl ⟨(same _ _ _).mp first, (same _ _ _).mp second⟩
  | member _ _ _ free adds =>
      rcases (adds _ _ _).mp first with first | ⟨rfl, rfl, rfl⟩
      · rcases (adds _ _ _).mp second with second | ⟨rfl, rfl, rfl⟩
        · exact .inl ⟨first, second⟩
        · rw [nameTaken_of_names first] at free
          cases free
      · rcases (adds _ _ _).mp second with second | ⟨_, rfl, _⟩
        · rw [nameTaken_of_names second] at free
          cases free
        · exact absurd rfl differ
  | module before later adds =>
      rw [before]
      have opens : ∀ {kind}, env.modules.names id kind name = true → kind ≠ .module →
          after.modules.names id .module name = true →
          env.modules.names id .module name = true ∨
            env.modules.OpensOver after.modules id name := by
        intro kind named _ opened
        cases fresh : env.modules.names id .module name with
        | true => exact .inl rfl
        | false => exact .inr ⟨nameTaken_of_names named, fresh, opened⟩
      rw [later] at first second
      rcases (adds _ _ _).mp first with old | ⟨rfl, rfl, rfl⟩
      · rcases (adds _ _ _).mp second with old' | ⟨rfl, rfl, rfl⟩
        · exact .inl ⟨old, old'⟩
        · rcases opens old differ second with same | opens
          · exact .inl ⟨old, same⟩
          · exact .inr ⟨.inr rfl, opens⟩
      · rcases (adds _ _ _).mp second with old' | ⟨_, rfl, _⟩
        · rcases opens old' differ.symm first with same | opens
          · exact .inl ⟨same, old'⟩
          · exact .inr ⟨.inl rfl, opens⟩
        · exact absurd rfl differ

theorem Outer.names_declared (outer : env.Outer) (named : env.modules.names id kind name = true) :
    env.declared.names id kind name = true := by
  cases frame : env.frame with
  | «class» id' c =>
      have inside := (outer.updateClass frame c rfl).2.2.1
      rw [env.size_declared] at inside
      unfold declared
      rw [frame]
      exact (ModuleTree.addsName_insertClass inside c _ _ _).mpr (.inl named)
  | enum id' e =>
      have title := (title_frame outer.outside).2.2
      rw [frame] at title
      have inside := outer.inside (.enum id') (List.mem_of_mem_head? title) id' rfl
      rw [env.size_declared] at inside
      unfold declared
      rw [frame]
      exact (ModuleTree.addsName_insertEnum inside e _ _ _).mpr (.inl named)
  | parent | module | block =>
      unfold declared
      rw [frame]
      exact named

end Environment

namespace AnalysisState

variable {start s t last : AnalysisState} {id : ModuleId} {kind kind' : NameKind} {name : String}

-- Some step of the pass opens a module over something else of its name.
def OpensOver (start : AnalysisState) (id : ModuleId) (name : String) : Prop :=
  ∃ count t, (start.steps count).step = some t ∧
    (start.steps count).environment.modules.OpensOver t.environment.modules id name

theorem Leads.count (leads : s.Leads t) : ∃ count, s.steps count = t := by
  induction leads using Relation.ReflTransGen.head_induction_on with
  | refl => exact ⟨0, rfl⟩
  | head step _ ih =>
      obtain ⟨count, reached⟩ := ih
      refine ⟨count + 1, ?_⟩
      unfold steps
      rw [step.1]
      exact reached

-- Any number of steps of a pass without errors is a part of the pass.
theorem Leads.steps (leads : s.Leads last) (ended : last.remaining = []) (count : Nat) :
    s.Leads (s.steps count) := by
  induction count generalizing s with
  | zero => exact .refl
  | succ count ih =>
      unfold AnalysisState.steps
      cases stepped : s.step with
      | none => exact .refl
      | some t =>
          rcases Relation.ReflTransGen.cases_head leads with rfl | ⟨u, step, later⟩
          · rw [step_eq_none_iff.mpr ended] at stepped
            cases stepped
          · rw [step.1] at stepped
            cases stepped
            exact .head step (ih later)

theorem Leads.keeps_names (coherent : s.Coherent) (leads : s.Leads t)
    (named : s.environment.declared.names id kind name = true) :
    t.environment.declared.names id kind name = true := by
  induction leads with
  | refl => exact named
  | tail earlier step ih =>
      exact ((coherent.leads earlier).1.claims step.moves).keeps ih

theorem Leads.collides (coherent : start.Coherent) (leads : start.Leads last)
    (apart : ∀ kind, start.environment.declared.names id kind name = false) (differ : kind ≠ kind')
    (first : last.environment.declared.names id kind name = true)
    (second : last.environment.declared.names id kind' name = true) :
    (kind = .module ∨ kind' = .module) ∧ start.OpensOver id name := by
  induction leads with
  | refl =>
      rw [apart kind] at first
      cases first
  | @tail s t earlier step ih =>
      have claims := (coherent.leads earlier).1.claims step.moves
      rcases claims.collides differ first second with ⟨first, second⟩ | ⟨module, opens⟩
      · exact ih first second
      · obtain ⟨count, rfl⟩ := Leads.count earlier
        exact ⟨module, count, t, step.1, opens⟩

theorem OpensOver.collides (coherent : start.Coherent) (leads : start.Leads last)
    (ended : last.remaining = []) (opens : start.OpensOver id name) :
    last.environment.declared.names id .module name = true ∧
      ∃ kind, kind ≠ .module ∧ last.environment.declared.names id kind name = true := by
  obtain ⟨count, t, stepped, taken, fresh, opened⟩ := opens
  have reached := leads.steps ended count
  generalize start.steps count = s at stepped taken fresh opened reached
  obtain ⟨step, later⟩ : CleanStep s t ∧ t.Leads last := by
    rcases Relation.ReflTransGen.cases_head (reached.to_end leads ended) with rfl | ⟨u, step, later⟩
    · rw [step_eq_none_iff.mpr ended] at stepped
      cases stepped
    · obtain rfl : u = t := Option.some.inj (step.1.symm.trans stepped)
      exact ⟨step, later⟩
  have before := (coherent.leads reached).1
  have after := (before.moves step.moves).1
  refine ⟨later.keeps_names after (after.outer.names_declared opened), ?_⟩
  obtain ⟨kind, named⟩ := (Module.nameTaken_iff _ _).mp taken
  refine ⟨kind, ?_, Leads.keeps_names before (.head step later) (before.outer.names_declared named)⟩
  rintro rfl
  have named : s.environment.modules.names id .module name = true := named
  rw [fresh] at named
  cases named

end AnalysisState

namespace ModuleTree

variable {t : ModuleTree} {id other : ModuleId} {kind : NameKind} {name name' : String}

theorem WellFormed.plain_of_names (wellFormed : t.WellFormed) (member : kind ≠ .module)
    (named : t.names id kind name = true) : id.index < t.size ∧ isDotted name = false := by
  have members := wellFormed.members id
  unfold names Module.names SymbolTable.contains at named
  cases kind with
  | module => exact absurd rfl member
  | global =>
      obtain ⟨v, found⟩ := Option.isSome_iff_exists.mp named
      have fits := members.globals name v found
      exact ⟨inside_of_global found, fits.named ▸ fits.plain⟩
  | «class» =>
      obtain ⟨c, found⟩ := Option.isSome_iff_exists.mp named
      have fits := members.classes name c found
      exact ⟨inside_of_class found, fits.named ▸ fits.plain⟩
  | enum =>
      obtain ⟨e, found⟩ := Option.isSome_iff_exists.mp named
      have fits := members.enums name e found
      exact ⟨inside_of_enum found, fits.named ▸ fits.plain⟩

theorem inside_of_overloads {f : FunctionDefinition} (found : f ∈ t.overloads id name) :
    id.index < t.size := by
  by_contra outside
  rw [overloads, get_of_size_le outside] at found
  cases found

end ModuleTree

namespace Analysis

variable {host : Host} {maxErrors : Nat} {tokens : List Token}

theorem built_of_ok (ok : (ofTokens host maxErrors tokens).isOk = true) :
    ∃ last, (declarationsStart host maxErrors tokens).Leads last ∧ last.remaining = [] ∧
      (declarationsStart host maxErrors tokens).Coherent ∧
      last.environment.declared.Built (ofTokens host maxErrors tokens).modules ∧
      (ofTokens host maxErrors tokens).modules.Arena := by
  obtain ⟨clean, _⟩ := isOk_iff.mp ok
  obtain ⟨leads, ended, closed, _⟩ := runPass_leads clean
  have coherent := coherent_start host maxErrors tokens
  have known := (known_of_firstPass clean).2
  rw [← declared_of_closed (coherent.leads leads).1.outer.outside closed] at known
  have keeps := (keeps_start clean).reaches coherent known (fun p _ _ => p.answers_unasked) (runPass_reaches rfl _ _ _)
  rw [ofTokens_eq clean]
  exact ⟨_, leads, ended, coherent, keeps.inStep.built, keeps.bounded.arena⟩

theorem labelled_of_ok (spelled : NoEmptyName tokens)
    (ok : (ofTokens host maxErrors tokens).isOk = true) :
    (ofTokens host maxErrors tokens).modules.Labelled := by
  obtain ⟨_, _, _, _, _, arena⟩ := built_of_ok ok
  exact ⟨arena, (names_denote host maxErrors tokens ok).2.2 spelled,
    (symbols_wellFormed host maxErrors tokens 0).2.2.plain⟩

theorem names_declarationsStart (id : ModuleId) (kind : NameKind) (name : String) :
    (declarationsStart host maxErrors tokens).environment.declared.names id kind name = false := by
  show (ModuleTree.empty.get id).names kind name = false
  obtain ⟨members, children⟩ := ModuleTree.get_empty id
  unfold Module.names
  rw [members, children]
  cases kind <;> rfl

-- Two things share a name in a module where a module has been opened over something else, and
-- nowhere else.
theorem collides_iff {id : ModuleId} {name : String}
    (ok : (ofTokens host maxErrors tokens).isOk = true) :
    let t := (ofTokens host maxErrors tokens).modules
    let start := declarationsStart host maxErrors tokens
    (∀ kind kind', kind ≠ kind' → t.names id kind name = true → t.names id kind' name = true →
        (kind = .module ∨ kind' = .module) ∧ start.OpensOver id name) ∧
      (start.OpensOver id name → t.names id .module name = true ∧
        ∃ kind, kind ≠ .module ∧ t.names id kind name = true) := by
  obtain ⟨last, leads, ended, coherent, built, _⟩ := built_of_ok ok
  have same := built.sameNames
  refine ⟨fun kind kind' differ first second => ?_, fun opens => ?_⟩
  · exact leads.collides coherent (fun kind => names_declarationsStart id kind name) differ
      ((same _ _ _).mp first) ((same _ _ _).mp second)
  · obtain ⟨module, kind, other, named⟩ := opens.collides coherent leads ended
    exact ⟨(same _ _ _).mpr module, kind, other, (same _ _ _).mpr named⟩

theorem ofSource_of_ok {text : String} {settings : Settings}
    (ok : (ofSource text settings host).isOk = true) :
    ∃ tokens, programTokens text settings.withLibrary = .ok tokens ∧
      ofSource text settings host = ofTokens host settings.maxErrors tokens := by
  unfold ofSource at ok ⊢
  cases read : programTokens text settings.withLibrary with
  | ok tokens => exact ⟨tokens, rfl, rfl⟩
  | error e =>
      rw [read] at ok
      simp [isOk, lexicalDiagnostic, DiagnosticLog.failed_report, Diagnostic.isError] at ok

/-- In an accepted text a name stands for one thing in its module, unless the first pass opens a
module over something else. Elsewhere no full name is the path of a module, and no method goes by the
full name of a function. -/
theorem names_apart (text : String) (settings : Settings) (host : Host)
    (ok : (ofSource text settings host).isOk = true) :
    ∃ tokens, programTokens text settings.withLibrary = .ok tokens ∧
      let t := (ofSource text settings host).modules
      let start := declarationsStart host settings.maxErrors tokens
      (∀ id name kind kind', kind ≠ kind' → t.names id kind name = true →
        t.names id kind' name = true →
        (kind = .module ∨ kind' = .module) ∧ start.OpensOver id name) ∧
      (∀ id name, start.OpensOver id name → t.names id .module name = true ∧
        ∃ kind, kind ≠ .module ∧ t.names id kind name = true) ∧
      (∀ id kind name, kind ≠ .module → t.names id kind name = true →
        ((∃ m, m.index < t.size ∧ m ≠ ModuleTree.root ∧ t.path m = t.qualify id name) ↔
          start.OpensOver id name)) ∧
      (∀ id className c f m g, t.class? id className = some c → f ∈ c.methods.overloads f.name →
        g ∈ t.overloads m g.name → t.qualifyFunction f = t.qualifyFunction g →
        f.name = g.name ∧ t.child? id className = some m ∧ start.OpensOver id className) := by
  obtain ⟨tokens, read, same⟩ := ofSource_of_ok ok
  refine ⟨tokens, read, ?_⟩
  rw [same] at ok ⊢
  intro t start
  have labelled := labelled_of_ok (noEmptyName_programTokens read) ok
  have wellFormed := (symbols_wellFormed host settings.maxErrors tokens 0).2.2
  have opened : ∀ {id kind name m}, kind ≠ .module → t.names id kind name = true →
      t.child? id name = some m → start.OpensOver id name := by
    intro id kind name m member named child
    exact ((collides_iff ok).1 kind .module member named (Option.isSome_of_eq_some child)).2
  refine ⟨fun id name => (collides_iff ok).1, fun id name => (collides_iff ok).2, ?_, ?_⟩
  · intro id kind name member named
    obtain ⟨inside, plain⟩ := wellFormed.plain_of_names member named
    constructor
    · rintro ⟨m, within, inner, path⟩
      exact opened member named ((labelled.path_eq_qualify_iff inside plain within inner).mp path)
    · intro opens
      obtain ⟨m, child⟩ := Option.isSome_iff_exists.mp ((collides_iff ok).2 opens).1
      obtain ⟨within, above, _⟩ := labelled.arena.children id name m child
      have inner : m ≠ ModuleTree.root := by
        rintro rfl
        rw [labelled.arena.rootless] at above
        cases above
      exact ⟨m, within, inner, (labelled.path_eq_qualify_iff inside plain within inner).mpr child⟩
  · intro id className c f m g found method function shared
    have named : t.names id .class className = true := Option.isSome_of_eq_some found
    obtain ⟨inside, plain⟩ := wellFormed.plain_of_names (by simp) named
    have fits := ((wellFormed.members id).classes className c found).methods.each _ f method
    have fits' := (wellFormed.members m).functions.each _ g function
    obtain ⟨names, child⟩ := (labelled.qualifyFunction_eq_iff fits.owned fits'.owned inside
      (ModuleTree.inside_of_overloads function) plain fits.plain fits'.plain).mp shared
    exact ⟨names, child, opened (by simp) named child⟩

theorem names_apart_beside :
    let text := "module a { class b { fn f { } } module c { fn f { } } }"
    let settings : Settings := { withLibrary := false }
    (ofSource text settings {}).isOk = true ∧ ∃ tokens, programTokens text false = .ok tokens ∧
      ∀ id name, (declarationsStart {} 100 tokens).OpensOver id name →
        (ofSource text settings {}).modules.names id .module name = true := by
  intro text settings
  have ok : (ofSource text settings {}).isOk = true := by decide +kernel
  obtain ⟨tokens, read, _, opened, _⟩ := names_apart text settings {} ok
  exact ⟨ok, tokens, read, fun id name opens => (opened id name opens).1⟩

/-- A module may be opened under the name of a class, though no class under that of a module. -/
theorem moduleOverClass_accepted :
    let above := ofSource "module a { class b { } module b { } }" { withLibrary := false } {}
    let below := ofSource "module a { module b { } class b { } }" { withLibrary := false } {}
    above.isOk = true ∧ above.modules.names ⟨1⟩ .class "b" = true ∧
      above.modules.names ⟨1⟩ .module "b" = true ∧
      above.modules.path ⟨2⟩ = above.modules.qualify ⟨1⟩ "b" ∧ below.isOk = false := by
  decide +kernel

end Analysis

end MiLanguage
