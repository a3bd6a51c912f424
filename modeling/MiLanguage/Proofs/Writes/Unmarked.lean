import MiLanguage.Proofs.Naming.Declared
import MiLanguage.Proofs.Passes.InStep
import MiLanguage.Proofs.Symbols.WellFormed

set_option autoImplicit false

namespace MiLanguage

-- No value but the one that it is declared with is noted.
def Variable.Unmarked (v : Variable) : Prop := v.initialized = v.value.isSome

def ClassDeclaration.Unmarked (c : ClassDeclaration) : Prop := c.fields.Each fun _ v => v.Unmarked

def Members.FieldsUnmarked (m : Members) : Prop := m.classes.Each fun _ c => c.Unmarked

structure Members.Unmarked (m : Members) : Prop where
  globals : m.globals.Each fun _ v => v.Unmarked
  classes : m.FieldsUnmarked

def ModuleTree.Unmarked (t : ModuleTree) : Prop := ∀ id, (t.get id).members.Unmarked

namespace ModuleTree

variable {t : ModuleTree} {id : ModuleId}

theorem unmarked_empty : empty.Unmarked := by
  intro id
  rw [(get_empty id).1]
  exact ⟨SymbolTable.each_empty _, SymbolTable.each_empty _⟩

theorem each_modifyMembers {P : Members → Prop} {f : Members → Members}
    (each : ∀ id, P (t.get id).members) (keeps : ∀ m, P m → P (f m)) (id other : ModuleId) :
    P ((t.modifyMembers id f).get other).members := by
  rw [members_modifyMembers]
  split
  next => exact keeps _ (each id)
  next => exact each other

theorem Unmarked.modifyMembers {f : Members → Members} (unmarked : t.Unmarked)
    (keeps : ∀ m, m.Unmarked → (f m).Unmarked) : (t.modifyMembers id f).Unmarked :=
  each_modifyMembers unmarked keeps id

theorem Unmarked.addChild (unmarked : t.Unmarked) (parent : ModuleId) (name : String) :
    (t.addChild parent name).2.Unmarked := by
  intro id
  rw [members_addChild]
  exact unmarked id

theorem Unmarked.insertVariable (unmarked : t.Unmarked) {v : Variable} (here : v.Unmarked) :
    (t.insertVariable id v).Unmarked :=
  unmarked.modifyMembers fun _ members => ⟨members.globals.insert here, members.classes⟩

theorem Unmarked.insertClass (unmarked : t.Unmarked) {c : ClassDeclaration} (here : c.Unmarked) :
    (t.insertClass id c).Unmarked :=
  unmarked.modifyMembers fun _ members => ⟨members.globals, members.classes.insert here⟩

theorem Unmarked.insertEnum (unmarked : t.Unmarked) (e : EnumDeclaration) :
    (t.insertEnum id e).Unmarked :=
  unmarked.modifyMembers fun _ members => ⟨members.globals, members.classes⟩

theorem Built.fields {new : ModuleTree} (built : t.Built new) (unmarked : t.Unmarked) :
    ∀ id, (new.get id).members.FieldsUnmarked := by
  induction built with
  | refl => exact fun id => (unmarked id).classes
  | marked id name _ ih =>
      refine each_modifyMembers ih ?_ id
      exact fun _ fields => fields
  | attached body owner _ ih =>
      unfold AnalysisState.attachBody
      split
      next id _ _ =>
        refine each_modifyMembers ih ?_ id
        exact fun _ fields => fields
      next id _ _ _ =>
        refine each_modifyMembers ih ?_ id
        exact fun _ fields => SymbolTable.Each.modify fields fun _ own => own
      next id _ =>
        refine each_modifyMembers ih ?_ id
        exact fun _ fields => SymbolTable.Each.modify fields fun _ own => own

end ModuleTree

namespace Environment

variable {env after : Environment} {id : ModuleId} {c : ClassDeclaration}

theorem unmarked_updateClass (unmarked : env.declared.Unmarked) (outer : env.Outer)
    (frame : env.frame = .class id c) (new : ClassDeclaration) (named : new.name = c.name)
    (here : c.Unmarked → new.Unmarked) :
    ({ env with scopes := env.scopes.modifyCurrent ({ · with frame := .class id new }) } :
      Environment).declared.Unmarked := by
  rw [(outer.updateClass frame new named).2.1]
  exact unmarked.insertClass (here ((unmarked id).classes _ _ (outer.updateClass frame c rfl).2.2.2))

theorem unmarked_addFunction? {f : FunctionDefinition} (unmarked : env.declared.Unmarked)
    (outer : env.Outer) (host : (env.frame.isModule || env.frame.isClass) = true)
    (owner : f.owner = env.owner) (added : env.addFunction? f = some after) :
    after.declared.Unmarked := by
  unfold Environment.addFunction? at added
  rw [owner] at added
  cases frame : env.frame with
  | parent | module =>
      have isModule : env.frame.isModule = true := by rw [frame]; rfl
      rw [show env.owner = .module env.currentModule by unfold Environment.owner; rw [frame]] at added
      obtain ⟨modules, grown, rfl⟩ := Option.map_eq_some_iff.mp added
      obtain ⟨functions, _, rfl⟩ := Option.map_eq_some_iff.mp grown
      rw [declared_of_isModule isModule] at unmarked
      rw [declared_of_isModule (by exact isModule)]
      exact unmarked.modifyMembers fun _ members => ⟨members.globals, members.classes⟩
  | «class» id c =>
      rw [show env.owner = .inClass id c.name by unfold Environment.owner; rw [frame],
        class?_of_frame frame] at added
      simp only [Option.bind_eq_bind, Option.bind_eq_some_iff] at added
      obtain ⟨methods, _, scopes, changed, same⟩ := added
      cases same
      rw [outer.modifyClass? frame] at changed
      cases changed
      exact unmarked_updateClass unmarked outer frame { c with methods } rfl fun fields => fields
  | _ => rw [frame] at host; cases host

theorem unmarked_declareVariable? {placement : Placement} {v : Variable} {place : Token}
    (unmarked : env.declared.Unmarked) (outer : env.Outer)
    (placed : env.placement place = .ok placement) (here : v.Unmarked)
    (added : env.declareVariable? placement v = some after) : after.declared.Unmarked := by
  have global : env.frame.isModule = true → env.declareVariable? .global v = some after →
      after.declared.Unmarked := by
    intro isModule added
    unfold Environment.declareVariable? at added
    dsimp only at added
    split at added
    next => cases added
    next =>
      cases added
      rw [declared_of_isModule isModule] at unmarked
      rw [declared_of_isModule (by exact isModule)]
      exact unmarked.insertVariable here
  unfold Environment.placement at placed
  cases frame : env.frame with
  | module =>
      simp only [frame] at placed
      cases placed
      exact global (by rw [frame]; rfl) added
  | parent =>
      simp only [frame, Checked.bind_eq_ok] at placed
      obtain ⟨_, _, same⟩ := placed
      cases same
      exact global (by rw [frame]; rfl) added
  | «class» id c =>
      simp only [frame] at placed
      cases placed
      unfold Environment.declareVariable? at added
      dsimp only at added
      split at added
      next => cases added
      next =>
        rw [outer.modifyClass? frame] at added
        cases added
        exact unmarked_updateClass unmarked outer frame
          { c with fields := c.fields.insert v.name v } rfl fun fields => fields.insert here
  | block =>
      have outside := isBlock_of_outside outer.outside
      rw [frame] at outside
      cases outside
  | enum => simp [frame] at placed

end Environment

-- What a statement of the first pass declares has no value yet but its own.
theorem Accepts.unmarked {env : Environment} {setting : Setting} {mods : LeadingModifiers}
    {head : Token} {tail : List Token} {accepted : Accepted}
    (accepts : Accepts env setting mods head tail accepted) (pass : setting.declaring = true)
    (outer : env.Outer) (unmarked : env.declared.Unmarked) :
    accepted.environment.declared.Unmarked := by
  have building : ¬setting.declaring = false := by simp [pass]
  have bare : ¬env.frame.isBlock = true := by
    simp [Environment.isBlock_of_outside outer.outside]
  have ofModule : env.frame.isModule = true → env.modules.Unmarked := by
    intro isModule
    rwa [Environment.declared_of_isModule isModule] at unmarked
  cases accepts with
  | @moduleDeclared name _ _ _ _ isModule _ added =>
      have grown := (ofModule isModule).addChild env.currentModule name.lexeme
      rw [added] at grown
      exact grown
  | classDeclared _ _ isModule _ _ fresh =>
      refine ModuleTree.Unmarked.insertClass ?_ ?_
      · refine (ofModule isModule).insertClass ?_
        rw [fresh]
        exact SymbolTable.each_empty _
      · rw [fresh]
        exact SymbolTable.each_empty _
  | enumDeclared _ _ isModule => exact ((ofModule isModule).insertEnum _).insertEnum _
  | membersDeclared _ _ frame _ added =>
      rw [(outer.updateEnum frame (Environment.name_addMembers added)).2]
      exact unmarked.insertEnum _
  | functionDeclared _ _ host _ _ _ added | nativeDeclared _ _ host _ _ added =>
      exact Environment.unmarked_addFunction? unmarked outer host rfl added
  | @constructorDeclared id c _ _ _ _ frame =>
      exact Environment.unmarked_updateClass unmarked outer frame { c with constructor := _ } rfl
        fun fields => fields
  | libraryEnded => exact unmarked
  | variableDefined _ _ placed _ defines =>
      obtain ⟨_, _, introduces, added⟩ := defines
      exact Environment.unmarked_declareVariable? unmarked outer placed introduces.initialized added
  | moduleEntered _ _ _ entering => exact absurd entering building
  | classEntered _ _ _ entering => exact absurd entering building
  | classMissing _ _ _ entering => exact absurd entering building
  | enumEntered _ _ _ entering => exact absurd entering building
  | enumMissing _ _ _ entering => exact absurd entering building
  | membersKept _ _ _ entering => exact absurd entering building
  | functionOpened _ _ _ entering => exact absurd entering building
  | nativeKept _ _ _ entering => exact absurd entering building
  | constructorOpened _ _ _ entering => exact absurd entering building
  | variableKept _ _ _ entering => exact absurd entering building
  | conditional _ _ block => exact absurd block bare
  | doLoop _ _ block => exact absurd block bare
  | forLoop _ _ block => exact absurd block bare
  | returned _ _ block => exact absurd block bare
  | exited _ _ block => exact absurd block bare
  | used _ _ block => exact absurd block bare
  | called _ _ block => exact absurd block bare
  | assigned _ _ block => exact absurd block bare

namespace AnalysisState

variable {s t : AnalysisState}

theorem Coherent.unmarked_moves (coherent : s.Coherent) (moves : s.Moves t)
    (unmarked : s.environment.declared.Unmarked) : t.environment.declared.Unmarked := by
  obtain ⟨pass, idle, outer, _⟩ := coherent
  have reads : ∀ {head : Token} {tail : List Token} {mods : LeadingModifiers}
      {warned : Environment} {accepted : Accepted}, s.environment.Warned warned →
      Accepts warned s.setting mods head tail accepted →
      (accepted.settled s.setting).declared.Unmarked := by
    intro head tail mods warned accepted warns accepts
    cases warns.eq_of_outside outer.outside
    rw [Environment.settled_declaring pass]
    exact accepts.unmarked pass outer unmarked
  cases moves with
  | completes _ waiting =>
      rw [idle] at waiting
      cases waiting
  | closes _ _ _ _ popped closes =>
      rw [(closes.outside outer.outside popped).2.2.1 pass]
      exact unmarked
  | accepts _ _ _ _ warns _ accepts => exact reads warns accepts
  | skips _ _ _ _ warns _ accepts => exact reads warns accepts

theorem Coherent.unmarked_leads (coherent : s.Coherent) (leads : s.Leads t)
    (unmarked : s.environment.declared.Unmarked) : t.environment.declared.Unmarked := by
  induction leads with
  | refl => exact unmarked
  | tail leads step ih => exact (coherent.leads leads).1.unmarked_moves step.moves ih

end AnalysisState

end MiLanguage
