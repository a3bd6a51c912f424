import MiLanguage.Analysis.State
import MiLanguage.Proofs.Definitions
import MiLanguage.Proofs.Scope
import MiLanguage.Proofs.Statement.Header

set_option autoImplicit false

namespace MiLanguage

namespace SymbolTable

variable {α : Type} {P : String → α → Prop} {t : SymbolTable α} {name : String}

-- Whatever a name stands for is as `P` says.
def Each (P : String → α → Prop) (t : SymbolTable α) : Prop := ∀ name a, t.find? name = some a → P name a

theorem each_empty (P : String → α → Prop) : (empty : SymbolTable α).Each P := by simp [Each]

theorem Each.insert (each : t.Each P) {a : α} (holds : P name a) : (t.insert name a).Each P := by
  intro other b found
  rw [find?_insert] at found
  split at found
  next same =>
    cases found
    exact same ▸ holds
  next => exact each other b found

theorem Each.modify (each : t.Each P) {f : α → α} (keeps : ∀ a, P name a → P name (f a)) :
    (t.modify name f).Each P := by
  intro other b found
  rw [find?_modify] at found
  split at found
  next same =>
    obtain ⟨a, old, rfl⟩ := Option.map_eq_some_iff.mp found
    exact same ▸ keeps a (each name a old)
  next => exact each other b found

end SymbolTable

/-- A variable under its own name, declared in the module `home`. -/
structure Variable.WellFormed (home : ModuleId) (name : String) (v : Variable) : Prop where
  named : v.name = name
  plain : isDotted v.name = false
  origin : v.origin.module = home
  stored : v.type.Storable

structure FunctionParameter.WellFormed (p : FunctionParameter) : Prop where
  plain : isDotted p.name = false
  stored : p.type.Storable

structure FunctionDefinition.WellFormed (owner : Owner) (f : FunctionDefinition) : Prop where
  plain : isDotted f.name = false
  owned : f.owner = owner
  returns : f.returnType.isNull = false
  parameters : ∀ p ∈ f.parameters, p.WellFormed
  distinct : (f.parameters.map FunctionParameter.name).Nodup

/-- Functions of one owner, each an overload of its own name. -/
structure FunctionTable.WellFormed (owner : Owner) (t : FunctionTable) : Prop where
  nonempty : t.table.Each fun _ overloads => overloads ≠ []
  keyed : t.Keyed
  each : ∀ name, ∀ f ∈ t.overloads name, f.WellFormed owner

structure EnumDeclaration.WellFormed (home : ModuleId) (name : String) (e : EnumDeclaration) :
    Prop where
  named : e.name = name
  plain : isDotted e.name = false
  origin : e.origin.module = home
  members : ∀ m ∈ e.members, isDotted m = false
  distinct : e.members.Nodup

structure ClassDeclaration.WellFormed (home : ModuleId) (name : String) (c : ClassDeclaration) :
    Prop where
  named : c.name = name
  plain : isDotted c.name = false
  origin : c.origin.module = home
  fields : c.fields.Each (Variable.WellFormed home)
  methods : c.methods.WellFormed (.inClass home name)
  constructor : ∀ f, c.constructor = some f → f.name = "new" ∧ f.WellFormed (.inClass home name)

structure Members.WellFormed (home : ModuleId) (m : Members) : Prop where
  functions : m.functions.WellFormed (.module home)
  globals : m.globals.Each (Variable.WellFormed home)
  classes : m.classes.Each (ClassDeclaration.WellFormed home)
  enums : m.enums.Each (EnumDeclaration.WellFormed home)

structure ModuleTree.WellFormed (t : ModuleTree) : Prop where
  members : ∀ id, (t.get id).members.WellFormed id
  plain : ∀ id, isDotted (t.get id).name = false
  children : ∀ id, (t.get id).children.Each fun name _ => isDotted name = false

-- What a scope in the module `home` has declared so far.
def Frame.WellFormed (home : ModuleId) : Frame → Prop
  | .class id c => c.WellFormed id c.name
  | .enum id e => e.WellFormed id e.name
  | .block _ b => b.locals.Each fun name l => l.declaration.WellFormed home name
  | _ => True

-- The module that the innermost of some scopes is in.
def homeOf (scopes : List Scope) : ModuleId :=
  (scopes.findSome? (·.frame.moduleId?)).getD ModuleTree.root

def ScopesWellFormed : List Scope → Prop
  | [] => True
  | scope :: outer => scope.frame.WellFormed (homeOf (scope :: outer)) ∧ ScopesWellFormed outer

/-- The symbol table: what is registered in modules, and what the open scopes declare. -/
structure Environment.WellFormed (env : Environment) : Prop where
  modules : env.modules.WellFormed
  scopes : ScopesWellFormed env.scopes.all

theorem Variable.WellFormed.initialized {home : ModuleId} {name : String} {v : Variable}
    (wellFormed : v.WellFormed home name) :
    Variable.WellFormed home name { v with initialized := true } :=
  ⟨wellFormed.named, wellFormed.plain, wellFormed.origin, wellFormed.stored⟩

namespace FunctionTable

variable {t : FunctionTable} {owner : Owner} {f : FunctionDefinition}

theorem wellFormed_empty (owner : Owner) : empty.WellFormed owner :=
  ⟨SymbolTable.each_empty _, keyed_empty, by simp⟩

theorem WellFormed.add? {grown : FunctionTable} (wellFormed : t.WellFormed owner)
    (fits : f.WellFormed owner) (added : t.add? f = some grown) : grown.WellFormed owner := by
  refine ⟨?_, wellFormed.keyed.add? added, ?_⟩
  · unfold FunctionTable.add? at added
    split at added
    next => cases added
    next =>
      cases added
      exact wellFormed.nonempty.insert (by simp)
  · intro name g member
    rw [overloads_add? added, List.mem_append] at member
    rcases member with member | member
    · exact wellFormed.each name g member
    · split at member
      next =>
        rw [List.mem_singleton.mp member]
        exact fits
      next => cases member

theorem modifyFirst_ne_nil {p : FunctionDefinition → Bool}
    {g : FunctionDefinition → FunctionDefinition} {fs : List FunctionDefinition} (nonempty : fs ≠ []) :
    modifyFirst p g fs ≠ [] := by
  cases fs with
  | nil => exact absurd rfl nonempty
  | cons => unfold modifyFirst; split <;> simp

-- A function keeps its header when it gets its body.
theorem WellFormed.fill (wellFormed : t.WellFormed owner) (name : String) (types : List Datatype)
    (body : FunctionBody) : (t.modify name types ({ · with body })).WellFormed owner := by
  refine ⟨?_, ?_, ?_⟩
  · exact wellFormed.nonempty.modify fun _ => modifyFirst_ne_nil
  · exact wellFormed.keyed.modify (g := ({ · with body })) (fun _ => rfl) (fun _ => rfl) name types
  · intro other f member
    rw [overloads_modify] at member
    split at member
    next =>
      obtain ⟨h, inside, rfl | rfl⟩ := mem_modifyFirst member
      · exact wellFormed.each name _ inside
      · have header := wellFormed.each name h inside
        exact ⟨header.plain, header.owned, header.returns, header.parameters, header.distinct⟩
    next => exact wellFormed.each other f member

end FunctionTable

theorem ClassDeclaration.WellFormed.own {home : ModuleId} {name : String} {c : ClassDeclaration}
    (wellFormed : c.WellFormed home name) : c.WellFormed home c.name := by
  rw [wellFormed.named]
  exact wellFormed

namespace EnumDeclaration

variable {e extended : EnumDeclaration} {home : ModuleId} {name : String}

theorem WellFormed.own (wellFormed : e.WellFormed home name) : e.WellFormed home e.name := by
  rw [wellFormed.named]
  exact wellFormed

theorem WellFormed.addMember? {member : String} (wellFormed : e.WellFormed home name)
    (plain : isDotted member = false) (added : e.addMember? member = some extended) :
    extended.WellFormed home name := by
  unfold EnumDeclaration.addMember? hasMember at added
  split at added
  next => cases added
  next fresh =>
    cases added
    refine ⟨wellFormed.named, wellFormed.plain, wellFormed.origin, ?_, ?_⟩
    · simpa [or_imp, forall_and] using ⟨wellFormed.members, plain⟩
    · refine List.nodup_append.mpr ⟨wellFormed.distinct, by simp, ?_⟩
      intro old inside new same
      rw [List.mem_singleton.mp same]
      rintro rfl
      exact fresh (by simpa using inside)

theorem WellFormed.addMembers {names : List Token} {repeated : Option Token}
    (wellFormed : e.WellFormed home name) (plain : ∀ name ∈ names, isDotted name.lexeme = false)
    (added : Environment.addMembers e names = (extended, repeated)) :
    extended.WellFormed home name := by
  induction names generalizing e with
  | nil => cases added; exact wellFormed
  | cons first names ih =>
      unfold Environment.addMembers at added
      obtain ⟨here, later⟩ := List.forall_mem_cons.mp plain
      split at added
      next found => exact ih (wellFormed.addMember? here found) later added
      next => cases added; exact wellFormed

end EnumDeclaration

namespace Members

theorem wellFormed_empty (home : ModuleId) : Members.WellFormed home {} :=
  ⟨FunctionTable.wellFormed_empty _, SymbolTable.each_empty _, SymbolTable.each_empty _,
    SymbolTable.each_empty _⟩

end Members

namespace ModuleTree

variable {t : ModuleTree} {id : ModuleId}

theorem wellFormed_empty : empty.WellFormed := by
  refine ⟨fun id => ?_, fun id => ?_, fun id => ?_⟩
  · rw [(get_empty id).1]
    exact Members.wellFormed_empty id
  · obtain ⟨index⟩ := id
    cases index <;> rfl
  · rw [(get_empty id).2]
    exact SymbolTable.each_empty _

theorem WellFormed.modifyMembers {f : Members → Members} (wellFormed : t.WellFormed)
    (keeps : ∀ m, m.WellFormed id → (f m).WellFormed id) : (t.modifyMembers id f).WellFormed := by
  refine ⟨fun other => ?_, fun other => ?_, fun other => ?_⟩
  · rw [members_modifyMembers]
    split
    next same => exact same.1 ▸ keeps _ (wellFormed.members id)
    next => exact wellFormed.members other
  all_goals
    unfold ModuleTree.modifyMembers
    rw [get_modify_eq]
    split
  · exact wellFormed.plain id
  · exact wellFormed.plain other
  · exact wellFormed.children id
  · exact wellFormed.children other

theorem WellFormed.addChild (wellFormed : t.WellFormed) (parent : ModuleId) {name : String}
    (plain : isDotted name = false) : (t.addChild parent name).2.WellFormed := by
  unfold ModuleTree.addChild
  split
  next => exact wellFormed
  next =>
    have named : ∀ id, isDotted
        ((⟨t.modules ++ [{ name, parent := some parent }]⟩ : ModuleTree).get id).name = false := by
      intro id
      have old := wellFormed.plain id
      unfold get at old ⊢
      rw [List.getElem?_append]
      split
      next => exact old
      next => cases id.index - t.modules.length <;> first | exact plain | rfl
    refine ⟨fun id => ?_, fun id => ?_, fun id => ?_⟩
    all_goals
      dsimp only
      rw [get_modify_eq]
      split
    · next same => exact (get_append_fresh t name parent parent).1 ▸ same.1 ▸ wellFormed.members parent
    · exact (get_append_fresh t name parent id).1 ▸ wellFormed.members id
    · exact named parent
    · exact named id
    · dsimp only
      rw [(get_append_fresh t name parent parent).2]
      exact (wellFormed.children parent).insert plain
    · rw [(get_append_fresh t name parent id).2]
      exact wellFormed.children id

theorem WellFormed.insertVariable (wellFormed : t.WellFormed) {v : Variable}
    (fits : v.WellFormed id v.name) : (t.insertVariable id v).WellFormed :=
  wellFormed.modifyMembers fun _ members =>
    ⟨members.functions, members.globals.insert fits, members.classes, members.enums⟩

theorem WellFormed.insertClass (wellFormed : t.WellFormed) {c : ClassDeclaration}
    (fits : c.WellFormed id c.name) : (t.insertClass id c).WellFormed :=
  wellFormed.modifyMembers fun _ members =>
    ⟨members.functions, members.globals, members.classes.insert fits, members.enums⟩

theorem WellFormed.insertEnum (wellFormed : t.WellFormed) {e : EnumDeclaration}
    (fits : e.WellFormed id e.name) : (t.insertEnum id e).WellFormed :=
  wellFormed.modifyMembers fun _ members =>
    ⟨members.functions, members.globals, members.classes, members.enums.insert fits⟩

theorem WellFormed.addFunction? (wellFormed : t.WellFormed) {f : FunctionDefinition}
    {grown : ModuleTree} (fits : f.WellFormed (.module id))
    (added : t.addFunction? id f = some grown) : grown.WellFormed := by
  obtain ⟨functions, add, rfl⟩ := Option.map_eq_some_iff.mp added
  have table := (wellFormed.members id).functions.add? fits add
  exact wellFormed.modifyMembers fun _ members =>
    ⟨table, members.globals, members.classes, members.enums⟩

theorem WellFormed.modifyClass {f : ClassDeclaration → ClassDeclaration} (wellFormed : t.WellFormed)
    (keeps : ∀ name c, c.WellFormed id name → (f c).WellFormed id name) (name : String) :
    (t.modifyClass id name f).WellFormed :=
  wellFormed.modifyMembers fun _ members =>
    ⟨members.functions, members.globals, members.classes.modify (keeps name), members.enums⟩

theorem WellFormed.updated {new : ModuleTree} (wellFormed : t.WellFormed) (updated : t.Updated new) :
    new.WellFormed := by
  induction updated with
  | refl => exact wellFormed
  | marked id name _ ih =>
      exact ih.modifyMembers fun _ members =>
        ⟨members.functions, members.globals.modify fun _ v => v.initialized, members.classes,
          members.enums⟩

theorem WellFormed.attachBody (wellFormed : t.WellFormed) (body : Node) (owner : BodyOwner) :
    (AnalysisState.attachBody t body owner).WellFormed := by
  unfold AnalysisState.attachBody
  split
  next id name types =>
    exact wellFormed.modifyMembers fun _ members =>
      ⟨members.functions.fill name types _, members.globals, members.classes, members.enums⟩
  next id c name types =>
    refine wellFormed.modifyClass ?_ c
    exact fun _ c fits => ⟨fits.named, fits.plain, fits.origin, fits.fields,
      fits.methods.fill name types _, fits.constructor⟩
  next id c =>
    refine wellFormed.modifyClass ?_ c
    refine fun _ c fits => ⟨fits.named, fits.plain, fits.origin, fits.fields, fits.methods, ?_⟩
    intro f found
    obtain ⟨g, old, rfl⟩ := Option.map_eq_some_iff.mp found
    obtain ⟨named, header⟩ := fits.constructor g old
    exact ⟨named, header.plain, header.owned, header.returns, header.parameters, header.distinct⟩

end ModuleTree

end MiLanguage
