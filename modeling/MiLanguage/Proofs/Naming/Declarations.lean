import MiLanguage.Proofs.FunctionTable
import MiLanguage.Proofs.Naming.Meaning

set_option autoImplicit false

namespace MiLanguage

variable {t old new modules : ModuleTree} {s : Sight} {id : ModuleId} {owner : Owner}

-- What is in sight between the functions of a module or a class.
def ModuleTree.outline (t : ModuleTree) (id : ModuleId) (owner : Option (String × FileId)) : Sight :=
  { path := t.pathSegments id, owner }

/-- The type of a variable is there, and so is what its initial value names. -/
structure Variable.Known (t : ModuleTree) (s : Sight) (v : Variable) : Prop where
  type : t.Knows v.type
  value : ∀ n, v.value = some n → n.Every fun m => m.kind.inExpression = true ∧ t.Finds s m

structure FunctionDefinition.Known (t : ModuleTree) (f : FunctionDefinition) : Prop where
  returnType : t.Knows f.returnType
  parameters : ∀ p ∈ f.parameters, t.Knows p.type

structure FunctionTable.Known (t : ModuleTree) (owner : Owner) (functions : FunctionTable) : Prop where
  known : ∀ name, ∀ f ∈ functions.overloads name, f.Known t
  name : ∀ name, ∀ f ∈ functions.overloads name, f.name = name
  owner : ∀ name, ∀ f ∈ functions.overloads name, f.owner = owner

structure ClassDeclaration.Known (t : ModuleTree) (id : ModuleId) (c : ClassDeclaration) : Prop where
  origin : c.origin.module = id
  fields : ∀ name v, c.fields.find? name = some v → v.Known t (t.outline id (some c.label))
  methods : c.methods.Known t (.inClass id c.name)
  constructor : ∀ f, c.constructor = some f → f.Known t

structure Members.Known (t : ModuleTree) (id : ModuleId) (m : Members) : Prop where
  globals : ∀ name v, m.globals.find? name = some v →
    v.Known t (t.outline id none) ∧ v.origin.module = id
  functions : m.functions.Known t (.module id)
  classes : ∀ name c, m.classes.find? name = some c → c.name = name ∧ c.Known t id
  enums : ∀ name e, m.enums.find? name = some e → e.origin.module = id

-- All that the modules declare is known in `t`.
def ModuleTree.Known (t modules : ModuleTree) : Prop :=
  ∀ id, (modules.get id).members.Known t id

section Offers

theorem Variable.Known.offers {v : Variable} (known : v.Known old s) (outside : s.body = false)
    (offers : old.Offers new) : v.Known new s where
  type := offers.knows known.type
  value n value := (known.value n value).mono fun _ both =>
    ⟨both.1, offers.finds (fun body => by rw [outside] at body; cases body) both.2⟩

theorem FunctionDefinition.Known.offers {f : FunctionDefinition} (known : f.Known old)
    (offers : old.Offers new) : f.Known new :=
  ⟨offers.knows known.returnType, fun p member => offers.knows (known.parameters p member)⟩

theorem FunctionTable.Known.offers {functions : FunctionTable} (known : functions.Known old owner)
    (offers : old.Offers new) : functions.Known new owner :=
  ⟨fun name f member => (known.known name f member).offers offers, known.name, known.owner⟩

theorem ClassDeclaration.Known.offers {c : ClassDeclaration} (known : c.Known old id)
    (inside : id.index < old.size) (offers : old.Offers new) : c.Known new id where
  origin := known.origin
  fields name v found := by
    unfold ModuleTree.outline
    rw [offers.paths id inside]
    exact (known.fields name v found).offers rfl offers
  methods := known.methods.offers offers
  constructor f found := (known.constructor f found).offers offers

theorem Members.Known.offers {m : Members} (known : m.Known old id) (inside : id.index < old.size)
    (offers : old.Offers new) : m.Known new id where
  globals name v found := by
    obtain ⟨here, home⟩ := known.globals name v found
    unfold ModuleTree.outline
    rw [offers.paths id inside]
    exact ⟨here.offers rfl offers, home⟩
  functions := known.functions.offers offers
  classes name c found := by
    obtain ⟨named, here⟩ := known.classes name c found
    exact ⟨named, here.offers inside offers⟩
  enums := known.enums

end Offers

namespace FunctionTable

theorem known_empty : FunctionTable.empty.Known t owner := by
  constructor <;>
  · intro name f member
    simp at member

theorem known_iff {functions : FunctionTable} : functions.Known t owner ↔
    ∀ name, ∀ f ∈ functions.overloads name, f.Known t ∧ f.name = name ∧ f.owner = owner :=
  ⟨fun known name f member => ⟨known.known name f member, known.name name f member,
      known.owner name f member⟩,
    fun each => ⟨fun name f member => (each name f member).1,
      fun name f member => (each name f member).2.1, fun name f member => (each name f member).2.2⟩⟩

theorem Known.add? {functions grown : FunctionTable} {f : FunctionDefinition}
    (known : functions.Known t owner) (here : f.Known t) (owned : f.owner = owner)
    (added : functions.add? f = some grown) : grown.Known t owner := by
  rw [known_iff] at known ⊢
  intro name g member
  rw [overloads_add? added, List.mem_append] at member
  rcases member with member | member
  · exact known name g member
  · split at member
    next same =>
      rw [List.mem_singleton.mp member]
      exact ⟨here, same.symm, owned⟩
    next => cases member

theorem Known.modify {functions : FunctionTable} {g : FunctionDefinition → FunctionDefinition}
    (known : functions.Known t owner) (keeps : ∀ f, (g f).bare = f.bare) (name : String)
    (types : List Datatype) : (functions.modify name types g).Known t owner := by
  have alike : ∀ f, (g f).name = f.name ∧ (g f).owner = f.owner ∧ (f.Known t → (g f).Known t) := by
    intro f
    obtain ⟨name, returnType, parameters, _, owner, _⟩ := FunctionDefinition.bare_inj (keeps f)
    refine ⟨name, owner, fun known => ⟨?_, ?_⟩⟩
    · rw [returnType]
      exact known.returnType
    · rw [parameters]
      exact known.parameters
  rw [known_iff] at known ⊢
  intro other f member
  rw [overloads_modify] at member
  split at member
  next same =>
    obtain ⟨h, inside, rfl | rfl⟩ := mem_modifyFirst member
    · rw [same]
      exact known _ _ inside
    · obtain ⟨here, named, owned⟩ := known _ _ inside
      obtain ⟨name, owner, keep⟩ := alike h
      exact ⟨keep here, (name.trans named).trans same.symm, owner.trans owned⟩
  next => exact known other f member

end FunctionTable

theorem SymbolTable.Marked.known {fields marked : SymbolTable Variable}
    (marks : fields.Marked marked) (known : ∀ name v, fields.find? name = some v → v.Known t s) :
    ∀ name v, marked.find? name = some v → v.Known t s := by
  intro name v found
  rcases marks name with same | ⟨w, old, new⟩
  · exact known name v (same.symm.trans found)
  · rw [new] at found
    cases found
    exact ⟨(known name w old).type, (known name w old).value⟩

namespace Members

theorem known_empty : Members.Known t id {} where
  globals name v found := by cases found
  functions := FunctionTable.known_empty
  classes name c found := by cases found
  enums name e found := by cases found

variable {m : Members}

theorem Known.insertVariable (known : m.Known t id) {v : Variable}
    (here : v.Known t (t.outline id none)) (home : v.origin.module = id) :
    Members.Known t id { m with globals := m.globals.insert v.name v } where
  globals name w found := by
    rw [SymbolTable.find?_insert] at found
    split at found
    next =>
      cases found
      exact ⟨here, home⟩
    next => exact known.globals name w found
  functions := known.functions
  classes := known.classes
  enums := known.enums

theorem Known.insertClass (known : m.Known t id) {c : ClassDeclaration} (here : c.Known t id) :
    Members.Known t id { m with classes := m.classes.insert c.name c } where
  globals := known.globals
  functions := known.functions
  classes name d found := by
    rw [SymbolTable.find?_insert] at found
    split at found
    next same =>
      cases found
      exact ⟨same.symm, here⟩
    next => exact known.classes name d found
  enums := known.enums

theorem Known.insertEnum (known : m.Known t id) {e : EnumDeclaration} (home : e.origin.module = id) :
    Members.Known t id { m with enums := m.enums.insert e.name e } where
  globals := known.globals
  functions := known.functions
  classes := known.classes
  enums name d found := by
    rw [SymbolTable.find?_insert] at found
    split at found
    next =>
      cases found
      exact home
    next => exact known.enums name d found

theorem Known.modifyClass (known : m.Known t id) {f : ClassDeclaration → ClassDeclaration}
    (keeps : ∀ c, c.Known t id → (f c).name = c.name ∧ (f c).Known t id) (name : String) :
    Members.Known t id { m with classes := m.classes.modify name f } where
  globals := known.globals
  functions := known.functions
  classes other d found := by
    rw [SymbolTable.find?_modify] at found
    split at found
    next same =>
      obtain ⟨c, old, rfl⟩ := Option.map_eq_some_iff.mp found
      obtain ⟨named, here⟩ := known.classes name c old
      obtain ⟨named', here'⟩ := keeps c here
      exact ⟨(named'.trans named).trans same.symm, here'⟩
    next => exact known.classes other d found
  enums := known.enums

end Members

namespace ModuleTree

theorem known_empty (t : ModuleTree) : t.Known empty := by
  intro id
  rw [(get_empty id).1]
  exact Members.known_empty

theorem Known.offers (known : old.Known modules) (offers : old.Offers new)
    (within : modules.size ≤ old.size) : new.Known modules := by
  intro id
  by_cases inside : id.index < modules.size
  · exact (known id).offers (Nat.lt_of_lt_of_le inside within) offers
  · rw [get_of_size_le inside]
    exact Members.known_empty

theorem Known.modifyMembers {f : Members → Members} {id : ModuleId} (known : t.Known modules)
    (here : (modules.get id).members.Known t id → (f (modules.get id).members).Known t id) :
    t.Known (modules.modifyMembers id f) := by
  intro other
  rw [members_modifyMembers]
  split
  next same =>
    rw [same.1]
    exact here (known id)
  next => exact known other

theorem Known.addChild (known : t.Known modules) (parent : ModuleId) (name : String) :
    t.Known (modules.addChild parent name).2 := by
  intro id
  rw [members_addChild]
  exact known id

theorem Known.addFunction? {id : ModuleId} {f : FunctionDefinition} {grown : ModuleTree}
    (known : t.Known modules) (here : f.Known t) (owner : f.owner = .module id)
    (added : modules.addFunction? id f = some grown) : t.Known grown := by
  obtain ⟨functions, add, rfl⟩ := Option.map_eq_some_iff.mp added
  refine known.modifyMembers fun members => ⟨members.globals, ?_, members.classes, members.enums⟩
  exact members.functions.add? here owner add

theorem Known.modifyClass {f : ClassDeclaration → ClassDeclaration} (known : t.Known modules)
    {id : ModuleId} (keeps : ∀ c, c.Known t id → (f c).name = c.name ∧ (f c).Known t id)
    (name : String) : t.Known (modules.modifyClass id name f) :=
  known.modifyMembers fun members => members.modifyClass keeps name

theorem Known.attachBody (known : t.Known modules) (body : Node) (owner : BodyOwner) :
    t.Known (AnalysisState.attachBody modules body owner) := by
  have keeps : ∀ f : FunctionDefinition, { f with body := .tree body }.bare = f.bare := fun _ => rfl
  cases owner with
  | function owner name types =>
      cases owner with
      | module id =>
          refine known.modifyMembers fun members =>
            ⟨members.globals, ?_, members.classes, members.enums⟩
          exact members.functions.modify keeps name types
      | inClass id c =>
          apply known.modifyClass
          exact fun c known => ⟨rfl, known.origin, known.fields,
            known.methods.modify keeps name types, known.constructor⟩
  | constructor id c =>
      apply known.modifyClass
      refine fun c known => ⟨rfl, known.origin, known.fields, known.methods, ?_⟩
      intro f found
      obtain ⟨g, old, rfl⟩ := Option.map_eq_some_iff.mp found
      exact ⟨(known.constructor g old).returnType, (known.constructor g old).parameters⟩

theorem Known.updated (known : t.Known old) (updated : old.Updated new) : t.Known new := by
  induction updated with
  | refl => exact known
  | marked id name _ ih =>
      refine ih.modifyMembers fun members => ⟨?_, members.functions, members.classes, members.enums⟩
      intro other v found
      rcases SymbolTable.marked_modify _ name other with same | ⟨w, old, new⟩
      · exact members.globals other v (same.symm.trans found)
      · rw [new] at found
        cases found
        obtain ⟨here, home⟩ := members.globals other w old
        exact ⟨⟨here.type, here.value⟩, home⟩

end ModuleTree

end MiLanguage
