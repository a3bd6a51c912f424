import MiLanguage.Analysis.State
import MiLanguage.Proofs.FunctionTable
import MiLanguage.Proofs.ModulePaths
import MiLanguage.Proofs.Scope

set_option autoImplicit false

namespace MiLanguage

-- Each variable of `old` is in `new`, though perhaps with a value by now.
def SymbolTable.Offers (old new : SymbolTable Variable) : Prop :=
  ∀ name v, old.find? name = some v → ∃ initialized, new.find? name = some { v with initialized }

namespace SymbolTable

variable {old new t : SymbolTable Variable}

theorem offers_refl (t : SymbolTable Variable) : t.Offers t :=
  fun _ v found => ⟨v.initialized, found⟩

theorem Offers.trans (first : old.Offers new) (second : new.Offers t) : old.Offers t := by
  intro name v found
  obtain ⟨_, found⟩ := first name v found
  obtain ⟨initialized, found⟩ := second name _ found
  exact ⟨initialized, found⟩

theorem offers_insert {v : Variable} (fresh : t.find? v.name = none) :
    t.Offers (t.insert v.name v) := by
  intro name w found
  refine ⟨w.initialized, ?_⟩
  rw [find?_insert, if_neg, found]
  rintro rfl
  rw [fresh] at found
  cases found

theorem Marked.offers (marked : old.Marked new) : old.Offers new := by
  intro name v found
  rcases marked name with same | ⟨w, old, new⟩
  · exact ⟨v.initialized, same.trans found⟩
  · rw [found] at old
    cases old
    exact ⟨true, new⟩

theorem Marked.offered (marked : old.Marked new) : new.Offers old := by
  intro name v found
  rcases marked name with same | ⟨w, old, new⟩
  · exact ⟨v.initialized, same.symm.trans found⟩
  · rw [found] at new
    cases new
    exact ⟨w.initialized, old⟩

end SymbolTable

-- A function without its body.
def FunctionDefinition.bare (f : FunctionDefinition) : FunctionDefinition := { f with body := .pending }

theorem FunctionDefinition.bare_inj {f g : FunctionDefinition} (same : f.bare = g.bare) :
    f.name = g.name ∧ f.returnType = g.returnType ∧ f.parameters = g.parameters ∧
      f.modifiers = g.modifiers ∧ f.owner = g.owner ∧ f.fileId = g.fileId := by
  cases f
  cases g
  simp_all [bare]

-- The overloads of `new` are those of `old` and perhaps later ones, bodies aside.
def FunctionTable.Offers (old new : FunctionTable) : Prop :=
  ∀ name, (old.overloads name).map FunctionDefinition.bare <+: (new.overloads name).map FunctionDefinition.bare

namespace FunctionTable

variable {old new t : FunctionTable}

theorem offers_refl (t : FunctionTable) : t.Offers t := fun _ => List.prefix_refl _

theorem Offers.trans (first : old.Offers new) (second : new.Offers t) : old.Offers t :=
  fun name => (first name).trans (second name)

theorem offers_add? {f : FunctionDefinition} (added : old.add? f = some new) : old.Offers new := by
  intro name
  rw [overloads_add? added, List.map_append]
  exact List.prefix_append _ _

theorem bare_modify {g : FunctionDefinition → FunctionDefinition} (keeps : ∀ f, (g f).bare = f.bare)
    (t : FunctionTable) (name other : String) (types : List Datatype) :
    ((t.modify name types g).overloads other).map FunctionDefinition.bare = (t.overloads other).map FunctionDefinition.bare := by
  rw [overloads_modify]
  split
  next same =>
    rw [same]
    exact map_modifyFirst keeps _ _
  next => rfl

theorem offers_modify {g : FunctionDefinition → FunctionDefinition} (keeps : ∀ f, (g f).bare = f.bare)
    (t : FunctionTable) (name : String) (types : List Datatype) :
    t.Offers (t.modify name types g) ∧ (t.modify name types g).Offers t := by
  have same : ∀ other, ((t.modify name types g).overloads other).map FunctionDefinition.bare =
      (t.overloads other).map FunctionDefinition.bare := fun other => bare_modify keeps t name other types
  exact ⟨fun other => (same other).symm ▸ List.prefix_refl _,
    fun other => (same other).symm ▸ List.prefix_refl _⟩

end FunctionTable

-- The name of a class and the file that declares it.
def ClassDeclaration.label (c : ClassDeclaration) : String × FileId := (c.name, c.origin.fileId)

structure ClassDeclaration.Offers (old new : ClassDeclaration) : Prop where
  name : new.name = old.name
  modifiers : new.modifiers = old.modifiers
  origin : new.origin = old.origin
  fields : old.fields.Offers new.fields
  methods : old.methods.Offers new.methods

namespace ClassDeclaration

variable {old new c : ClassDeclaration}

theorem Offers.label (offers : old.Offers new) : new.label = old.label := by
  unfold ClassDeclaration.label
  rw [offers.name, offers.origin]

theorem offers_refl (c : ClassDeclaration) : c.Offers c :=
  ⟨rfl, rfl, rfl, c.fields.offers_refl, c.methods.offers_refl⟩

theorem Offers.trans (first : old.Offers new) (second : new.Offers c) : old.Offers c where
  name := second.name.trans first.name
  modifiers := second.modifiers.trans first.modifiers
  origin := second.origin.trans first.origin
  fields := first.fields.trans second.fields
  methods := first.methods.trans second.methods

end ClassDeclaration

structure EnumDeclaration.Offers (old new : EnumDeclaration) : Prop where
  modifiers : new.modifiers = old.modifiers
  origin : new.origin = old.origin
  members : old.members ⊆ new.members

namespace EnumDeclaration

variable {old new e : EnumDeclaration}

theorem offers_refl (e : EnumDeclaration) : e.Offers e := ⟨rfl, rfl, List.Subset.refl _⟩

theorem Offers.trans (first : old.Offers new) (second : new.Offers e) : old.Offers e where
  modifiers := second.modifiers.trans first.modifiers
  origin := second.origin.trans first.origin
  members := List.Subset.trans first.members second.members

end EnumDeclaration

/-- What a name stands for in `old` it stands for in `new`. -/
structure Members.Offers (old new : Members) : Prop where
  globals : old.globals.Offers new.globals
  functions : old.functions.Offers new.functions
  classes : ∀ name c, old.classes.find? name = some c →
    ∃ d, new.classes.find? name = some d ∧ c.Offers d
  enums : ∀ name e, old.enums.find? name = some e →
    ∃ f, new.enums.find? name = some f ∧ e.Offers f

namespace Members

variable {old new m : Members}

theorem offers_refl (m : Members) : m.Offers m :=
  ⟨m.globals.offers_refl, m.functions.offers_refl, fun _ c found => ⟨c, found, c.offers_refl⟩,
    fun _ e found => ⟨e, found, e.offers_refl⟩⟩

theorem Offers.trans (first : old.Offers new) (second : new.Offers m) : old.Offers m where
  globals := first.globals.trans second.globals
  functions := first.functions.trans second.functions
  classes name c found := by
    obtain ⟨d, found, offers⟩ := first.classes name c found
    obtain ⟨e, found, offers'⟩ := second.classes name d found
    exact ⟨e, found, offers.trans offers'⟩
  enums name e found := by
    obtain ⟨f, found, offers⟩ := first.enums name e found
    obtain ⟨g, found, offers'⟩ := second.enums name f found
    exact ⟨g, found, offers.trans offers'⟩

end Members

namespace ModuleTree

/-- The modules of `old` are in `new` under their paths, with what they declare. -/
structure Offers (old new : ModuleTree) : Prop where
  grows : old.Grows new
  paths : ∀ id, id.index < old.size → new.pathSegments id = old.pathSegments id
  members : ∀ id, (old.get id).members.Offers (new.get id).members

variable {old new t : ModuleTree} {id : ModuleId}

theorem offers_refl (t : ModuleTree) : t.Offers t :=
  ⟨.refl t, fun _ _ => rfl, fun _ => Members.offers_refl _⟩

theorem Offers.size (offers : old.Offers new) : old.size ≤ new.size := offers.grows.size

theorem Offers.trans (first : old.Offers new) (second : new.Offers t) : old.Offers t where
  grows := first.grows.trans second.grows
  paths id inside :=
    (second.paths id (Nat.lt_of_lt_of_le inside first.size)).trans (first.paths id inside)
  members id := (first.members id).trans (second.members id)

-- Every module but the root has a name.
def Named (t : ModuleTree) : Prop :=
  ∀ id, id.index < t.size → id ≠ root → (t.get id).name ≠ ""

theorem Offers.named (offers : old.Offers new) (named : new.Named) : old.Named := by
  intro id inside inner
  rw [← offers.grows.names id inside]
  exact named id (Nat.lt_of_lt_of_le inside offers.size) inner

theorem Offers.qualify (offers : old.Offers new) (inside : id.index < old.size) (name : String) :
    new.qualify id name = old.qualify id name := by
  unfold ModuleTree.qualify path
  rw [offers.paths id inside]

theorem get_of_size_le (outside : ¬id.index < t.size) : (t.get id).members = {} := by
  unfold get
  rw [List.getElem?_eq_none (by unfold size at outside; omega)]
  rfl

theorem get_mem (inside : id.index < t.size) : t.get id ∈ t.modules := by
  unfold get
  rw [List.getElem?_eq_getElem (by exact inside)]
  exact List.getElem_mem _

theorem inside_of_class {name : String} {c : ClassDeclaration}
    (found : t.class? id name = some c) : id.index < t.size := by
  by_contra outside
  rw [class?, get_of_size_le outside] at found
  cases found

theorem inside_of_enum {name : String} {e : EnumDeclaration}
    (found : t.enum? id name = some e) : id.index < t.size := by
  by_contra outside
  rw [enum?, get_of_size_le outside] at found
  cases found

theorem inside_of_global {name : String} {v : Variable}
    (found : (t.get id).members.globals.find? name = some v) : id.index < t.size := by
  by_contra outside
  rw [get_of_size_le outside] at found
  cases found

section Modify

variable {f : Members → Members}

theorem chain_modifyMembers (t : ModuleTree) (id : ModuleId) (f : Members → Members) (bound : Nat)
    (other : ModuleId) : (t.modifyMembers id f).chain bound other = t.chain bound other := by
  induction bound generalizing other with
  | zero => rfl
  | succ bound ih =>
      unfold chain
      rw [(t.get_modifyMembers id other f).2]
      simp only [ih]

@[simp] theorem pathSegments_modifyMembers (t : ModuleTree) (id other : ModuleId)
    (f : Members → Members) :
    (t.modifyMembers id f).pathSegments other = t.pathSegments other := by
  unfold pathSegments ancestors
  rw [chain_modifyMembers]
  apply List.map_congr_left
  intro m _
  exact (t.get_modifyMembers id m f).1

theorem modifyMembers_grows (t : ModuleTree) (id : ModuleId) (f : Members → Members) :
    (t.modifyMembers id f).Grows t where
  size := by simp
  names other _ := (t.get_modifyMembers id other f).1.symm
  parents other _ := (t.get_modifyMembers id other f).2.symm

theorem offers_modifyMembers (offers : (t.get id).members.Offers (f (t.get id).members)) :
    t.Offers (t.modifyMembers id f) where
  grows := t.grows_modifyMembers id f
  paths other _ := by simp
  members other := by
    rw [members_modifyMembers]
    split
    next same =>
      rw [same.1]
      exact offers
    next => exact Members.offers_refl _

theorem modifyMembers_offers (offers : (f (t.get id).members).Offers (t.get id).members) :
    (t.modifyMembers id f).Offers t where
  grows := t.modifyMembers_grows id f
  paths other _ := by simp
  members other := by
    rw [members_modifyMembers]
    split
    next same =>
      rw [same.1]
      exact offers
    next => exact Members.offers_refl _

section Insert

theorem offers_insertVariable {v : Variable}
    (fresh : (t.get id).members.globals.find? v.name = none) :
    t.Offers (t.insertVariable id v) := by
  have same := (t.get id).members.offers_refl
  exact offers_modifyMembers
    ⟨SymbolTable.offers_insert fresh, same.functions, same.classes, same.enums⟩

theorem offers_insertClass {c : ClassDeclaration}
    (grown : ∀ d, t.class? id c.name = some d → d.Offers c) :
    t.Offers (t.insertClass id c) := by
  have same := (t.get id).members.offers_refl
  refine offers_modifyMembers ⟨same.globals, same.functions, ?_, same.enums⟩
  intro name d found
  rw [SymbolTable.find?_insert]
  split
  next same =>
    subst same
    exact ⟨c, rfl, grown d found⟩
  next => exact ⟨d, found, d.offers_refl⟩

theorem offers_insertEnum {e : EnumDeclaration}
    (grown : ∀ d, t.enum? id e.name = some d → d.Offers e) :
    t.Offers (t.insertEnum id e) := by
  have same := (t.get id).members.offers_refl
  refine offers_modifyMembers ⟨same.globals, same.functions, same.classes, ?_⟩
  intro name d found
  rw [SymbolTable.find?_insert]
  split
  next same =>
    subst same
    exact ⟨e, rfl, grown d found⟩
  next => exact ⟨d, found, d.offers_refl⟩

theorem offers_addFunction? {f : FunctionDefinition} {grown : ModuleTree}
    (added : t.addFunction? id f = some grown) : t.Offers grown := by
  obtain ⟨functions, add, rfl⟩ := Option.map_eq_some_iff.mp added
  have same := (t.get id).members.offers_refl
  exact offers_modifyMembers
    ⟨same.globals, FunctionTable.offers_add? add, same.classes, same.enums⟩

theorem offers_addChild (arena : t.Arena) (inside : id.index < t.size) (name : String) :
    t.Offers (t.addChild id name).2 where
  grows := t.grows_addChild id name
  paths _ within :=
    (t.grows_addChild id name).pathSegments arena (arena.addChild inside name) within
  members other := by
    rw [members_addChild]
    exact Members.offers_refl _

end Insert

end Modify

/-- Names stand for the same in both. -/
structure Agrees (old new : ModuleTree) : Prop where
  offers : old.Offers new
  offered : new.Offers old

theorem agrees_refl (t : ModuleTree) : t.Agrees t := ⟨t.offers_refl, t.offers_refl⟩

theorem Agrees.trans (first : old.Agrees new) (second : new.Agrees t) : old.Agrees t :=
  ⟨first.offers.trans second.offers, second.offered.trans first.offered⟩

theorem agrees_modifyMembers {f : Members → Members} (offers : ∀ m : Members, m.Offers (f m))
    (offered : ∀ m : Members, (f m).Offers m) : t.Agrees (t.modifyMembers id f) :=
  ⟨offers_modifyMembers (offers _), modifyMembers_offers (offered _)⟩

theorem agrees_modifyFunction {g : FunctionDefinition → FunctionDefinition}
    (keeps : ∀ f, (g f).bare = f.bare) (t : ModuleTree) (id : ModuleId) (name : String)
    (types : List Datatype) : t.Agrees (t.modifyFunction id name types g) :=
  agrees_modifyMembers
    (fun m => ⟨m.offers_refl.globals, (FunctionTable.offers_modify keeps _ name types).1,
      m.offers_refl.classes, m.offers_refl.enums⟩)
    (fun m => ⟨m.offers_refl.globals, (FunctionTable.offers_modify keeps _ name types).2,
      m.offers_refl.classes, m.offers_refl.enums⟩)

theorem agrees_modifyClass {f : ClassDeclaration → ClassDeclaration} (t : ModuleTree)
    (id : ModuleId) (name : String) (keeps : ∀ c : ClassDeclaration, c.Offers (f c) ∧ (f c).Offers c) :
    t.Agrees (t.modifyClass id name f) := by
  apply agrees_modifyMembers
  · refine fun m => ⟨m.offers_refl.globals, m.offers_refl.functions, ?_, m.offers_refl.enums⟩
    intro other c found
    rw [SymbolTable.find?_modify]
    split
    next same =>
      subst same
      exact ⟨f c, by rw [found]; rfl, (keeps c).1⟩
    next => exact ⟨c, found, c.offers_refl⟩
  · refine fun m => ⟨m.offers_refl.globals, m.offers_refl.functions, ?_, m.offers_refl.enums⟩
    intro other d found
    rw [SymbolTable.find?_modify] at found
    split at found
    next same =>
      subst same
      obtain ⟨c, known, rfl⟩ := Option.map_eq_some_iff.mp found
      exact ⟨c, known, (keeps c).2⟩
    next => exact ⟨d, found, d.offers_refl⟩

theorem agrees_attachBody (t : ModuleTree) (body : Node) (owner : BodyOwner) :
    t.Agrees (AnalysisState.attachBody t body owner) := by
  have keeps : ∀ f : FunctionDefinition, { f with body := .tree body }.bare = f.bare := fun _ => rfl
  cases owner with
  | function owner name types =>
      cases owner with
      | module id => exact t.agrees_modifyFunction keeps id name types
      | inClass id c =>
          refine t.agrees_modifyClass id c fun c => ?_
          obtain ⟨offers, offered⟩ := FunctionTable.offers_modify keeps c.methods name types
          exact ⟨⟨rfl, rfl, rfl, c.fields.offers_refl, offers⟩,
            ⟨rfl, rfl, rfl, c.fields.offers_refl, offered⟩⟩
  | constructor id c =>
      refine t.agrees_modifyClass id c fun c => ?_
      exact ⟨⟨rfl, rfl, rfl, c.fields.offers_refl, c.methods.offers_refl⟩,
        ⟨rfl, rfl, rfl, c.fields.offers_refl, c.methods.offers_refl⟩⟩

theorem Updated.agrees (updated : t.Updated new) : t.Agrees new := by
  induction updated with
  | refl => exact t.agrees_refl
  | marked id name _ ih =>
      refine ih.trans (agrees_modifyMembers ?_ ?_)
      · exact fun m => ⟨(m.globals.marked_modify name).offers, m.offers_refl.functions,
          m.offers_refl.classes, m.offers_refl.enums⟩
      · exact fun m => ⟨(m.globals.marked_modify name).offered, m.offers_refl.functions,
          m.offers_refl.classes, m.offers_refl.enums⟩

/-- The full name of a class or an enum. -/
inductive HasType (t : ModuleTree) : String → Prop
  | «class» {id : ModuleId} {name : String} {c : ClassDeclaration} :
      t.class? id name = some c → HasType t (t.qualify id name)
  | enum {id : ModuleId} {name : String} {e : EnumDeclaration} :
      t.enum? id name = some e → HasType t (t.qualify id name)

theorem Offers.hasType {name : String} (offers : old.Offers new) (known : old.HasType name) :
    new.HasType name := by
  cases known with
  | «class» found =>
      obtain ⟨d, found', _⟩ := (offers.members _).classes _ _ found
      rw [← offers.qualify (inside_of_class found)]
      exact .class found'
  | enum found =>
      obtain ⟨d, found', _⟩ := (offers.members _).enums _ _ found
      rw [← offers.qualify (inside_of_enum found)]
      exact .enum found'

-- A type that is named is there.
def Knows (t : ModuleTree) (type : Datatype) : Prop :=
  ∀ name nullable, type = .of (.named name) nullable → t.HasType name

theorem Offers.knows {type : Datatype} (offers : old.Offers new) (known : old.Knows type) :
    new.Knows type :=
  fun name nullable same => offers.hasType (known name nullable same)

theorem knows_primitive (t : ModuleTree) (p : Primitive) (nullable : Bool) :
    t.Knows (.of (.primitive p) nullable) := by
  intro name n same
  cases same

theorem knows_named {name : String} (known : t.HasType name) : t.Knows (.named name) := by
  intro other n same
  cases same
  exact known

theorem knows_withNullable {type : Datatype} (known : t.Knows type) (nullable : Bool) :
    t.Knows (type.withNullable nullable) := by
  intro name n same
  cases type with
  | null => cases same
  | of base m =>
      cases same
      exact known name m rfl

theorem knows_heavier {a b type : Datatype} (result : Datatype.heavier a b = some type) :
    t.Knows type := by
  have number : ∀ {d : Datatype} {r : Nat} {n : Bool}, d.rank = some r →
      t.Knows (d.withNullable n) := by
    intro d r n rank name m same
    cases d with
    | null => cases same
    | of base k =>
        cases same
        simp [Datatype.rank, Datatype.primitive?] at rank
  unfold Datatype.heavier at result
  split at result
  next ra rb left right =>
    cases result
    split
    next => exact number left
    next => exact number right
  next => cases result

-- Operators make no types of their own but primitive ones.
theorem knows_binaryResult {op : BinaryOperator} {a b type : Datatype}
    (result : Datatype.binaryResult op a b = some type) : t.Knows type := by
  unfold Datatype.binaryResult at result
  split at result
  all_goals
    repeat' split at result
    all_goals
      first
      | exact knows_heavier result
      | (cases result; exact t.knows_primitive _ _)
      | cases result

end ModuleTree

end MiLanguage
