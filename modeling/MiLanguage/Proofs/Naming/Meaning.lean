import MiLanguage.Proofs.Naming.Sight
import MiLanguage.Proofs.Naming.Tree

set_option autoImplicit false

namespace MiLanguage

namespace Overload

theorem mem_of_select {candidates : List FunctionDefinition} {args : List Datatype}
    {f : FunctionDefinition} (selected : select candidates args = .ok f) : f ∈ candidates := by
  have tier : f ∈ decidingTier candidates args := by
    unfold select at selected
    generalize decidingTier candidates args = tier at selected
    cases tier with
    | nil => cases selected
    | cons first others =>
        cases others with
        | nil =>
            cases selected
            simp
        | cons second others => cases selected
  unfold decidingTier at tier
  split at tier
  · exact (mem_matching.mp tier).1
  · exact (mem_matching.mp tier).1

end Overload

namespace ModuleTree

variable {t old new : ModuleTree} {s : Sight} {n : Node} {place : Token} {id : ModuleId}

def functionsOf (t : ModuleTree) : Owner → FunctionTable
  | .module id => (t.get id).members.functions
  | .inClass id name => ((t.class? id name).map ClassDeclaration.methods).getD .empty

-- All overloads of the function's name, where it is declared.
def overloadsOf (t : ModuleTree) (f : FunctionDefinition) : List FunctionDefinition :=
  (t.functionsOf f.owner).overloads f.name

/-- A declaration may be used at `place`: what is `priv` only inside of its module, what is `own`
only in its file. -/
structure Admits (t : ModuleTree) (s : Sight) (modifiers : Modifiers) (origin : Origin)
    (place : Token) : Prop where
  priv : modifiers.visibility = .priv → t.pathSegments origin.module <+: s.path
  own : modifiers.visibility = .own → place.span.fileId = origin.fileId

/-- A name stands for a variable of this type: the only one in sight that has it or, if there is
none, a field of the class around or a global, by its full name. -/
inductive Denotes (t : ModuleTree) (s : Sight) (place : Token) (type : Datatype) : Prop
  | inBlock :
      s.locals.filter (·.1 = place.lexeme) = [(place.lexeme, type)] → Denotes t s place type
  | field {id : ModuleId} {field : String} {c : ClassDeclaration} {v : Variable} :
      (∀ l ∈ s.locals, l.1 ≠ place.lexeme) → s.owner = some c.label → t.pathSegments id = s.path →
      t.class? id c.name = some c → c.fields.find? field = some v → v.type = type →
      (let owner := t.qualify id c.name; place.lexeme = s!"{owner}.{field}") →
      Denotes t s place type
  | global {id : ModuleId} {global : String} {v : Variable} :
      (t.Named → ∀ l ∈ s.locals, l.1 ≠ place.lexeme) →
      (t.get id).members.globals.find? global = some v → v.type = type →
      place.lexeme = t.qualify id global → v.origin.module = id →
      t.Admits s v.modifiers v.origin place → Denotes t s place type

/-- A name stands for the class or the enum of this full name. Inside of a class its own name may
always be used. -/
inductive NamesType (t : ModuleTree) (s : Sight) (place : Token) : String → Prop
  | «class» {id : ModuleId} {name : String} {c : ClassDeclaration} :
      t.class? id name = some c → c.origin.module = id →
      t.Admits s c.modifiers c.origin place ∨ s.owner = some c.label ∧ t.pathSegments id = s.path →
      NamesType t s place (t.qualify id name)
  | enum {id : ModuleId} {name : String} {e : EnumDeclaration} :
      t.enum? id name = some e → e.origin.module = id →
      t.Admits s e.modifiers e.origin place → NamesType t s place (t.qualify id name)

/-- A call means the function that the overloads shown to it leave as the only choice. In a body
these are all overloads, elsewhere some of them, from the first one on. -/
inductive Selects (t : ModuleTree) (s : Sight) (place : Token) (args : List Datatype)
    (type : Datatype) : Prop
  | intro {f : FunctionDefinition} {shown : List FunctionDefinition} :
      shown <+: ((t.functionsOf f.owner).overloads f.name).map FunctionDefinition.bare →
      (s.body = true → shown = ((t.functionsOf f.owner).overloads f.name).map FunctionDefinition.bare) →
      Overload.select shown args = .ok f → place.lexeme = t.qualifyFunction f →
      f.returnType = type → t.Admits s f.modifiers f.origin place → Selects t s place args type

/-- What the names and the types that a node has by itself stand for. -/
structure Finds (t : ModuleTree) (s : Sight) (n : Node) : Prop where
  type : ∀ type, n.type = some type → t.Knows type
  spelled : n.kind = .type → ∀ place, n.token = some place → place.kind = .identifier →
    ∃ name nullable, n.type = some (.of (.named name) nullable) ∧ t.NamesType s place name
  reference : n.kind = .variableReference →
    ∃ place type, n.token = some place ∧ n.type = some type ∧ t.Denotes s place type
  target : n.kind = .varSetValue → ∃ place type, n.title? = some place ∧ t.Denotes s place type
  member : n.kind = .getEnumMember → ∃ (place : Token) (member : String) (id : ModuleId)
    (name : String) (e : EnumDeclaration) (first second : Node), n.children = [first, second] ∧
      first.token = some place ∧ second.lexeme = some member ∧ t.enum? id name = some e ∧
      place.lexeme = t.qualify id name ∧ member ∈ e.members ∧ e.origin.module = id ∧
      t.Admits s e.modifiers e.origin place
  construct : n.kind = .structConstruct → ∃ (place : Token) (id : ModuleId) (name : String)
    (c : ClassDeclaration), n.token = some place ∧ t.class? id name = some c ∧
      place.lexeme = t.qualify id name ∧ c.origin.module = id ∧
      (t.Admits s c.modifiers c.origin place ∨ s.owner = some c.label ∧ t.pathSegments id = s.path)
  call : n.kind = .functionCall → ∃ (place : Token) (args : List Datatype) (type : Datatype)
    (first second : Node), n.children = [first, second] ∧ first.token = some place ∧
      second.children.map Node.type = args.map some ∧ n.type = some type ∧
      t.Selects s place args type

section Offers

theorem inside_of_function {owner : Owner} {name : String} {f : FunctionDefinition}
    (member : f ∈ (t.functionsOf owner).overloads name) : owner.moduleId.index < t.size := by
  cases owner with
  | module id =>
      by_contra outside
      have outside : ¬id.index < t.size := outside
      rw [functionsOf, get_of_size_le outside] at member
      cases member
  | inClass id c =>
      cases found : t.class? id c with
      | none =>
          rw [functionsOf, found] at member
          cases member
      | some => exact inside_of_class found

theorem Offers.functionsOf (offers : old.Offers new) (owner : Owner) :
    (old.functionsOf owner).Offers (new.functionsOf owner) := by
  cases owner with
  | module id => exact (offers.members id).functions
  | inClass id name =>
      cases found : old.class? id name with
      | none =>
          intro other
          rw [ModuleTree.functionsOf, found]
          exact List.nil_prefix
      | some c =>
          obtain ⟨d, found', grown⟩ := (offers.members id).classes _ _ found
          have there : new.class? id name = some d := found'
          rw [ModuleTree.functionsOf, ModuleTree.functionsOf, found, there]
          exact grown.methods

theorem Offers.admits {modifiers : Modifiers} {origin : Origin} (offers : old.Offers new)
    (inside : origin.module.index < old.size) (admits : old.Admits s modifiers origin place) :
    new.Admits s modifiers origin place where
  priv priv := by
    rw [offers.paths _ inside]
    exact admits.priv priv
  own := admits.own

theorem Offers.denotes {type : Datatype} (offers : old.Offers new)
    (denotes : old.Denotes s place type) : new.Denotes s place type := by
  cases denotes with
  | inBlock only => exact .inBlock only
  | field hidden owner path found field same named =>
      obtain ⟨d, found', grown⟩ := (offers.members _).classes _ _ found
      obtain ⟨_, field'⟩ := grown.fields _ _ field
      have inside := inside_of_class found
      rw [← grown.label] at owner
      refine .field hidden owner ((offers.paths _ inside).trans path) ?_ field' same ?_
      · rw [grown.name]
        exact found'
      · rw [grown.name, offers.qualify inside]
        exact named
  | global hidden found same named home admits =>
      obtain ⟨_, found'⟩ := (offers.members _).globals _ _ found
      have inside := inside_of_global found
      refine .global (fun named => hidden (offers.named named)) found' same ?_ home
        (offers.admits (by rw [home]; exact inside) admits)
      rw [offers.qualify inside]
      exact named

theorem Offers.namesType {name : String} (offers : old.Offers new)
    (names : old.NamesType s place name) : new.NamesType s place name := by
  cases names with
  | @«class» id name c found home admits =>
      obtain ⟨d, found', grown⟩ := (offers.members _).classes _ _ found
      have inside := inside_of_class found
      rw [← offers.qualify inside]
      refine .class found' ((congrArg Origin.module grown.origin).trans home) ?_
      rw [grown.modifiers, grown.origin, grown.label, offers.paths _ inside]
      exact admits.imp_left (offers.admits (by rw [home]; exact inside))
  | @enum id name e found home admits =>
      obtain ⟨d, found', grown⟩ := (offers.members _).enums _ _ found
      have inside := inside_of_enum found
      rw [← offers.qualify inside]
      refine .enum found' ((congrArg Origin.module grown.origin).trans home) ?_
      rw [grown.modifiers, grown.origin]
      exact offers.admits (by rw [home]; exact inside) admits

theorem Offers.qualifyFunction (offers : old.Offers new) {f : FunctionDefinition}
    (inside : f.owner.moduleId.index < old.size) : new.qualifyFunction f = old.qualifyFunction f := by
  unfold ModuleTree.qualifyFunction
  cases owner : f.owner with
  | module id =>
      rw [owner] at inside
      exact offers.qualify inside _
  | inClass id name =>
      rw [owner] at inside
      have inside : id.index < old.size := inside
      simp only [offers.qualify inside]

-- A call goes on to mean the same where all overloads are shown already, or not all have to be.
theorem Offers.selects {args : List Datatype} {type : Datatype} (offers : old.Offers new)
    (whole : s.body = true → new.Offers old) (selects : old.Selects s place args type) :
    new.Selects s place args type := by
  obtain ⟨initial, all, selected, named, same, admits⟩ := selects
  obtain ⟨g, member, _⟩ := List.mem_map.mp (initial.subset (Overload.mem_of_select selected))
  have inside := inside_of_function member
  refine .intro (initial.trans (offers.functionsOf _ _)) ?_ selected
    (named.trans (offers.qualifyFunction inside).symm) same (offers.admits inside admits)
  intro body
  rw [all body]
  exact ((offers.functionsOf _ _).eq_of_length_le ((whole body).functionsOf _ _).length_le)

theorem Offers.finds (offers : old.Offers new) (whole : s.body = true → new.Offers old)
    (finds : old.Finds s n) : new.Finds s n where
  type type same := offers.knows (finds.type type same)
  spelled kind place token identifier := by
    obtain ⟨name, nullable, same, names⟩ := finds.spelled kind place token identifier
    exact ⟨name, nullable, same, offers.namesType names⟩
  reference kind := by
    obtain ⟨place, type, token, same, denotes⟩ := finds.reference kind
    exact ⟨place, type, token, same, offers.denotes denotes⟩
  target kind := by
    obtain ⟨place, type, title, denotes⟩ := finds.target kind
    exact ⟨place, type, title, offers.denotes denotes⟩
  member kind := by
    obtain ⟨place, member, id, name, e, first, second, children, token, lexeme, found, named, inside,
      home, admits⟩ := finds.member kind
    obtain ⟨f, found', grown⟩ := (offers.members _).enums _ _ found
    have within := inside_of_enum found
    refine ⟨place, member, id, name, f, first, second, children, token, lexeme, found', ?_,
      grown.members inside, (congrArg Origin.module grown.origin).trans home, ?_⟩
    · rw [offers.qualify within]
      exact named
    · rw [grown.modifiers, grown.origin]
      exact offers.admits (by rw [home]; exact within) admits
  construct kind := by
    obtain ⟨place, id, name, c, token, found, named, home, admits⟩ := finds.construct kind
    obtain ⟨d, found', grown⟩ := (offers.members _).classes _ _ found
    have inside := inside_of_class found
    refine ⟨place, id, name, d, token, found', ?_, (congrArg Origin.module grown.origin).trans home, ?_⟩
    · rw [offers.qualify inside]
      exact named
    · rw [grown.modifiers, grown.origin, grown.label, offers.paths _ inside]
      exact admits.imp_left (offers.admits (by rw [home]; exact inside))
  call kind := by
    obtain ⟨place, args, type, first, second, children, token, types, same, selects⟩ :=
      finds.call kind
    exact ⟨place, args, type, first, second, children, token, types, same,
      offers.selects whole selects⟩

theorem Agrees.finds (agrees : old.Agrees new) (finds : old.Finds s n) : new.Finds s n :=
  agrees.offers.finds (fun _ => agrees.offered) finds

end Offers

end ModuleTree

-- A node of this kind may be no name, or have none.
def NodeKind.names : NodeKind → Bool
  | variableReference | varSetValue | getEnumMember | structConstruct | functionCall | type => true
  | _ => false

-- A definition with an initial value, or what may be in one and depend on the declarations so far.
def NodeKind.initial : NodeKind → Bool
  | varDefAndSetValue | functionCall => true
  | _ => false

def NodeKind.asked (kind : NodeKind) : Bool := kind.names || kind.initial

namespace ModuleTree

variable {t : ModuleTree} {s : Sight} {n : Node}

theorem finds_plain (type : ∀ type, n.type = some type → t.Knows type)
    (plain : n.kind.names = false) : t.Finds s n where
  type := type
  spelled kind := by
    rw [kind] at plain
    cases plain
  reference kind := by
    rw [kind] at plain
    cases plain
  target kind := by
    rw [kind] at plain
    cases plain
  member kind := by
    rw [kind] at plain
    cases plain
  construct kind := by
    rw [kind] at plain
    cases plain
  call kind := by
    rw [kind] at plain
    cases plain

theorem finds_untyped (untyped : n.type = none) (plain : n.kind.names = false) : t.Finds s n :=
  finds_plain (fun type same => by rw [untyped] at same; cases same) plain

end ModuleTree

end MiLanguage
