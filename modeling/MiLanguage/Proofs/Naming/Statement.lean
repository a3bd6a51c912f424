import MiLanguage.Proofs.Naming.Environment
import MiLanguage.Proofs.Naming.Meaning
import MiLanguage.Proofs.Statement.Header
import MiLanguage.Proofs.Statement.Storing
import MiLanguage.Proofs.Typing.WellTyped

set_option autoImplicit false

namespace MiLanguage

namespace Typed

/-- All that an expression names is there and in sight. -/
structure Found (t : ModuleTree) (s : Sight) (e : Typed) : Prop where
  node : e.node.Every (t.Finds s)
  type : t.Knows e.type

variable {t : ModuleTree} {s : Sight}

theorem found_of {node : Node} {type : Datatype} (here : t.Finds s (node.typed type))
    (known : t.Knows type) (children : ∀ c ∈ node.children, c.Every (t.Finds s)) :
    (of node type).Found t s where
  node := Node.every_iff.mpr ⟨here, children⟩
  type := known

theorem found_plain {node : Node} {type : Datatype} (plain : node.kind.names = false)
    (known : t.Knows type) (children : ∀ c ∈ node.children, c.Every (t.Finds s)) :
    (of node type).Found t s := by
  refine found_of (ModuleTree.finds_plain ?_ plain) known children
  rintro other same
  cases same
  exact known

theorem found_leaf {kind : NodeKind} {token : Token} {type : Datatype} (plain : kind.names = false)
    (known : t.Knows type) : (of (.leaf kind token) type).Found t s :=
  found_plain plain known nofun

theorem found_new {kind : NodeKind} {line : Nat} {children : List Node} {type : Datatype}
    (plain : kind.names = false) (known : t.Knows type)
    (found : ∀ c ∈ children, c.Every (t.Finds s)) : (of (.new kind line children) type).Found t s :=
  found_plain plain known found

theorem found_integer (text : Token) : (integer text).Found t s :=
  found_leaf rfl (t.knows_primitive _ _)

theorem found_constant {l : LiteralToken} {text : Token} {kind : LiteralKind} {type : Datatype}
    (constant : l.constant? = some (kind, type)) :
    (of (.leaf (.literal kind) text) type).Found t s := by
  refine found_leaf rfl ?_
  cases l <;> cases constant <;> first | exact t.knows_primitive _ _ | exact nofun

end Typed

namespace ModuleTree

variable {t : ModuleTree} {s : Sight}

theorem every_leaf {kind : NodeKind} {token : Token} (plain : kind.names = false) :
    (Node.leaf kind token).Every (t.Finds s) :=
  Node.every_leaf.mpr (finds_untyped rfl plain)

theorem every_new {kind : NodeKind} {line : Nat} {children : List Node} (plain : kind.names = false)
    (found : ∀ c ∈ children, c.Every (t.Finds s)) :
    (Node.new kind line children).Every (t.Finds s) :=
  Node.every_new.mpr ⟨finds_untyped rfl plain, found⟩

end ModuleTree

namespace Environment

variable {env : Environment} {t : ModuleTree} {whole : Bool} {s : Sight}

theorem Sees.reference (sees : env.Sees t whole s) {name : Token} {v : ResolvedVariable}
    (found : env.resolveVariable name = .ok v) :
    (Typed.of (.leaf .variableReference (.synthetic .identifier v.qualified name))
      v.type).Found t s := by
  obtain ⟨denotes, known⟩ := sees.variable found (stated_synthetic name v.qualified)
  refine Typed.found_of ⟨?_, nofun, ?_, nofun, nofun, nofun, nofun⟩ known nofun
  · rintro type same
    cases same
    exact known
  · exact fun _ => ⟨_, v.type, rfl, rfl, denotes⟩

theorem Sees.member (sees : env.Sees t whole s) {enum member : Token} {line : Nat}
    {qualified : String} {members : List String}
    (found : env.resolveEnum enum = .ok (qualified, members)) (inside : member.lexeme ∈ members) :
    (Typed.of (.new .getEnumMember line [.leaf .identifier (.synthetic .identifier qualified enum),
      .leaf .identifier member]) (.named qualified)).Found t s := by
  obtain ⟨id, name, e, there, rfl, sub, home, admits⟩ :=
    sees.enum found (show (Token.synthetic .identifier qualified enum).span = _ from rfl)
  have known : t.Knows (.named (t.qualify id name)) :=
    ModuleTree.knows_named (.enum there)
  refine Typed.found_of ⟨?_, nofun, nofun, nofun, ?_, nofun, nofun⟩ known ?_
  · rintro type same
    cases same
    exact known
  · exact fun _ => ⟨_, member.lexeme, id, name, e, _, _, rfl, rfl, rfl, there, rfl, sub inside, home,
      admits⟩
  · simpa [Node.new] using ⟨ModuleTree.every_leaf rfl, ModuleTree.every_leaf rfl⟩

theorem Sees.construct (sees : env.Sees t whole s) {keyword name : Token} {qualified : String}
    (found : env.resolveClass name = .ok qualified) :
    (Typed.of { Node.leaf .structConstruct (.synthetic .identifier qualified name) with
      line := keyword.streamLine } (.named qualified)).Found t s := by
  obtain ⟨id, short, c, there, rfl, home, admits⟩ :=
    sees.class found (show (Token.synthetic .identifier qualified name).span = _ from rfl)
  have known : t.Knows (.named (t.qualify id short)) :=
    ModuleTree.knows_named (.class there)
  refine Typed.found_of ⟨?_, nofun, nofun, nofun, nofun, ?_, nofun⟩ known nofun
  · rintro type same
    cases same
    exact known
  · exact fun _ => ⟨_, id, short, c, rfl, there, rfl, home, admits⟩

theorem Sees.called (sees : env.Sees t whole s) {name : Token} {args : List Typed} {line : Nat}
    {callee : ResolvedCall} (found : env.resolveCall name (args.map Typed.type) = .ok callee)
    (correct : ∀ e ∈ args, e.Correct) (each : ∀ e ∈ args, e.Found t s) :
    (Typed.of (.new .functionCall line
      [.leaf .identifier (.synthetic .identifier callee.qualified name),
        .new .parameters line (args.map Typed.node)]) callee.returnType).Found t s := by
  obtain ⟨selects, known⟩ := sees.call found (stated_synthetic name callee.qualified)
  have arguments : ∀ c ∈ args.map Typed.node, c.Every (t.Finds s) := by
    intro c member
    obtain ⟨e, inside, rfl⟩ := List.mem_map.mp member
    exact (each e inside).node
  have types : (args.map Typed.node).map Node.type = (args.map Typed.type).map some := by
    rw [List.map_map, List.map_map]
    apply List.map_congr_left
    intro e member
    exact (correct e member).type
  refine Typed.found_of ⟨?_, nofun, nofun, nofun, nofun, nofun, ?_⟩ known ?_
  · rintro type same
    cases same
    exact known
  · exact fun _ => ⟨_, args.map Typed.type, callee.returnType, _, _, rfl, rfl, types, rfl, selects⟩
  · simpa [Node.new] using
      ⟨ModuleTree.every_leaf rfl, @ModuleTree.every_new _ _ .parameters line _ rfl arguments⟩

end Environment

section Elaborates

variable {env : Environment} {t : ModuleTree} {whole : Bool} {s : Sight}

theorem Typed.found_ternary {c y n : Typed} {line : Nat} (condition : c.Found t s)
    (yes : y.Found t s) (no : n.Found t s) :
    (Typed.of (.new .ternaryOperator line [c.node, .new .ternaryIf line [y.node],
      .new .ternaryElse line [n.node]])
      (if y.type.isNull then n.type else y.type)).Found t s := by
  have arm : ∀ {kind : NodeKind} {e : Typed}, kind.names = false → e.Found t s →
      (Node.new kind line [e.node]).Every (t.Finds s) :=
    fun plain found => ModuleTree.every_new plain (by simpa using found.node)
  refine Typed.found_new rfl ?_ ?_
  · split
    · exact no.type
    · exact yes.type
  · simpa using ⟨condition.node, arm rfl yes, arm rfl no⟩

mutual

theorem Elaborates.found (sees : env.Sees t whole s) :
    {surface : Surface} → {e : Typed} → Elaborates env surface e → e.Found t s
  | _, _, .integer _ _ => Typed.found_integer _
  | _, _, .long _ _ => Typed.found_leaf rfl (t.knows_primitive _ _)
  | _, _, .constant table => Typed.found_constant table
  | _, _, .reference resolved => sees.reference resolved
  | _, _, .member resolved inside => sees.member resolved inside
  | _, _, .call arguments resolved =>
      sees.called resolved (ElaboratesAll.correct arguments) (ElaboratesAll.found sees arguments)
  | _, _, .construct resolved => sees.construct resolved
  | _, _, .cast _ operand =>
      Typed.found_plain rfl (t.knows_primitive _ _)
        (by simpa [Node.leaf] using (operand.found sees).node)
  | _, _, .negative _ _ =>
      Typed.found_new rfl (t.knows_primitive _ _)
        (by simpa using (Typed.found_integer _).node)
  | _, _, .unary operand _ =>
      Typed.found_new rfl (operand.found sees).type (by simpa using (operand.found sees).node)
  | _, _, .binary left right result =>
      Typed.found_new rfl (ModuleTree.knows_binaryResult result)
        (by simpa using ⟨(left.found sees).node, (right.found sees).node⟩)
  | _, _, .ternary condition yes no _ _ =>
      Typed.found_ternary (condition.found sees) (yes.found sees) (no.found sees)

theorem ElaboratesAll.found (sees : env.Sees t whole s) :
    {surfaces : List Surface} → {args : List Typed} → ElaboratesAll env surfaces args →
      ∀ e ∈ args, e.Found t s
  | _, _, .nil => by simp
  | _, _, .cons first others => by
      intro e member
      rcases List.mem_cons.mp member with rfl | member
      · exact first.found sees
      · exact ElaboratesAll.found sees others e member

end

theorem Environment.Sees.means (sees : env.Sees t whole s) {e : Typed} (means : env.Means e) :
    e.Found t s := by
  obtain ⟨surface, elaborates⟩ := means
  exact elaborates.found sees

theorem Environment.Sees.every (sees : env.Sees t whole s) {e : Typed} (means : env.Means e) :
    e.node.Every fun m => m.kind.inExpression = true ∧ t.Finds s m :=
  fun m member => ⟨means.correct.inside m member, (sees.means means).node m member⟩

end Elaborates

namespace ModuleTree

variable {t old new : ModuleTree} {asks : Sight → Node → Prop} {s : Sight} {n : Node}

/-- The operator of an assignment suits the type of the variable that its name stands for and the
type of the value in it. -/
inductive Stores (t : ModuleTree) (s : Sight) (n : Node) : Prop
  | intro {place op : Token} {operator stored value : Node} {type found : Datatype} :
      n.title? = some place → t.Denotes s place type → n.child? .operator = some operator →
      operator.token = some op → n.child? .value = some stored → stored.children = [value] →
      value.HasType found → op.kind.Suits type found → Stores t s n

/-- The names of a node stand for what there is, and what it assigns may be assigned. More may be
asked of the initial values of globals and fields. -/
structure Sound (t : ModuleTree) (asks : Sight → Node → Prop) (s : Sight) (n : Node) : Prop where
  finds : t.Finds s n
  stores : n.kind = .varSetValue → t.Stores s n
  initial : n.kind.initial = true → s.body = false → asks s n

theorem sound_untyped (untyped : n.type = none) (plain : n.kind.asked = false) : t.Sound asks s n := by
  obtain ⟨plain, other⟩ := Bool.or_eq_false_iff.mp plain
  refine ⟨finds_untyped untyped plain, fun kind => ?_, fun initial => ?_⟩
  · rw [kind] at plain
    cases plain
  · rw [other] at initial
    cases initial

theorem Offers.stores (offers : old.Offers new) (stores : old.Stores s n) : new.Stores s n := by
  obtain ⟨title, denotes, operator, op, stored, value, found, suits⟩ := stores
  exact ⟨title, offers.denotes denotes, operator, op, stored, value, found, suits⟩

theorem Agrees.sound (agrees : old.Agrees new) (sound : old.Sound asks s n) : new.Sound asks s n :=
  ⟨agrees.finds sound.finds, fun kind => agrees.offers.stores (sound.stores kind), sound.initial⟩

end ModuleTree

variable {env : Environment} {t : ModuleTree} {asks : Sight → Node → Prop} {whole : Bool} {s : Sight}
  {mods : LeadingModifiers} {line : Nat}

-- Nothing is asked of initial values.
def Unasked : Sight → Node → Prop := fun _ _ => True

-- What is asked of initial values is so of a node and all that is in it, unless it is in a body.
def Node.Asked (asks : Sight → Node → Prop) (s : Sight) (n : Node) : Prop :=
  s.body = false → n.Every fun m => m.kind.initial = true → asks s m

theorem Node.asked_of_body (body : s.body = true) (n : Node) : n.Asked asks s := by
  intro outside
  rw [body] at outside
  cases outside

/-- A part of a statement that brings nothing into sight. -/
structure Node.Part (t : ModuleTree) (asks : Sight → Node → Prop) (s : Sight) (n : Node) : Prop where
  throughout : Throughout (t.Sound asks) s n
  silent : n.locals = []

theorem ModuleTree.throughoutAll_parts {ns : List Node} (each : ∀ n ∈ ns, n.Part t asks s) :
    ThroughoutAll (t.Sound asks) s ns ∧ s.afterAll ns = s :=
  ⟨throughoutAll_of_locals (fun n member => (each n member).silent)
      fun n member => (each n member).throughout,
    s.afterAll_of_locals fun n member => (each n member).silent⟩

namespace Node

theorem part_new {kind : NodeKind} {children : List Node} (silent : kind.introduces = false)
    (plain : kind.asked = false) (flat : kind.encloses = false)
    (each : ∀ c ∈ children, c.Part t asks s) : (new kind line children).Part t asks s :=
  ⟨throughout_of_flat (ModuleTree.sound_untyped rfl plain) flat (ModuleTree.throughoutAll_parts each).1,
    locals_of_kind silent⟩

theorem part_leaf {kind : NodeKind} {token : Token} (silent : kind.introduces = false)
    (plain : kind.asked = false) (flat : kind.encloses = false) : (leaf kind token).Part t asks s :=
  ⟨throughout_of_flat (ModuleTree.sound_untyped rfl plain) flat .nil, locals_of_kind silent⟩

theorem part_name {token : Token} : (leaf .identifier token).Part t asks s :=
  part_leaf rfl rfl rfl

theorem part_of_every {n : Node} (asked : n.Asked asks s)
    (every : n.Every fun m => m.kind.inExpression = true ∧ t.Finds s m) : n.Part t asks s := by
  refine ⟨throughout_of_every n fun m inside => ?_, locals_of_inExpression (every.mono fun _ both => both.1)⟩
  obtain ⟨expression, finds⟩ := every m inside
  refine ⟨expression, finds, fun kind => ?_, fun initial outside => asked outside m inside initial⟩
  rw [kind] at expression
  cases expression

end Node

theorem LeadingModifiers.node_part : (mods.node line).Part t asks s := by
  apply Node.part_new rfl rfl rfl
  intro c member
  obtain ⟨token, _, rfl⟩ := List.mem_map.mp member
  exact Node.part_leaf rfl rfl rfl

-- A type that is spelled means what the token that spells it stands for.
def ModuleTree.Spells (t : ModuleTree) (s : Sight) (token : Option Token) (type : Datatype) : Prop :=
  ∀ place, token = some place → place.kind = .identifier →
    ∃ name nullable, type = .of (.named name) nullable ∧ t.NamesType s place name

theorem typeNode_part {token : Option Token} {type : Datatype} (known : t.Knows type)
    (spells : t.Spells s token type) : (typeNode token type line).Part t asks s := by
  have known' : ∀ other, some type = some other → t.Knows other := by
    rintro other same
    cases same
    exact known
  have sound : ∀ {n : Node}, n.type = some type → n.token = token → n.kind = .type →
      t.Sound asks s n := by
    intro n typed said kind
    refine ⟨⟨?_, ?_, ?_, ?_, ?_, ?_, ?_⟩, by rw [kind]; nofun, by rw [kind]; nofun⟩
    · rw [typed]
      exact known'
    · intro _ place here identifier
      obtain ⟨name, nullable, same, names⟩ := spells place (said.symm.trans here) identifier
      exact ⟨name, nullable, by rw [typed, same], names⟩
    all_goals
      rw [kind]
      nofun
  cases token with
  | none => exact ⟨throughout_of_flat (sound rfl rfl rfl) rfl .nil, rfl⟩
  | some place => exact ⟨throughout_of_flat (sound rfl rfl rfl) rfl .nil, rfl⟩

namespace Environment

theorem Sees.node (sees : env.Sees t whole s) {e : Typed} (asked : e.node.Asked asks s)
    (means : env.Means e) : e.node.Part t asks s :=
  Node.part_of_every asked (sees.every means)

section Body

variable (sees : env.Sees t whole s) (body : s.body = true) {n : Node}

include sees body

theorem Sees.decides (decides : env.Decides n) : n.Part t asks s := by
  obtain ⟨e, line, means, _, rfl⟩ := decides
  exact Node.part_new rfl rfl rfl (by simpa using sees.node (Node.asked_of_body body _) means)

theorem Sees.calls (calls : env.Calls n) : n.Part t asks s := by
  obtain ⟨e, means, _, rfl⟩ := calls
  exact sees.node (Node.asked_of_body body _) means

theorem Sees.assigns {implied : Bool} {after : Environment} (assigns : env.Assigns implied after n) :
    n.Part t asks s := by
  cases assigns with
  | @intro e v target op line valueLine resolved _ _ means suits =>
      have value : (Node.new .value valueLine [e.node]).Part t asks s :=
        Node.part_new rfl rfl rfl (by simpa using sees.node (Node.asked_of_body body _) means)
      have parts : ∀ c ∈ [Node.leaf .identifier (.synthetic .identifier v.qualified target),
          .leaf .operator op, .new .value valueLine [e.node]], c.Part t asks s := by
        simpa using ⟨Node.part_name, Node.part_leaf rfl rfl rfl, value⟩
      obtain ⟨denotes, _⟩ := sees.variable resolved (stated_synthetic target v.qualified)
      refine ⟨throughout_of_flat ⟨⟨nofun, nofun, nofun, ?_, nofun, nofun, nofun⟩, ?_, nofun⟩ rfl
        (ModuleTree.throughoutAll_parts parts).1, rfl⟩
      · exact fun _ => ⟨_, _, rfl, denotes⟩
      · exact fun _ => .intro rfl denotes rfl rfl rfl rfl means.correct.type suits

theorem Sees.advances {implied : Bool} {after : Environment} (advances : env.Advances implied after n) :
    n.Part t asks s := by
  cases advances with
  | assigns assigns => exact sees.assigns body assigns
  | calls calls => exact sees.calls body calls

end Body

theorem Sees.spells (sees : env.Sees t whole s) {place : Token} {type : Datatype}
    (spells : env.Spells place type) : t.Knows type ∧ t.Spells s (some place) type := by
  obtain ⟨nullable, read⟩ := spells
  obtain ⟨known, names⟩ := sees.datatype read
  refine ⟨known, ?_⟩
  rintro _ same identifier
  cases same
  exact names identifier

theorem Sees.shows (sees : env.Sees t whole s) {type : Datatype} (shown : env.Shows type) :
    t.Knows type := by
  cases shown with
  | spelled spells => exact (sees.spells spells).1
  | valued nullable means => exact ModuleTree.knows_withNullable (sees.means means).type nullable

theorem Sees.introduces (sees : env.Sees t whole s) {typeToken name : Token} {v : Variable}
    (introduces : env.Introduces typeToken name mods v) :
    v.Known t s ∧ t.Spells s (some typeToken) v.type := by
  refine ⟨⟨sees.shows introduces.type, ?_⟩, ?_⟩
  · intro n value
    obtain ⟨e, means, rfl, _⟩ := introduces.initializes n value
    exact sees.every means
  · rintro _ same identifier
    cases same
    exact (sees.spells (introduces.spelled identifier)).2 _ rfl identifier

end Environment

section Variable

variable {typeToken name : Token} {type : Datatype} {value : Option Node}

theorem locals_variableNode :
    (variableNode typeToken name mods type value).locals = [(name.lexeme, type)] := by
  cases value <;> rfl

theorem variableNode_throughout {v : Variable} (known : v.Known t s)
    (spells : t.Spells s (some typeToken) v.type)
    (asked : (variableNode typeToken name mods v.type v.value).Asked asks s) :
    Throughout (t.Sound asks) s (variableNode typeToken name mods v.type v.value) := by
  have parts : (mods.node typeToken.streamLine).Part t asks s ∧ (Node.leaf .identifier name).Part t asks s ∧
      (typeNode (some typeToken) v.type typeToken.streamLine).Part t asks s :=
    ⟨mods.node_part, Node.part_name, typeNode_part known.type spells⟩
  cases value : v.value with
  | none =>
      refine throughout_of_flat (ModuleTree.sound_untyped rfl rfl) rfl ?_
      exact (ModuleTree.throughoutAll_parts (by simpa [variableNode, Node.new] using parts)).1
  | some node =>
      rw [value] at asked
      have inner : node.Asked asks s := fun outside =>
        ((asked outside).child (c := .new .value typeToken.streamLine [node])
          (by simp [variableNode, Node.new])).child (by simp [Node.new])
      have last : (Node.new .value typeToken.streamLine [node]).Part t asks s :=
        Node.part_new rfl rfl rfl (by simpa using Node.part_of_every inner (known.value node value))
      refine throughout_of_flat ⟨ModuleTree.finds_untyped rfl rfl, (fun call => by cases call),
        fun initial outside => (asked outside).top initial⟩ rfl ?_
      refine (ModuleTree.throughoutAll_parts ?_).1
      simpa [variableNode, Node.new] using ⟨parts.1, parts.2.1, parts.2.2, last⟩

end Variable

theorem ReadParameter.Introduced.definition? {p : ReadParameter} (introduced : p.Introduced env) :
    p.node.kind = .parameter ∧
      p.node.definition? = some (p.parameter.name, p.parameter.type) := by
  obtain ⟨mods, typeToken, name, line, named, _, _, same⟩ := introduced.shown
  rw [same, ← named]
  exact ⟨rfl, rfl⟩

namespace Header

-- The variables that a function starts with.
def locals (h : Header) : List (String × Datatype) :=
  h.parameters.map fun p => (p.parameter.name, p.parameter.type)

variable {h : Header}

theorem locals_parametersNode (introduced : ∀ p ∈ h.parameters, p.Introduced env) :
    (h.parametersNode line).locals = h.locals := by
  unfold parametersNode locals
  generalize h.parameters = parameters at introduced
  show (parameters.map ReadParameter.node).filterMap _ = _
  rw [List.filterMap_map]
  induction parameters with
  | nil => rfl
  | cons p later ih =>
      obtain ⟨kind, definition⟩ := (introduced p (by simp)).definition?
      rw [List.filterMap_cons_some (by simp [kind, definition]; rfl), List.map_cons]
      rw [ih fun q member => introduced q (by simp [member])]

end Header

theorem ModuleTree.NamesType.congr {other : Sight} {place : Token} {name : String}
    (names : t.NamesType s place name) (path : other.path = s.path) (owner : other.owner = s.owner) :
    t.NamesType other place name := by
  have admits : ∀ {modifiers origin}, t.Admits s modifiers origin place →
      t.Admits other modifiers origin place :=
    fun admits => ⟨by rw [path]; exact admits.priv, admits.own⟩
  cases names with
  | «class» found home admitted =>
      refine .class found home ?_
      rw [path, owner]
      exact admitted.imp_left admits
  | enum found home admitted => exact .enum found home (admits admitted)

namespace Header

variable {h : Header} {other : Sight}

theorem parametersNode_throughout (sees : env.Sees t whole s) (path : other.path = s.path)
    (owner : other.owner = s.owner) (introduced : ∀ p ∈ h.parameters, p.Introduced env) :
    Throughout (t.Sound asks) other (h.parametersNode line) := by
  refine throughout_of_flat (ModuleTree.sound_untyped rfl rfl) rfl ?_
  refine (ModuleTree.throughoutAll_parts ?_).1
  intro c member
  obtain ⟨p, parameter, rfl⟩ := List.mem_map.mp member
  obtain ⟨mods, typeToken, name, line, _, _, spelled, same⟩ := (introduced p parameter).shown
  obtain ⟨known, spells⟩ := sees.spells spelled
  have spells : t.Spells other (some typeToken) p.parameter.type := by
    intro place same identifier
    obtain ⟨name, nullable, type, names⟩ := spells place same identifier
    exact ⟨name, nullable, type, names.congr path owner⟩
  rw [same]
  apply Node.part_new rfl rfl rfl
  simpa using ⟨mods.node_part, Node.part_name, typeNode_part known spells⟩

theorem returnNode_part (sees : env.Sees t whole s) (path : other.path = s.path)
    (owner : other.owner = s.owner) (introduced : h.Introduced env) :
    (h.returnNode line).Part t asks other := by
  apply typeNode_part
  · rcases introduced.returnType with void | ⟨place, spells⟩
    · rw [void]
      exact t.knows_primitive _ _
    · exact (sees.spells spells).1
  · intro place token identifier
    obtain ⟨_, spells⟩ := sees.spells (introduced.returnToken place token identifier)
    obtain ⟨name, nullable, type, names⟩ := spells place rfl identifier
    exact ⟨name, nullable, type, names.congr path owner⟩

end Header

end MiLanguage
