import MiLanguage.Proofs.Node
import MiLanguage.Proofs.Typing.Statement
import MiLanguage.Statement.Control

set_option autoImplicit false

namespace MiLanguage

/-- How a statement ends, or a list of them. -/
inductive Exit where
  | fallsThrough | broken | continued | returned
  deriving DecidableEq, Repr

namespace Exit

-- A body that ends so may run again.
def goesOn : Exit → Bool
  | fallsThrough | continued => true
  | _ => false

-- How a loop ends whose body ends so, if that ends the loop.
def leaves? : Exit → Option Exit
  | broken => some fallsThrough
  | returned => some returned
  | _ => none

end Exit

namespace NodeKind

def isLoop : NodeKind → Bool
  | whileStatement | doStatement | forStatement => true
  | _ => false

def isJump : NodeKind → Bool
  | breakStatement | continueStatement => true
  | _ => false

-- Anything else is passed without a choice.
def isControl : NodeKind → Bool
  | ifStatement | whileStatement | doStatement | forFakeScope | forStatement | returnValue
  | breakStatement | continueStatement => true
  | _ => false

end NodeKind

mutual

/-- The finite runs of a statement, where conditions are not looked at: a branch may be taken or
not, and a loop may run any number of times, if it has no `do` that makes it run once. -/
inductive Executes : Node → Exit → Prop
  | plain {n : Node} : n.kind.isControl = false → Executes n .fallsThrough
  | returns {n : Node} : n.kind = .returnValue → Executes n .returned
  | breaks {n : Node} : n.kind = .breakStatement → Executes n .broken
  | continues {n : Node} : n.kind = .continueStatement → Executes n .continued
  | skips {n : Node} : n.kind = .ifStatement → Executes n .fallsThrough
  | branches {n : Node} {exit : Exit} :
      n.kind = .ifStatement → Runs n.children exit → Executes n exit
  | heads {n : Node} {exit : Exit} :
      n.kind = .forFakeScope → Runs n.children exit → Executes n exit
  | loops {n : Node} {exit : Exit} :
      n.kind = .whileStatement ∨ n.kind = .forStatement → Repeats n.children exit →
      Executes n exit
  | repeats {n : Node} {first exit : Exit} :
      n.kind = .doStatement → Runs n.children first → first.goesOn = true →
      Repeats n.children exit → Executes n exit
  | stops {n : Node} {first exit : Exit} :
      n.kind = .doStatement → Runs n.children first → first.leaves? = some exit → Executes n exit

/-- The finite runs of a list of statements. -/
inductive Runs : List Node → Exit → Prop
  | done : Runs [] .fallsThrough
  | next {n : Node} {rest : List Node} {exit : Exit} :
      Executes n .fallsThrough → Runs rest exit → Runs (n :: rest) exit
  | stops {n : Node} {rest : List Node} {exit : Exit} :
      Executes n exit → exit ≠ .fallsThrough → Runs (n :: rest) exit

/-- The finite runs of a body, none or more after each other. -/
inductive Repeats : List Node → Exit → Prop
  | done {body : List Node} : Repeats body .fallsThrough
  | again {body : List Node} {first exit : Exit} :
      Runs body first → first.goesOn = true → Repeats body exit → Repeats body exit
  | stops {body : List Node} {first exit : Exit} :
      Runs body first → first.leaves? = some exit → Repeats body exit

end

/-- The same base type, with nullability at most added; `null` stands for nullable types only. -/
inductive Datatype.Widens : Datatype → Datatype → Prop
  | null {wanted : Datatype} : wanted.nullable = true → Widens .null wanted
  | same {base : BaseType} {found wanted : Bool} :
      (found = true → wanted = true) → Widens (.of base found) (.of base wanted)

theorem Datatype.widens_of_fits {found wanted : Datatype} (fits : found.fits wanted = true) :
    found.Widens wanted := by
  cases found with
  | null => exact .null fits
  | of base n =>
      cases wanted with
      | null => cases fits
      | of base' n' =>
          simp only [Datatype.fits, Bool.and_eq_true, decide_eq_true_eq, Bool.or_eq_true,
            Bool.not_eq_true'] at fits
          obtain ⟨rfl, wider⟩ := fits
          refine .same fun nullable => ?_
          simpa [nullable] using wider

namespace Node

/-- A `break` or `continue` in the tree of `n` with no loop around it there. -/
inductive Escapes : Node → Node → Prop
  | here {n : Node} : n.kind.isJump = true → Escapes n n
  | inside {n child jump : Node} :
      n.kind.isLoop = false → child ∈ n.children → Escapes child jump → Escapes n jump

-- A `return` gives what a function of that type may return: a value that fits, or none.
def Gives (wanted : Datatype) (n : Node) : Prop :=
  if wanted.isVoid then
    n.children = [] ∨ ∃ value type, n.children = [value] ∧ value.type = some type ∧
      type.isVoid = true
  else
    ∃ value type, n.children = [value] ∧ value.type = some type ∧ type.isVoid = false ∧
      type.Widens wanted

/-- What holds of every run of a body that is declared to return `wanted`. -/
structure ControlSound (n : Node) (wanted : Datatype) : Prop where
  contained : ∀ jump, ¬n.Escapes jump
  exits : ∀ exit, Runs n.children exit → exit = .fallsThrough ∨ exit = .returned
  returns : wanted.isVoid = false → ∀ exit, Runs n.children exit → exit = .returned
  gives : ∀ m ∈ n.preorder, m.kind = .returnValue → m.Gives wanted

-- The type that a function's node declares.
def declaredType? (n : Node) : Option Datatype := (n.child? .type).bind Node.type

/-- A constructor declares no type and returns nothing. -/
structure FunctionSound (n : Node) : Prop where
  function : n.kind = .functionDefinition →
    ∃ wanted, n.declaredType? = some wanted ∧ n.ControlSound wanted
  constructor : n.kind = .createConstructor → n.ControlSound .void

end Node

def Exit.jumps (exit : Exit) : Prop := exit = .broken ∨ exit = .continued

theorem not_jumps_of_leaves {first exit : Exit} (leaves : first.leaves? = some exit) :
    ¬exit.jumps := by
  cases first <;> cases leaves <;> simp [Exit.jumps]

theorem Repeats.not_jumps : {body : List Node} → {exit : Exit} → Repeats body exit → ¬exit.jumps
  | _, _, .done => by simp [Exit.jumps]
  | _, _, .again _ _ rest => rest.not_jumps
  | _, _, .stops _ leaves => not_jumps_of_leaves leaves

mutual

-- A run that ends in a jump has met one that escapes.
theorem Executes.escapes : {n : Node} → {exit : Exit} → Executes n exit → exit.jumps →
    ∃ jump, n.Escapes jump
  | n, _, .breaks kind, _ => ⟨n, .here (by rw [kind]; rfl)⟩
  | n, _, .continues kind, _ => ⟨n, .here (by rw [kind]; rfl)⟩
  | _, _, .branches kind runs, jumps => by
      obtain ⟨child, member, jump, escapes⟩ := runs.escapes jumps
      exact ⟨jump, .inside (by rw [kind]; rfl) member escapes⟩
  | _, _, .heads kind runs, jumps => by
      obtain ⟨child, member, jump, escapes⟩ := runs.escapes jumps
      exact ⟨jump, .inside (by rw [kind]; rfl) member escapes⟩
  | _, _, .loops _ repeats, jumps => absurd jumps repeats.not_jumps
  | _, _, .repeats _ _ _ repeats, jumps => absurd jumps repeats.not_jumps
  | _, _, .stops _ _ leaves, jumps => absurd jumps (not_jumps_of_leaves leaves)

theorem Runs.escapes : {body : List Node} → {exit : Exit} → Runs body exit → exit.jumps →
    ∃ child ∈ body, ∃ jump, child.Escapes jump
  | _, _, .next _ rest, jumps => by
      obtain ⟨child, member, escapes⟩ := rest.escapes jumps
      exact ⟨child, List.mem_cons_of_mem _ member, escapes⟩
  | n :: _, _, .stops executes _, jumps => ⟨n, by simp, executes.escapes jumps⟩

end

theorem Executes.of_return {n : Node} {exit : Exit} (executes : Executes n exit)
    (kind : n.kind = .returnValue) : exit = .returned := by
  cases executes with
  | returns => rfl
  | loops other => rw [kind] at other; rcases other with other | other <;> cases other
  | plain other => rw [kind] at other; cases other
  | _ => rw [kind] at *; contradiction

-- Nothing runs past a `return`.
theorem Runs.not_fallsThrough {body : List Node} {exit : Exit} (runs : Runs body exit) {n : Node}
    (member : n ∈ body) (kind : n.kind = .returnValue) : exit ≠ .fallsThrough := by
  induction body generalizing exit with
  | nil => simp at member
  | cons head rest ih =>
      cases runs with
      | next executes runs =>
          rcases List.mem_cons.mp member with rfl | member
          · cases executes.of_return kind
          · exact ih runs member
      | stops _ stopped => exact stopped

namespace Node

-- What the analyzer checks of a body is enough.
theorem controlSound_of {n : Node} {wanted : Datatype} (function : n.kind.isJump = false)
    (contained : ∀ child ∈ n.children, ∀ jump, ¬child.Escapes jump)
    (returned : wanted.isVoid = false → ∃ child ∈ n.children, child.kind = .returnValue)
    (gives : ∀ m ∈ n.preorder, m.kind = .returnValue → m.Gives wanted) : n.ControlSound wanted := by
  have exits : ∀ exit, Runs n.children exit → exit = .fallsThrough ∨ exit = .returned := by
    intro exit runs
    cases exit with
    | fallsThrough => exact .inl rfl
    | returned => exact .inr rfl
    | broken =>
        obtain ⟨child, member, jump, escapes⟩ := runs.escapes (.inl rfl)
        exact absurd escapes (contained child member jump)
    | continued =>
        obtain ⟨child, member, jump, escapes⟩ := runs.escapes (.inr rfl)
        exact absurd escapes (contained child member jump)
  refine ⟨?_, exits, ?_, gives⟩
  · intro jump escapes
    cases escapes with
    | here jumps => rw [function] at jumps; cases jumps
    | inside _ member escapes => exact contained _ member jump escapes
  · intro storable exit runs
    obtain ⟨child, member, kind⟩ := returned storable
    rcases exits exit runs with same | same
    · exact absurd same (runs.not_fallsThrough member kind)
    · exact same

end Node

namespace NodeKind

def isFunction (kind : NodeKind) : Bool := kind = .functionDefinition || kind = .createConstructor

-- Neither a scope nor what ends a function or a loop.
def isInert (kind : NodeKind) : Bool :=
  !kind.isHost && !kind.isJump && kind ≠ .returnValue

theorem isInert_iff {kind : NodeKind} :
    kind.isInert = true ↔
      kind.isHost = false ∧ kind.isJump = false ∧ kind ≠ .returnValue := by
  simp [isInert, and_assoc]

theorem isFunction_of_not_isHost {kind : NodeKind} (other : kind.isHost = false) :
    kind.isFunction = false := by
  cases kind <;> first | rfl | cases other

theorem isInert_of_inExpression {kind : NodeKind} (inside : kind.inExpression = true) :
    kind.isInert = true := by
  cases kind with
  | functionDefinition | createConstructor | breakStatement | continueStatement | returnValue
  | parent | createModule | createClass | createEnum | ifStatement | whileStatement | doStatement
  | forFakeScope | forStatement =>
      simp [inExpression, isExpression] at inside
  | _ => rfl

end NodeKind

namespace Node

-- Such a node changes nothing about how the body around it ends.
def Inert (n : Node) : Prop := n.Every (·.kind.isInert = true)

def Sound (n : Node) : Prop := n.Every FunctionSound

variable {n : Node}

theorem inert_new {kind : NodeKind} {line : Nat} {children : List Node}
    (inert : kind.isInert = true) (below : ∀ c ∈ children, c.Inert) :
    (new kind line children).Inert :=
  every_new.mpr ⟨inert, below⟩

theorem inert_leaf {kind : NodeKind} {token : Token} (inert : kind.isInert = true) :
    (leaf kind token).Inert :=
  every_leaf.mpr inert

theorem Inert.not_escapes (inert : n.Inert) (jump : Node) : ¬n.Escapes jump := by
  intro escapes
  induction escapes with
  | here jumps =>
      obtain ⟨_, exitless, _⟩ := NodeKind.isInert_iff.mp inert.top
      rw [exitless] at jumps
      cases jumps
  | inside _ member _ ih => exact ih (inert.child member)

theorem Inert.not_returns (inert : n.Inert) {m : Node} (member : m ∈ n.preorder) :
    m.kind ≠ .returnValue :=
  (NodeKind.isInert_iff.mp (inert m member)).2.2

theorem functionSound_of_not {n : Node} (other : n.kind.isFunction = false) : n.FunctionSound := by
  simp only [NodeKind.isFunction, Bool.or_eq_false_iff, decide_eq_false_iff_not] at other
  exact ⟨fun kind => absurd kind other.1, fun kind => absurd kind other.2⟩

theorem Inert.sound (inert : n.Inert) : n.Sound :=
  inert.mono fun _ inert =>
    functionSound_of_not (NodeKind.isFunction_of_not_isHost (NodeKind.isInert_iff.mp inert).1)

end Node

theorem Typed.Correct.inert {e : Typed} (correct : e.Correct) : e.node.Inert :=
  correct.inside.mono fun _ inside => NodeKind.isInert_of_inExpression inside

section Parts

variable {mods : LeadingModifiers} {line : Nat}

theorem LeadingModifiers.node_inert : (mods.node line).Inert := by
  refine Node.inert_new rfl ?_
  intro c member
  obtain ⟨t, _, rfl⟩ := List.mem_map.mp member
  exact Node.inert_leaf rfl

theorem typeNode_inert {token : Option Token} {type : Datatype} :
    (typeNode token type line).Inert := by
  cases token <;>
    exact Node.every_iff.mpr ⟨rfl, by simp [typeNode, Node.leaf, Node.new]⟩

theorem name_inert {name : Token} : (Node.leaf .identifier name).Inert := Node.inert_leaf rfl

theorem Header.parametersNode_inert {h : Header} (shown : ∀ p ∈ h.parameters, p.Shown) :
    (h.parametersNode line).Inert := by
  refine Node.inert_new rfl ?_
  intro c member
  obtain ⟨p, parameter, rfl⟩ := List.mem_map.mp member
  obtain ⟨mods, typeToken, name, line, same⟩ := shown p parameter
  rw [same]
  exact Node.inert_new rfl (by simpa using ⟨mods.node_inert, name_inert, typeNode_inert⟩)

theorem Header.parts_inert {h : Header} (shown : ∀ p ∈ h.parameters, p.Shown) :
    ∀ c ∈ h.parts mods line, c.Inert := by
  simpa [Header.parts] using ⟨name_inert, typeNode_inert, mods.node_inert,
    h.parametersNode_inert shown⟩

theorem Header.declaredType?_parts (h : Header) (mods : LeadingModifiers) (line : Nat) :
    (Node.new .functionDefinition line (h.parts mods line)).declaredType? = some h.returnType := by
  cases token : h.returnToken <;>
    simp [Node.declaredType?, Node.child?, Node.new, Header.parts, Header.returnNode, typeNode,
      token, Node.leaf, Node.typed]

theorem constructorParts_inert {h : Header} (shown : ∀ p ∈ h.parameters, p.Shown) :
    ∀ c ∈ constructorParts mods h line, c.Inert := by
  simpa [constructorParts] using ⟨mods.node_inert, h.parametersNode_inert shown⟩

theorem membersNode_inert (names : List Token) :
    (Node.new .enumValues line (names.map (Node.leaf .identifier))).Inert := by
  refine Node.inert_new rfl ?_
  intro c member
  obtain ⟨t, _, rfl⟩ := List.mem_map.mp member
  exact name_inert

theorem variableNode_inert {typeToken name : Token} {v : Variable} (typed : v.WellTyped) :
    (variableNode typeToken name mods v.type v.value).Inert := by
  have parts : (mods.node typeToken.streamLine).Inert ∧ (Node.leaf .identifier name).Inert ∧
      (typeNode (some typeToken) v.type typeToken.streamLine).Inert :=
    ⟨mods.node_inert, name_inert, typeNode_inert⟩
  cases value : v.value with
  | none => exact Node.inert_new rfl (by simpa using parts)
  | some node =>
      obtain ⟨e, rfl, correct, _⟩ := typed node value
      have last : (Node.new .value typeToken.streamLine [e.node]).Inert :=
        Node.inert_new rfl (by simpa using correct.inert)
      refine Node.inert_new rfl ?_
      simpa [or_imp, forall_and] using ⟨parts.1, parts.2.1, parts.2.2, last⟩

end Parts

namespace Environment

variable {env : Environment}

theorem Decides.inert {node : Node} (decides : env.Decides node) : node.Inert := by
  obtain ⟨e, line, means, _, rfl⟩ := decides
  exact Node.inert_new rfl (by simpa using means.correct.inert)

theorem Calls.inert {node : Node} (calls : env.Calls node) : node.Inert := by
  obtain ⟨e, means, _, rfl⟩ := calls
  exact means.correct.inert

theorem Defines.inert {placement : Placement} {declared : Environment} {node : Node}
    (defines : env.Defines placement declared node) : node.Inert := by
  obtain ⟨_, _, introduces, _⟩ := defines
  exact variableNode_inert introduces.initializes.wellTyped

theorem Assigns.inert {implied : Bool} {after : Environment} {node : Node}
    (assigns : env.Assigns implied after node) :
    node.Inert := by
  obtain ⟨op, _, valueLine, _, _, _, means⟩ := assigns
  have value : (Node.new .value valueLine [_]).Inert :=
    Node.inert_new rfl (by simpa using means.correct.inert)
  have operator : (Node.leaf .operator op).Inert := Node.inert_leaf rfl
  exact Node.inert_new rfl (by simpa using ⟨name_inert, operator, value⟩)

theorem Advances.inert {implied : Bool} {after : Environment} {node : Node}
    (advances : env.Advances implied after node) :
    node.Inert := by
  cases advances with
  | assigns assigns => exact assigns.inert
  | calls calls => exact calls.inert

end Environment

end MiLanguage
