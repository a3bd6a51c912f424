import MiLanguage.Proofs.Expression.Soundness
import MiLanguage.Proofs.Node

set_option autoImplicit false

namespace MiLanguage

namespace NodeKind

-- Nodes of these kinds have values in them.
def takesValue : NodeKind → Bool
  | unary _ | binary _ | castValue | ternaryOperator | ternaryIf | ternaryElse | parameters
  | condition | value | returnValue => true
  | _ => false

-- Statements stand in nodes of these kinds.
def isBlock : NodeKind → Bool
  | functionDefinition | createConstructor | ifStatement | whileStatement | doStatement
  | forFakeScope | forStatement => true
  | _ => false

-- Statements, members or declarations stand in nodes of these kinds.
def isHost (kind : NodeKind) : Bool :=
  kind.isBlock || kind = parent || kind = createModule || kind = createClass || kind = createEnum

def hasParameters : NodeKind → Bool
  | functionCall | functionDefinition | nativeFunctionDefinition | createConstructor => true
  | _ => false

def setsVariable : NodeKind → Bool
  | varDefAndSetValue | varSetValue => true
  | _ => false

-- A node of the kind `inner` may stand in one of the kind `outer`. Of the nodes for statements and
-- declarations nothing is asked here.
def standsIn (inner outer : NodeKind) : Bool :=
  match inner with
  | value => outer.setsVariable
  | parameters => outer.hasParameters
  | ternaryIf | ternaryElse => outer = ternaryOperator
  | functionCall => outer.takesValue || outer.isBlock || outer = forInstruct
  | inner => !inner.isExpression || outer.takesValue

-- Nodes of these kinds may stand anywhere.
def isLoose (kind : NodeKind) : Bool :=
  !kind.isExpression && kind ≠ value && kind ≠ parameters && kind ≠ ternaryIf &&
    kind ≠ ternaryElse

variable {inner outer : NodeKind}

theorem standsIn_of_loose (loose : inner.isLoose = true) (outer : NodeKind) :
    inner.standsIn outer = true := by
  cases inner <;> first | rfl | cases loose

theorem standsIn_of_expression (expression : inner.isExpression = true)
    (takes : outer.takesValue = true) : inner.standsIn outer = true := by
  cases inner <;> simp_all [standsIn, isExpression]

end NodeKind

namespace Node

-- An expression without a value.
def IsVoid (n : Node) : Prop :=
  n.kind.isExpression = true ∧ ∃ type, n.type = some type ∧ type.isVoid = true

/-- What stands where in a tree. A call has a name and its arguments, other parameters are no
expressions, and what a variable is set to is no call of a function that returns nothing. -/
structure Shaped (n : Node) : Prop where
  places : ∀ c ∈ n.children, c.kind.standsIn n.kind = true
  call : n.kind = .functionCall → n.children.map Node.kind = [.identifier, .parameters]
  listed : n.kind ≠ .functionCall → ∀ c ∈ n.children, c.kind = .parameters →
    ∀ p ∈ c.children, p.kind.isExpression = false
  stored : ∀ c ∈ n.children, c.kind = .value → ∀ e ∈ c.children, ¬e.IsVoid

variable {n c : Node} {kind : NodeKind} {line : Nat} {children : List Node}

theorem shaped_of_places (parameters : n.kind.hasParameters = false)
    (sets : n.kind.setsVariable = false)
    (places : ∀ c ∈ n.children, c.kind.standsIn n.kind = true) : n.Shaped where
  places := places
  call call := by
    rw [call] at parameters
    cases parameters
  listed _ c member same := by
    have stands := places c member
    rw [same] at stands
    exact absurd stands (by simp [NodeKind.standsIn, parameters])
  stored c member same := by
    have stands := places c member
    rw [same] at stands
    exact absurd stands (by simp [NodeKind.standsIn, sets])

theorem shaped_new (parameters : kind.hasParameters = false) (sets : kind.setsVariable = false)
    (below : ∀ c ∈ children, c.kind.standsIn kind = true ∧ c.Every Shaped) :
    (new kind line children).Every Shaped :=
  every_new.mpr ⟨shaped_of_places parameters sets fun c member => (below c member).1,
    fun c member => (below c member).2⟩

theorem shaped_leaf {token : Token} (parameters : kind.hasParameters = false) :
    (leaf kind token).Every Shaped := by
  refine every_leaf.mpr ⟨by simp [leaf], ?_, by simp [leaf], by simp [leaf]⟩
  intro call
  rw [show kind = .functionCall from call] at parameters
  cases parameters

theorem Shaped.push (shaped : n.Shaped) (scope : n.kind ≠ .functionCall)
    (stands : c.kind.isLoose = true ∨ c.kind = .functionCall ∧ n.kind.isBlock = true) :
    (n.push c).Shaped := by
  have here : c.kind.standsIn n.kind = true ∧ c.kind ≠ .parameters ∧ c.kind ≠ .value := by
    rcases stands with loose | ⟨call, block⟩
    · refine ⟨NodeKind.standsIn_of_loose loose _, ?_, ?_⟩
      all_goals
        intro same
        rw [same] at loose
        cases loose
    · rw [call]
      exact ⟨by simp [NodeKind.standsIn, block], nofun, nofun⟩
  refine ⟨?_, fun call => absurd call scope, ?_, ?_⟩
  · intro d member
    rcases List.mem_append.mp member with member | member
    · exact shaped.places d member
    · rw [List.mem_singleton.mp member]
      exact here.1
  · intro _ d member same
    rcases List.mem_append.mp member with member | member
    · exact shaped.listed scope d member same
    · rw [List.mem_singleton.mp member] at same
      exact absurd same here.2.1
  · intro d member same
    rcases List.mem_append.mp member with member | member
    · exact shaped.stored d member same
    · rw [List.mem_singleton.mp member] at same
      exact absurd same here.2.2

theorem every_push (every : n.Every Shaped) (scope : n.kind ≠ .functionCall)
    (stands : c.kind.isLoose = true ∨ c.kind = .functionCall ∧ n.kind.isBlock = true)
    (below : c.Every Shaped) : (n.push c).Every Shaped := by
  refine every_iff.mpr ⟨every.top.push scope stands, ?_⟩
  intro d member
  rcases List.mem_append.mp member with member | member
  · exact every.child member
  · rw [List.mem_singleton.mp member]
    exact below

end Node

namespace Node

def HasType (n : Node) (type : Datatype) : Prop := n.type = some type

-- What the kind of a node asks of its type and of its children.
def Fits (n : Node) : Prop :=
  match n.kind with
  | .binary op => ∃ left right a b type, n.children = [left, right] ∧ left.HasType a ∧
      right.HasType b ∧ n.HasType type ∧ Datatype.binaryResult op a b = some type
  | .unary op => ∃ operand type, n.children = [operand] ∧ operand.HasType type ∧
      op.takes type = true ∧ n.HasType type
  | .ternaryOperator => ∃ condition thenArm elseArm yes no a b,
      n.children = [condition, thenArm, elseArm] ∧
      thenArm.kind = .ternaryIf ∧ thenArm.children = [yes] ∧
      elseArm.kind = .ternaryElse ∧ elseArm.children = [no] ∧
      condition.HasType .bool ∧ yes.HasType a ∧ no.HasType b ∧ a.sameBase b = true ∧
      n.HasType (if a = .null then b else a)
  | .castValue => ∃ word p operand, n.token = some word ∧ word.kind = .datatype p ∧
      n.children = [operand] ∧ n.HasType (.primitive p)
  | .condition => ∃ e, n.children = [e] ∧ e.HasType .bool
  | .varDefAndSetValue => ∃ typeChild valueChild value declared found,
      n.child? .type = some typeChild ∧ typeChild.HasType declared ∧
      n.child? .value = some valueChild ∧ valueChild.children = [value] ∧
      value.HasType found ∧ found.assignable declared = true
  | _ => True

/-- A node carries a type just where it is part of an expression or names a type, and fits what
its kind asks. -/
structure LocallyTyped (n : Node) : Prop where
  typed : n.type.isSome = true ↔ n.kind.isExpression = true ∨ n.kind = .type
  fits : n.Fits

def WellTyped (n : Node) : Prop := n.Every LocallyTyped

end Node

-- Nothing is asked of nodes of these kinds but that they carry no type.
def NodeKind.isPlain (kind : NodeKind) : Bool :=
  !kind.isExpression && kind ≠ .type && kind ≠ .condition && kind ≠ .varDefAndSetValue

namespace Node

variable {n : Node}

theorem locallyTyped_plain (plain : n.kind.isPlain = true) (untyped : n.type = none) :
    n.LocallyTyped := by
  simp only [NodeKind.isPlain, Bool.and_eq_true, Bool.not_eq_true', decide_eq_true_eq] at plain
  obtain ⟨⟨⟨expression, type⟩, condition⟩, definition⟩ := plain
  refine ⟨by simp [untyped, expression, type], ?_⟩
  unfold Fits
  split <;> simp_all [NodeKind.isExpression]

theorem wellTyped_new {kind : NodeKind} {line : Nat} {children : List Node}
    (plain : kind.isPlain = true) (wellTyped : ∀ c ∈ children, c.WellTyped) :
    (new kind line children).WellTyped :=
  every_new.mpr ⟨locallyTyped_plain plain rfl, wellTyped⟩

theorem wellTyped_leaf {kind : NodeKind} {token : Token} (plain : kind.isPlain = true) :
    (leaf kind token).WellTyped :=
  every_leaf.mpr (locallyTyped_plain plain rfl)

theorem wellTyped_typed {type : Datatype} (expression : n.kind.isExpression = true)
    (fits : (n.typed type).Fits) (wellTyped : ∀ c ∈ n.children, c.WellTyped) :
    (n.typed type).WellTyped :=
  every_iff.mpr ⟨⟨by simp [expression], fits⟩, wellTyped⟩

end Node

-- The kinds of nodes that the tree of an expression is made of.
def NodeKind.inExpression (kind : NodeKind) : Bool :=
  kind.isExpression || kind = .identifier || kind = .parameters || kind = .ternaryIf ||
    kind = .ternaryElse

namespace Typed

structure Correct (e : Typed) : Prop where
  wellTyped : e.node.WellTyped
  type : e.node.HasType e.type
  inside : e.node.Every (·.kind.inExpression = true)
  shaped : e.node.Every Node.Shaped

theorem Correct.expression {e : Typed} (correct : e.Correct) :
    e.node.kind.isExpression = true := by
  rcases correct.wellTyped.top.typed.mp (by rw [correct.type]; rfl) with expression | type
  · exact expression
  · have inside := correct.inside.top
    rw [type] at inside
    cases inside

theorem Correct.standsIn {e : Typed} (correct : e.Correct) {outer : NodeKind}
    (takes : outer.takesValue = true) :
    e.node.kind.standsIn outer = true ∧ e.node.Every Node.Shaped :=
  ⟨NodeKind.standsIn_of_expression correct.expression takes, correct.shaped⟩

theorem correct_of {node : Node} {type : Datatype} (expression : node.kind.isExpression = true)
    (fits : (node.typed type).Fits) (wellTyped : ∀ c ∈ node.children, c.WellTyped)
    (inside : ∀ c ∈ node.children, c.Every (·.kind.inExpression = true))
    (shaped : (node.typed type).Shaped) (below : ∀ c ∈ node.children, c.Every Node.Shaped) :
    (of node type).Correct where
  wellTyped := Node.wellTyped_typed expression fits wellTyped
  type := rfl
  inside := Node.every_iff.mpr ⟨by simp [NodeKind.inExpression, expression], inside⟩
  shaped := Node.every_iff.mpr ⟨shaped, below⟩

theorem correct_plain {node : Node} {type : Datatype} (expression : node.kind.isExpression = true)
    (call : node.kind ≠ .functionCall) (fits : (node.typed type).Fits)
    (wellTyped : ∀ c ∈ node.children, c.WellTyped)
    (inside : ∀ c ∈ node.children, c.Every (·.kind.inExpression = true))
    (below : ∀ c ∈ node.children, c.kind.standsIn node.kind = true ∧ c.Every Node.Shaped) :
    (of node type).Correct := by
  refine correct_of expression fits wellTyped inside (Node.shaped_of_places ?_ ?_ ?_) ?_
  · show node.kind.hasParameters = false
    unfold NodeKind.hasParameters
    split <;> simp_all [NodeKind.isExpression]
  · show node.kind.setsVariable = false
    unfold NodeKind.setsVariable
    split <;> simp_all [NodeKind.isExpression]
  · exact fun c member => (below c member).1
  · exact fun c member => (below c member).2

theorem correct_leaf {kind : NodeKind} {token : Token} {type : Datatype}
    (expression : kind.isExpression = true) (call : kind ≠ .functionCall)
    (fits : ((Node.leaf kind token).typed type).Fits) : (of (.leaf kind token) type).Correct :=
  correct_plain expression call fits (by simp [Node.leaf]) (by simp [Node.leaf])
    (by simp [Node.leaf])

theorem correct_integer (text : Token) : (integer text).Correct := correct_leaf rfl nofun trivial

theorem inside_name {token : Token} :
    (Node.leaf .identifier token).Every (·.kind.inExpression = true) :=
  Node.every_leaf.mpr rfl

theorem correct_unary {op : UnaryOperator} {operand : Typed} {line : Nat}
    (correct : operand.Correct) (takes : op.takes operand.type = true) :
    (of (.new (.unary op) line [operand.node]) operand.type).Correct := by
  refine correct_plain rfl nofun ⟨operand.node, operand.type, rfl, correct.type, takes, rfl⟩ ?_ ?_ ?_
  · simpa [Node.new] using correct.wellTyped
  · simpa [Node.new] using correct.inside
  · simpa [Node.new] using correct.standsIn rfl

theorem correct_cast {p : Primitive} {operand : Typed} {word : Token}
    (kind : word.kind = .datatype p) (correct : operand.Correct) :
    (of ((Node.leaf .castValue word).push operand.node) (.primitive p)).Correct := by
  refine correct_plain rfl nofun ⟨word, p, operand.node, rfl, kind, rfl, rfl⟩ ?_ ?_ ?_
  · simpa [Node.leaf] using correct.wellTyped
  · simpa [Node.leaf] using correct.inside
  · simpa [Node.leaf] using correct.standsIn rfl

theorem correct_binary {op : BinaryOperator} {left right : Typed} {line : Nat} {type : Datatype}
    (leftCorrect : left.Correct) (rightCorrect : right.Correct)
    (result : Datatype.binaryResult op left.type right.type = some type) :
    (of (.new (.binary op) line [left.node, right.node]) type).Correct := by
  refine correct_plain rfl nofun ⟨left.node, right.node, left.type, right.type, type, rfl,
    leftCorrect.type, rightCorrect.type, rfl, result⟩ ?_ ?_ ?_
  · simpa [Node.new] using ⟨leftCorrect.wellTyped, rightCorrect.wellTyped⟩
  · simpa [Node.new] using ⟨leftCorrect.inside, rightCorrect.inside⟩
  · simpa [Node.new] using ⟨leftCorrect.standsIn rfl, rightCorrect.standsIn rfl⟩

theorem eq_bool_of_isCondition {type : Datatype} (condition : type.isCondition = true) :
    type = .bool := by
  cases type with
  | null => simp [Datatype.isCondition, Datatype.isBool, Datatype.primitive?] at condition
  | of base nullable =>
      cases base with
      | named => simp [Datatype.isCondition, Datatype.isBool, Datatype.primitive?] at condition
      | primitive p =>
          simp [Datatype.isCondition, Datatype.isBool, Datatype.primitive?, Datatype.nullable]
            at condition
          rw [condition.1, condition.2]
          rfl

theorem correct_ternary {condition yes no : Typed} {line : Nat}
    (conditionCorrect : condition.Correct) (yesCorrect : yes.Correct) (noCorrect : no.Correct)
    (decides : condition.type.isCondition = true)
    (related : yes.type.sameBase no.type = true) :
    (of (.new .ternaryOperator line [condition.node, .new .ternaryIf line [yes.node],
      .new .ternaryElse line [no.node]]) (if yes.type.isNull then no.type else yes.type)).Correct := by
  have bool : condition.node.HasType .bool := by
    rw [← eq_bool_of_isCondition decides]
    exact conditionCorrect.type
  refine correct_plain rfl nofun ⟨condition.node, .new .ternaryIf line [yes.node],
    .new .ternaryElse line [no.node], yes.node, no.node, yes.type, no.type, rfl, rfl, rfl, rfl, rfl,
    bool, yesCorrect.type, noCorrect.type, related, by simp [Node.HasType, Datatype.isNull]⟩ ?_ ?_ ?_
  · have yesArm : (Node.new .ternaryIf line [yes.node]).WellTyped :=
      Node.wellTyped_new rfl (by simpa using yesCorrect.wellTyped)
    have noArm : (Node.new .ternaryElse line [no.node]).WellTyped :=
      Node.wellTyped_new rfl (by simpa using noCorrect.wellTyped)
    simpa [Node.new] using ⟨conditionCorrect.wellTyped, yesArm, noArm⟩
  · have yesArm : (Node.new .ternaryIf line [yes.node]).Every (·.kind.inExpression = true) :=
      Node.every_new.mpr ⟨rfl, by simpa using yesCorrect.inside⟩
    have noArm : (Node.new .ternaryElse line [no.node]).Every (·.kind.inExpression = true) :=
      Node.every_new.mpr ⟨rfl, by simpa using noCorrect.inside⟩
    simpa [Node.new] using ⟨conditionCorrect.inside, yesArm, noArm⟩
  · have yesArm : (Node.new .ternaryIf line [yes.node]).Every Node.Shaped :=
      Node.shaped_new rfl rfl (by simpa using yesCorrect.standsIn rfl)
    have noArm : (Node.new .ternaryElse line [no.node]).Every Node.Shaped :=
      Node.shaped_new rfl rfl (by simpa using noCorrect.standsIn rfl)
    simpa [Node.new] using ⟨conditionCorrect.standsIn rfl, ⟨rfl, yesArm⟩, rfl, noArm⟩

theorem correct_call {name : Token} {args : List Typed} {line : Nat} {type : Datatype}
    (correct : ∀ e ∈ args, e.Correct) :
    (of (.new .functionCall line [.leaf .identifier name,
      .new .parameters line (args.map Typed.node)]) type).Correct := by
  refine correct_of rfl trivial ?_ ?_ ⟨?_, fun _ => rfl, fun other => absurd rfl other, ?_⟩ ?_
  · have arguments : (Node.new .parameters line (args.map Typed.node)).WellTyped :=
      Node.wellTyped_new rfl (by simpa using fun e member => (correct e member).wellTyped)
    have callee : (Node.leaf .identifier name).WellTyped := Node.wellTyped_leaf rfl
    simpa [Node.new] using ⟨callee, arguments⟩
  · have arguments :
        (Node.new .parameters line (args.map Typed.node)).Every (·.kind.inExpression = true) :=
      Node.every_new.mpr ⟨rfl, by simpa using fun e member => (correct e member).inside⟩
    simpa [Node.new] using ⟨inside_name, arguments⟩
  · simp [Node.new, Node.leaf, NodeKind.standsIn, NodeKind.isExpression, NodeKind.hasParameters]
  · simp [Node.new, Node.leaf]
  · have arguments : (Node.new .parameters line (args.map Typed.node)).Every Node.Shaped :=
      Node.shaped_new rfl rfl (by simpa using fun e member => (correct e member).standsIn rfl)
    have callee : (Node.leaf .identifier name).Every Node.Shaped := Node.shaped_leaf rfl
    simpa [Node.new] using ⟨callee, arguments⟩

theorem correct_member {name member : Token} {line : Nat} {type : Datatype} :
    (of (.new .getEnumMember line [.leaf .identifier name, .leaf .identifier member])
      type).Correct := by
  have wellTyped : ∀ t, (Node.leaf .identifier t).WellTyped := fun t => Node.wellTyped_leaf rfl
  have shaped : ∀ t, (Node.leaf .identifier t).Every Node.Shaped := fun t => Node.shaped_leaf rfl
  refine correct_plain rfl nofun trivial ?_ ?_ ?_
  · simpa [Node.new] using ⟨wellTyped name, wellTyped member⟩
  · simpa [Node.new] using ⟨inside_name, inside_name⟩
  · simpa [Node.new] using ⟨⟨rfl, shaped name⟩, rfl, shaped member⟩

end Typed

mutual

theorem Elaborates.correct {env : Environment} :
    {surface : Surface} → {e : Typed} → Elaborates env surface e → e.Correct
  | _, _, .integer _ _ => Typed.correct_integer _
  | _, _, .long _ _ => Typed.correct_leaf rfl nofun trivial
  | _, _, .constant _ => Typed.correct_leaf rfl nofun trivial
  | _, _, .reference _ => Typed.correct_leaf rfl nofun trivial
  | _, _, .member _ _ => Typed.correct_member
  | _, _, .call arguments _ => Typed.correct_call (ElaboratesAll.correct arguments)
  | _, _, .construct _ => 
      Typed.correct_plain rfl nofun trivial (by simp [Node.leaf]) (by simp [Node.leaf])
        (by simp [Node.leaf])
  | .cast _ word _, _, .cast _ operand => Typed.correct_cast word.property operand.correct
  | _, _, .negative _ _ => Typed.correct_unary (Typed.correct_integer _) rfl
  | _, _, .unary operand takes => Typed.correct_unary operand.correct takes
  | _, _, .binary left right result => Typed.correct_binary left.correct right.correct result
  | _, _, .ternary condition yes no decides related =>
      Typed.correct_ternary condition.correct yes.correct no.correct decides related

theorem ElaboratesAll.correct {env : Environment} :
    {surfaces : List Surface} → {args : List Typed} → ElaboratesAll env surfaces args →
      ∀ e ∈ args, e.Correct
  | _, _, .nil => by simp
  | _, _, .cons first others => by
      intro e member
      rcases List.mem_cons.mp member with rfl | member
      · exact first.correct
      · exact ElaboratesAll.correct others e member

end

theorem Environment.Means.correct {env : Environment} {e : Typed} (means : env.Means e) :
    e.Correct := by
  obtain ⟨surface, elaborates⟩ := means
  exact elaborates.correct

end MiLanguage
