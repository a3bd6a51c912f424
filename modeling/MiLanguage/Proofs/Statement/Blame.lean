import MiLanguage.Proofs.Checked
import MiLanguage.Statement.Dispatch

set_option autoImplicit false

namespace MiLanguage

-- Messages of these faults may speak of a closing brace.
@[simp] def Fault.ofBrace : Fault → Bool
  | .syntactic .strayBrace | .syntactic .unclosedScope => true
  | .syntactic (.expected kind _) | .syntactic (.expectedInstead kind _ _) => kind = .rightBrace
  | _ => false

-- Where a check stops, it stops at no fault that has to do with a closing brace.
def Checked.Braceless {α : Type} (c : Checked α) : Prop :=
  ∀ r, c = .error r → r.fault.ofBrace = false

namespace Checked

variable {α β : Type}

@[simp] theorem braceless_ok (a : α) : Braceless (.ok a) := by
  simp [Braceless]

@[simp] theorem braceless_error (r : Report) :
    Braceless (.error r : Checked α) ↔ r.fault.ofBrace = false := by
  simp [Braceless]

@[simp] theorem braceless_pure (a : α) : Braceless (pure a) := by
  simp [Braceless, Pure.pure, Except.pure]

@[simp] theorem braceless_blame (fault : Fault) (place : Token) :
    Braceless (blame fault place : Checked α) ↔ fault.ofBrace = false := by
  simp [Braceless, blame]

@[simp] theorem braceless_require (holds : Bool) (fault : Fault) (place : Token) :
    Braceless (require holds fault place) ↔ (holds = false → fault.ofBrace = false) := by
  cases holds <;> simp [require]

@[simp] theorem braceless_bind (x : Checked α) (f : α → Checked β) :
    Braceless (x >>= f) ↔ x.Braceless ∧ ∀ a, x = .ok a → (f a).Braceless := by
  cases x with
  | ok a => simp [Bind.bind, Except.bind]
  | error r => simp [Bind.bind, Except.bind, Braceless]

end Checked

section Parts

variable {first : Token} {tokens : List Token} {place : String}

@[simp] theorem declaredName_braceless (token : Option Token) (before : Token) :
    (declaredName token before place).Braceless := by
  unfold declaredName
  repeat' split
  all_goals simp

@[simp] theorem requireEnd_braceless (last : Token) : (requireEnd tokens last place).Braceless := by
  unfold requireEnd
  split <;> simp

@[simp] theorem requireBrace_braceless (before : Token) :
    (requireBrace before tokens place).Braceless := by
  unfold requireBrace
  split <;> simp

@[simp] theorem dropLastOf_semicolon_braceless :
    (dropLastOf .semicolon first tokens place).Braceless := by
  simp only [dropLastOf]
  split <;> simp

@[simp] theorem dropLastOf_leftBrace_braceless :
    (dropLastOf .leftBrace first tokens place).Braceless := by
  simp only [dropLastOf]
  split <;> simp

end Parts

namespace LeadingModifiers

variable {mods : LeadingModifiers}

theorem readFrom_braceless {conflict : Modifier → Modifier → Fault}
    (conflicts : ∀ m present, (conflict m present).ofBrace = false) (tokens : List Token) :
    (readFrom conflict mods tokens).Braceless := by
  induction tokens generalizing mods with
  | nil => simp [readFrom]
  | cons t rest ih =>
      unfold readFrom
      repeat' split
      · exact ih
      · exact (Checked.braceless_blame _ _).mpr (conflicts _ _)
      · simp

@[simp] theorem read_braceless (tokens : List Token) : (read tokens).Braceless :=
  readFrom_braceless (by simp) tokens

@[simp] theorem requireNone_braceless : mods.requireNone.Braceless := by
  unfold requireNone
  split <;> simp

@[simp] theorem requireNoMutability_braceless (what : String) :
    (mods.requireNoMutability what).Braceless := by
  unfold requireNoMutability
  split <;> simp

@[simp] theorem requireVisibilityOnly_braceless (what : String) :
    (mods.requireVisibilityOnly what).Braceless := by
  simp only [requireVisibilityOnly, Checked.braceless_bind, requireNoMutability_braceless, true_and]
  intro _ _
  split <;> simp

end LeadingModifiers

namespace Environment

variable (env : Environment)

@[simp] theorem lookupOrBlame_braceless {α : Type} (table : Members → SymbolTable α) (what : String)
    (place : Token) : (env.lookupOrBlame table what place).Braceless := by
  unfold lookupOrBlame
  split <;> simp

@[simp] theorem checkAccess_braceless (what : String) (modifiers : Modifiers) (origin : Origin)
    (place : Token) : (env.checkAccess what modifiers origin place).Braceless := by
  simp [checkAccess]

@[simp] theorem resolveVariable_braceless (place : Token) :
    (env.resolveVariable place).Braceless := by
  simp only [resolveVariable]
  generalize (if isDotted place.lexeme then none else _ : Option ResolvedVariable) = near
  cases near <;> simp

@[simp] theorem resolveCall_braceless (place : Token) (args : List Datatype) :
    (env.resolveCall place args).Braceless := by
  unfold resolveCall
  split
  · simp only [Checked.braceless_bind, Checked.braceless_ok, true_and]
    intro found _
    split <;> simp
  · simp

@[simp] theorem resolveEnum_braceless (place : Token) : (env.resolveEnum place).Braceless := by
  simp [resolveEnum]

@[simp] theorem resolveClass_braceless (place : Token) : (env.resolveClass place).Braceless := by
  unfold resolveClass
  split <;> simp

@[simp] theorem resolveDatatype_braceless (place : Token) (nullable : Bool) :
    (env.resolveDatatype place nullable).Braceless := by
  unfold resolveDatatype
  repeat' split
  all_goals simp

end Environment

namespace Typed

variable {env : Environment} {place : Token}

@[simp] theorem binary_braceless (op : BinaryOperator) (left right : Typed) :
    (binary op left right place).Braceless := by
  unfold binary
  split <;> simp

@[simp] theorem ternary_braceless (condition yes no : Typed) :
    (ternary condition yes no place).Braceless := by
  simp [ternary]

@[simp] theorem requireOperand_braceless (holds : Bool) (operand : Typed) (wanted : String) :
    (requireOperand holds operand wanted place).Braceless := by
  simp [requireOperand]

@[simp] theorem intLiteral_braceless (negated : Bool) : (intLiteral place negated).Braceless := by
  simp only [intLiteral]
  generalize (if negated then maxInt + 1 else maxInt) = limit
  split <;> simp

@[simp] theorem longLiteral_braceless : (longLiteral place).Braceless := by
  unfold longLiteral
  split <;> simp

@[simp] theorem literal_braceless (l : LiteralToken) : (literal l place).Braceless := by
  cases l <;> simp [literal]

@[simp] theorem reference_braceless : (reference env place).Braceless := by
  simp [reference]

@[simp] theorem call_braceless (args : List Typed) : (call env place args).Braceless := by
  simp [call]

@[simp] theorem enumMember_braceless (member : Token) :
    (enumMember env place member).Braceless := by
  simp [enumMember]

@[simp] theorem construct_braceless (keyword : Token) :
    (construct env keyword place).Braceless := by
  simp [construct]

end Typed

namespace Expression

variable {env : Environment} {anchor : Token} {bound : Nat}

theorem expect_braceless {kind : TokenKind} (other : kind ≠ .rightBrace) (place : String)
    (tokens : List Token) : (expect anchor kind place tokens).Braceless := by
  unfold expect
  repeat' split
  all_goals simp [other]

@[simp] theorem construct_braceless (keyword : Token) (tokens : List Token) :
    (construct env anchor keyword tokens).Braceless := by
  unfold construct
  simp only [Checked.braceless_bind]
  refine ⟨expect_braceless (by simp) _ _, ?_⟩
  rintro ⟨name, rest⟩ _
  dsimp only
  repeat' split
  all_goals simp [expect_braceless]

@[simp] theorem enumMember_braceless (name : Token) (tokens : List Token) :
    (enumMember env anchor name tokens).Braceless := by
  simp [enumMember, expect_braceless]

/-- No reader of expressions with that bound is blamed for a closing brace. -/
structure Braceless (env : Environment) (anchor : Token) (bound : Nat) : Prop where
  read : ∀ level tokens, (read env anchor bound level tokens).Braceless
  climb : ∀ level left tokens, (climb env anchor bound level left tokens).Braceless
  operand : ∀ tokens, (operand env anchor bound tokens).Braceless
  arguments : ∀ tokens, (arguments env anchor bound tokens).Braceless
  argumentList : ∀ tokens, (argumentList env anchor bound tokens).Braceless

theorem climb_braceless (braceless : Braceless env anchor bound) (level : Nat) (left : Typed)
    (tokens : List Token) : (climb env anchor (bound + 1) level left tokens).Braceless := by
  cases tokens with
  | nil => simp [climb]
  | cons t rest =>
      simp only [climb]
      split
      · split
        · simp [braceless.read, braceless.climb, expect_braceless]
        · simp
      · split
        · simp [braceless.read, braceless.climb]
        · simp
      · simp

theorem operand_braceless (braceless : Braceless env anchor bound) (tokens : List Token) :
    (operand env anchor (bound + 1) tokens).Braceless := by
  cases tokens with
  | nil => simp [operand]
  | cons t rest =>
      simp only [operand]
      split
      · simp [braceless.operand]
      · simp [braceless.operand]
      · simp [braceless.operand]
      · split
        · simp
        · split <;> simp [braceless.operand]
      · simp [braceless.operand]
      · simp [braceless.operand]
      · split <;> simp [braceless.operand]
      · simp [braceless.read, expect_braceless]
      · split
        · simp
        · split <;> simp [braceless.arguments, expect_braceless]
      · simp
      · simp
      · simp

theorem braceless (env : Environment) (anchor : Token) (bound : Nat) :
    Braceless env anchor bound := by
  induction bound with
  | zero =>
      constructor
      all_goals intros
      all_goals simp [read, climb, operand, arguments, argumentList]
  | succ bound ih =>
      constructor
      · intro level tokens
        simp [read, ih.operand, ih.climb]
      · exact climb_braceless ih
      · exact operand_braceless ih
      · intro tokens
        simp only [arguments]
        split <;> simp [ih.argumentList]
      · intro tokens
        simp only [argumentList, Checked.braceless_bind, ih.read, true_and]
        intro found _
        repeat' split
        all_goals simp [ih.argumentList]

end Expression

@[simp] theorem Environment.expression_braceless (env : Environment) (tokens : List Token)
    (place : Token) : (env.expression tokens place).Braceless := by
  unfold expression
  split
  next => simp
  next anchor _ =>
    simp only [Checked.braceless_bind, (Expression.braceless env anchor _).read, true_and]
    intro found _
    split <;> simp


namespace Parameter

variable {env : Environment} {tokens : List Token}

@[simp] theorem readModifiers_braceless (mods : LeadingModifiers) :
    (readModifiers mods tokens).Braceless := by
  induction tokens generalizing mods with
  | nil => simp [readModifiers]
  | cons t rest ih =>
      unfold readModifiers
      repeat' split
      all_goals simp [ih]

@[simp] theorem requireType_braceless (t : Token) : (requireType t).Braceless := by
  unfold requireType
  split <;> simp

@[simp] theorem read_braceless (others : List ReadParameter) (place : Token) :
    (read env others place tokens).Braceless := by
  unfold read
  split
  · simp
  · simp only [Checked.braceless_bind, Checked.braceless_ok, readModifiers_braceless, true_and]
    intro first _ found _
    repeat' split
    all_goals simp
    intro _ _ _ _ _ _
    split <;> simp

@[simp] theorem readAll_braceless (place : Token) (found : List ReadParameter)
    (parts : List (List Token)) : (readAll env place found parts).Braceless := by
  induction parts generalizing found with
  | nil => simp [readAll]
  | cons part parts ih => simp [readAll, ih]

@[simp] theorem readList_braceless : (readList env tokens).Braceless := by
  unfold readList
  repeat' split
  all_goals simp

end Parameter

namespace Header

variable {env : Environment} {mods : LeadingModifiers} {tokens : List Token}

@[simp] theorem readTail_braceless (last : Token) : (readTail tokens last).Braceless := by
  unfold readTail
  repeat' split
  all_goals simp

@[simp] theorem readReturn_braceless (last : Token) :
    (readReturn env mods tokens last).Braceless := by
  unfold readReturn
  repeat' split
  all_goals simp

@[simp] theorem read_braceless (keyword : Token) :
    (read env mods keyword tokens).Braceless := by
  simp [read]

end Header

namespace Environment

variable {env : Environment} {setting : Setting} {mods : LeadingModifiers} {first : Token}
  {rest : List Token}

@[simp] theorem requireBlock_braceless (place : Token) : (env.requireBlock place).Braceless := by
  simp [requireBlock]

@[simp] theorem placement_braceless (place : Token) : (env.placement place).Braceless := by
  unfold placement
  split <;> simp

@[simp] theorem variableType_braceless (declared : Option Datatype) (value : Option Typed)
    (nullable : Bool) (name typeToken valueToken : Token) :
    (variableType declared value nullable name typeToken valueToken).Braceless := by
  unfold variableType
  split <;> simp

@[simp] theorem initialTokens_braceless : (initialTokens rest).Braceless := by
  unfold initialTokens
  repeat' split
  all_goals simp

@[simp] theorem newVariable_braceless (placement : Placement) (typeToken stop : Token) :
    (env.newVariable placement mods typeToken rest stop).Braceless := by
  unfold newVariable
  cases mods.first? (· = .nat) with
  | some t => simp
  | none =>
      simp only [Checked.braceless_bind, declaredName_braceless, initialTokens_braceless, true_and]
      intro name _ initial _
      split
      all_goals
        cases initial
        all_goals
          simp
          intros
          split <;> simp

@[simp] theorem variableStatement_braceless :
    (env.variableStatement setting mods first rest).Braceless := by
  simp only [variableStatement, Checked.braceless_bind, dropLastOf_semicolon_braceless,
    placement_braceless, true_and]
  intro definition _ placement _
  split <;> simp

@[simp] theorem assignedValue_braceless (v : ResolvedVariable) (op : Token) :
    (env.assignedValue v op rest).Braceless := by
  simp [assignedValue]
  intros
  repeat' split
  all_goals simp

@[simp] theorem stepValue_braceless (v : ResolvedVariable) (binary : BinaryOperator) (op : Token) :
    (stepValue v binary op rest).Braceless := by
  simp [stepValue]
  split <;> simp

@[simp] theorem assign_braceless (implied : Bool) (target op : Token) :
    (env.assign implied target op rest).Braceless := by
  simp [assign]
  intros
  split <;> simp


@[simp] theorem conditionNode_braceless (place : Token) :
    (env.conditionNode rest place).Braceless := by
  simp [conditionNode]

@[simp] theorem wrappedCondition_braceless (keyword : Token) :
    (env.wrappedCondition rest keyword).Braceless := by
  unfold wrappedCondition
  split <;> simp

@[simp] theorem openConditional_braceless (kind : BlockKind) (nodeKind : NodeKind) :
    (env.openConditional mods kind nodeKind first rest).Braceless := by
  simp [openConditional]

@[simp] theorem openDo_braceless : (env.openDo mods first rest).Braceless := by
  simp [openDo]

@[simp] theorem desugarRange_braceless (keyword : Token) :
    (desugarRange rest keyword).Braceless := by
  cases rest with
  | nil => simp [desugarRange]
  | cons v rest => cases rest <;> simp [desugarRange]

@[simp] theorem forHead_braceless (keyword : Token) : (ForHead.read keyword rest).Braceless := by
  unfold ForHead.read
  split <;> simp

@[simp] theorem loopDefinition_braceless (keyword : Token) :
    (env.loopDefinition rest keyword).Braceless := by
  simp only [loopDefinition, Checked.braceless_bind, LeadingModifiers.read_braceless, true_and]
  rintro ⟨mods, later⟩ _
  cases later <;> simp

@[simp] theorem callStep_braceless (place : Token) : (env.callStep rest place).Braceless := by
  simp [callStep]

@[simp] theorem loopStep_braceless (implied : Bool) (keyword : Token) :
    (env.loopStep implied rest keyword).Braceless := by
  simp only [loopStep]
  repeat' split
  all_goals simp

@[simp] theorem openFor_braceless : (env.openFor setting mods first rest).Braceless := by
  simp only [openFor, Checked.braceless_bind, LeadingModifiers.requireNone_braceless,
    requireBlock_braceless, dropLastOf_leftBrace_braceless, true_and]
  intro _ _ _ _ header _
  split <;> simp

@[simp] theorem returnStatement_braceless : (env.returnStatement mods first rest).Braceless := by
  simp only [returnStatement, Checked.braceless_bind, LeadingModifiers.requireNone_braceless,
    requireBlock_braceless, dropLastOf_semicolon_braceless, true_and]
  intro _ _ _ _ value _
  split
  all_goals
    simp only [Checked.braceless_bind, Checked.braceless_ok, expression_braceless, true_and]
    intros
    split <;> simp

@[simp] theorem loopExit_braceless (nodeKind : NodeKind) :
    (env.loopExit mods nodeKind first rest).Braceless := by
  simp [loopExit]

@[simp] theorem useStatement_braceless : (env.useStatement mods first rest).Braceless := by
  simp only [useStatement, Checked.braceless_bind, LeadingModifiers.requireNone_braceless,
    requireBlock_braceless, true_and]
  intro _ _ _ _
  repeat' split
  all_goals
    simp
    try (intros; split <;> simp)

@[simp] theorem endLibrary_braceless : (env.endLibrary mods first rest).Braceless := by
  simp [endLibrary]

@[simp] theorem callStatement_braceless : (env.callStatement mods first rest).Braceless := by
  simp [callStatement]

@[simp] theorem assignment_braceless (op : Token) :
    (env.assignment mods first op rest).Braceless := by
  simp [assignment]

@[simp] theorem nameStatement_braceless : (env.nameStatement setting mods first rest).Braceless := by
  unfold nameStatement
  repeat' split
  all_goals simp

@[simp] theorem openModule_braceless : (env.openModule setting mods first rest).Braceless := by
  simp only [openModule, Checked.braceless_bind, LeadingModifiers.requireNone_braceless, true_and]
  intro _ _
  split
  all_goals
    simp
    try (intros; repeat' split)
    all_goals simp

@[simp] theorem requireTypePlace_braceless (plural title : String) :
    (env.requireTypePlace first plural title).Braceless := by
  unfold requireTypePlace
  split <;> simp

@[simp] theorem requireFreeName_braceless (name : Token) :
    (env.requireFreeName name).Braceless := by
  simp [requireFreeName]

@[simp] theorem openClass_braceless : (env.openClass setting mods first rest).Braceless := by
  simp only [openClass, Checked.braceless_bind, LeadingModifiers.requireVisibilityOnly_braceless,
    requireTypePlace_braceless, declaredName_braceless, requireBrace_braceless, true_and]
  intros
  repeat' split
  all_goals simp

@[simp] theorem openEnum_braceless : (env.openEnum setting mods first rest).Braceless := by
  simp only [openEnum, Checked.braceless_bind, LeadingModifiers.requireVisibilityOnly_braceless,
    requireTypePlace_braceless, declaredName_braceless, requireBrace_braceless, true_and]
  intros
  repeat' split
  all_goals simp

@[simp] theorem memberNames_braceless (last : Token) (parts : List (List Token)) :
    (memberNames last parts).Braceless := by
  induction parts with
  | nil => simp [memberNames]
  | cons part parts ih =>
      unfold memberNames
      split <;> simp [ih]

@[simp] theorem readMembers_braceless : (readMembers mods first rest).Braceless := by
  simp [readMembers]

theorem declareMembers_braceless (id : ModuleId) (e : EnumDeclaration) :
    Checked.Braceless (env.declareMembers setting id e mods first rest).2 := by
  unfold declareMembers
  split
  next r read =>
    have braceless : (readMembers mods first rest).Braceless := readMembers_braceless
    simpa [read] using braceless
  next =>
    dsimp only
    repeat' split
    all_goals simp

@[simp] theorem requireFunctionPlace_braceless : (env.requireFunctionPlace first).Braceless := by
  unfold requireFunctionPlace
  split <;> simp

@[simp] theorem declareFunction_braceless (h : Header) (body : FunctionBody) :
    (env.declareFunction mods h body).Braceless := by
  simp only [declareFunction]
  split <;> simp

@[simp] theorem function_braceless : (env.function setting mods first rest).Braceless := by
  simp only [function, Checked.braceless_bind, LeadingModifiers.requireNoMutability_braceless,
    requireFunctionPlace_braceless, Header.read_braceless, true_and]
  intros
  repeat' split
  all_goals simp

@[simp] theorem constructor_braceless : (env.constructor setting mods first rest).Braceless := by
  unfold Environment.constructor
  split
  all_goals
    simp
    try (split <;> simp)

theorem read_braceless : (env.read setting mods first rest).Braceless := by
  unfold read
  repeat' split
  all_goals simp

theorem dispatch_braceless :
    Checked.Braceless (env.dispatch setting mods first rest).result := by
  unfold dispatch
  split
  · exact declareMembers_braceless _ _
  · have braceless : (env.read setting mods first rest).Braceless := read_braceless
    cases read : env.read setting mods first rest with
    | ok => simp [Outcome.ofChecked]
    | error r => simpa [Outcome.ofChecked, read] using braceless

theorem statement_braceless : Checked.Braceless (env.statement setting first rest).result := by
  have braceless := LeadingModifiers.read_braceless (first :: rest)
  unfold statement
  split
  next r read => simpa [read] using braceless
  next => simp
  next => exact dispatch_braceless

end Environment

end MiLanguage
