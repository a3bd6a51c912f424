import MiLanguage.Analysis.State
import MiLanguage.Proofs.Checked
import MiLanguage.Proofs.Expression.Soundness
import MiLanguage.Statement.Variable

set_option autoImplicit false

namespace MiLanguage

namespace Datatype

-- A value of the type `found` may be stored where `type` is declared, nullability aside.
def KeptIn (found type : Datatype) : Prop :=
  found.isNull = true ∨ (found.withNullable type.nullable).assignable type = true

instance (found type : Datatype) : Decidable (found.KeptIn type) :=
  inferInstanceAs (Decidable (_ ∨ _))

variable {binary : BinaryOperator} {type result : Datatype}

-- The type of a `char` and one more is `int`, which no `char` keeps.
theorem step_char (char : type.primitive? = some .char) (steps : binary = .add ∨ binary = .sub) :
    ∃ result, binaryResult binary type .int = some result ∧ ¬result.KeptIn type := by
  cases type with
  | null => cases char
  | of base nullable =>
      cases base with
      | named => cases char
      | primitive p =>
          cases char
          rcases steps with rfl | rfl <;> cases nullable <;>
            exact ⟨_, rfl, by decide⟩

-- Any other variable that may be stepped keeps what the step leaves.
theorem step_kept (char : type.primitive? ≠ some .char) (steps : binary = .add ∨ binary = .sub)
    (defined : binaryResult binary type .int = some result) : result.KeptIn type := by
  cases type with
  | null => rcases steps with rfl | rfl <;> cases defined
  | of base nullable =>
      cases base with
      | named => rcases steps with rfl | rfl <;> cases defined
      | primitive p =>
          rcases steps with rfl | rfl <;> cases p <;> cases nullable <;>
            first
              | exact absurd rfl char
              | (cases defined; decide)
              | cases defined

end Datatype

theorem Environment.storable_iff {result : Datatype} {v : ResolvedVariable} :
    storable result v = true ↔ result.KeptIn v.type := by
  simp [storable, Datatype.KeptIn]

/-- The operator of an assignment suits a variable and a value of these types: what it leaves may be
stored in the variable. Only the step of a `char` is let through without. -/
inductive TokenKind.Suits (op : TokenKind) (type value : Datatype) : Prop
  | plain : op.applied? = none → value.KeptIn type → Suits op type value
  | applied {binary : BinaryOperator} {result : Datatype} :
      op.applied? = some binary → Datatype.binaryResult binary type value = some result →
      result.KeptIn type → Suits op type value
  | stepsChar {binary : BinaryOperator} {result : Datatype} :
      op = .increment ∨ op = .decrement → op.applied? = some binary → value = .int →
      type.primitive? = some .char → Datatype.binaryResult binary type value = some result →
      ¬result.KeptIn type → Suits op type value

namespace Environment

variable {env : Environment} {v : ResolvedVariable} {op : Token} {tokens : List Token} {node : Node}

theorem stepValue_means {binary : BinaryOperator} (read : stepValue v binary op tokens = .ok node)
    (applied : op.kind.applied? = some binary) (steps : op.kind = .increment ∨ op.kind = .decrement) :
    ∃ e, env.Means e ∧ node = e.node ∧ op.kind.Suits v.type e.type := by
  have basic : binary = .add ∨ binary = .sub := by
    rcases steps with kind | kind <;> rw [kind] at applied <;> cases applied <;> simp
  unfold stepValue at read
  split at read
  next => simp at read
  next =>
    simp only [Checked.bind_eq_ok, Checked.require_eq_ok, Option.isSome_iff_exists] at read
    obtain ⟨_, ⟨result, defined⟩, same⟩ := read
    cases same
    let one : TokenOf (.literal .int) := ⟨.synthetic (.literal .int) "1" op, rfl⟩
    have value : Typed.intValue? "1" = some 1 := by decide
    refine ⟨.integer one, ⟨.literal .int one, .integer value (by decide)⟩, rfl, ?_⟩
    by_cases char : v.type.primitive? = some .char
    · obtain ⟨left, leaves, lost⟩ := Datatype.step_char char basic
      exact .stepsChar steps applied rfl char leaves lost
    · exact .applied applied defined (Datatype.step_kept char basic defined)

theorem assignedValue_means (read : env.assignedValue v op tokens = .ok node) :
    ∃ e, env.Means e ∧ node = e.node ∧ op.kind.Suits v.type e.type := by
  simp only [assignedValue, Checked.bind_eq_ok] at read
  obtain ⟨e, value, read⟩ := read
  refine ⟨e, expression_means value, ?_⟩
  split at read
  next plain =>
    simp only [Checked.bind_eq_ok, Checked.require_eq_ok] at read
    obtain ⟨_, found, _, kept, same⟩ := read
    cases found
    cases same
    exact ⟨rfl, .plain plain (storable_iff.mp kept)⟩
  next binary applied =>
    split at read
    next result defined =>
      simp only [Checked.bind_eq_ok, Checked.require_eq_ok] at read
      obtain ⟨_, found, _, kept, same⟩ := read
      cases found
      cases same
      exact ⟨rfl, .applied applied defined (storable_iff.mp kept)⟩
    next => simp at read

end Environment

-- The shorter word for adding or subtracting one.
def CompoundOperator.step? : CompoundOperator → Option TokenKind
  | .add => some .increment
  | .sub => some .decrement
  | _ => none

/-- A step by one in both of its spellings: `x++;` and `x += 1;`, or `x--;` and `x -= 1;`. -/
structure Step where
  target : TokenOf .identifier
  operation : CompoundOperator
  operator : Token
  steps : operation.step? = some operator.kind
  stop : TokenOf .semicolon
  compound : TokenOf (.compound operation)
  one : { t : TokenOf (.literal .int) // t.val.lexeme = "1" }
  -- The semicolon of the longer spelling.
  stopCompound : TokenOf .semicolon

namespace Step

variable (p : Step)

def short : List Token := [p.operator, p.stop]
def long : List Token := [p.compound, p.one.val, p.stopCompound]

-- The literal that the shorter spelling stands for.
def implied : Token := .synthetic (.literal .int) "1" p.operator

def node (v : ResolvedVariable) (op one : Token) : Node :=
  .new .varSetValue p.target.val.streamLine
    [.leaf .identifier (.synthetic .identifier v.qualified p.target), .leaf .operator op,
      .new .value op.streamLine [(Typed.integer one).node]]

theorem operator_cases : p.operator.kind = .increment ∧ p.operation = .add ∨
    p.operator.kind = .decrement ∧ p.operation = .sub := by
  have steps := p.steps
  unfold CompoundOperator.step? at steps
  split at steps
  next => exact .inl ⟨(Option.some.inj steps).symm, ‹_›⟩
  next => exact .inr ⟨(Option.some.inj steps).symm, ‹_›⟩
  next => cases steps

end Step

theorem dropLastOf_append {kind : TokenKind} (first : Token) (tokens : List Token) (last : TokenOf kind)
    (place : String) : dropLastOf kind first (tokens ++ [last.val]) place = .ok tokens := by
  simp [dropLastOf, Token.is, last.property]

theorem splitCommas_plain {tokens : List Token} (plain : ∀ t ∈ tokens, t.kind ≠ .comma) :
    splitCommas tokens = [tokens] := by
  have parts : ∀ depth, splitParts depth tokens = [tokens] := by
    induction tokens with
    | nil => intro _; rfl
    | cons t rest ih =>
        intro depth
        have ih := ih fun u member => plain u (List.mem_cons_of_mem t member)
        unfold splitParts
        split
        next comma => exact absurd comma (plain t List.mem_cons_self)
        next =>
          dsimp only
          rw [ih]
  exact parts 0

namespace Environment

variable {env : Environment} {setting : Setting}

/-- Both spellings are accepted with the same effect, or both are rejected and nothing changes. Only
a `char` can be stepped in one way and not in the other. -/
inductive Compares (env : Environment) (p : Step) : Outcome → Outcome → Prop
  | both {v : ResolvedVariable} :
      env.resolveVariable p.target = .ok v → v.type.primitive? ≠ some .char →
      Compares env p ⟨env.markInitialized v, .ok (some (p.node v p.operator p.implied))⟩
        ⟨env.markInitialized v, .ok (some (p.node v p.compound p.one.val))⟩
  | char {v : ResolvedVariable} {result : Datatype} :
      env.resolveVariable p.target = .ok v → v.type.primitive? = some .char →
      Datatype.binaryResult p.operation.operator v.type .int = some result →
      Compares env p ⟨env.markInitialized v, .ok (some (p.node v p.operator p.implied))⟩
        ⟨env, blame (TypeFault.assignedValue result v.type) p.one.val⟩
  | neither {report report' : Report} :
      Compares env p ⟨env, .error report⟩ ⟨env, .error report'⟩

-- The variable that a statement may assign to.
def assignable (env : Environment) (target : Token) : Checked ResolvedVariable := do
  env.requireBlock target
  let v ← env.resolveVariable target
  require (!v.modifiers.isConst) (TypeFault.constantReassigned target.lexeme) target
  require v.canAssign (TypeFault.immutableReassigned target.lexeme) target
  .ok v

theorem assignable_eq_ok {target : Token} {v : ResolvedVariable}
    (found : env.assignable target = .ok v) : env.resolveVariable target = .ok v := by
  simp only [assignable, Checked.bind_eq_ok] at found
  obtain ⟨_, _, _, resolved, _, _, _, _, same⟩ := found
  cases same
  exact resolved

-- The node that an assignment to it stores.
def storedValue (env : Environment) (v : ResolvedVariable) (op : Token) (tokens : List Token) :
    Checked Node :=
  match op.kind with
  | .increment => stepValue v .add op tokens
  | .decrement => stepValue v .sub op tokens
  | _ => env.assignedValue v op tokens

theorem assignment_eq (target op : Token) (tokens : List Token) (stop : TokenOf .semicolon)
    (name : target.kind = .identifier) :
    env.assignment {} target op (tokens ++ [stop.val]) = (do
      let v ← env.assignable target
      let value ← env.storedValue v op tokens
      .ok ⟨env.markInitialized v, some (.new .varSetValue target.streamLine
        [.leaf .identifier (.synthetic .identifier v.qualified target), .leaf .operator op,
          .new .value op.streamLine [value]])⟩) := by
  have identifier : require (target.is .identifier)
      (SyntaxFault.unwanted target.lexeme .noVariableName) target = .ok () := by
    simp [require, Token.is, name]
  unfold assignment assignable assign storedValue
  simp only [LeadingModifiers.requireNone, dropLastOf_append, identifier, bind_assoc,
    Checked.ok_bind, Bool.false_or]
  refine bind_congr fun _ => bind_congr fun v => bind_congr fun _ => bind_congr fun _ => ?_
  split <;> simp only [bind_assoc, Checked.ok_bind, *]

-- What both spellings come to where the variable may be assigned to.
theorem storedValue_short {p : Step} {v : ResolvedVariable} :
    env.storedValue v p.operator [] =
      if (Datatype.binaryResult p.operation.operator v.type .int).isSome then
        .ok (Typed.integer p.implied).node
      else blame (TypeFault.stepOperand p.operator.lexeme v.type) p.operator := by
  rcases p.operator_cases with ⟨kind, operation⟩ | ⟨kind, operation⟩ <;>
    rw [storedValue, kind, operation] <;> unfold stepValue CompoundOperator.operator <;>
    dsimp only [List.head?_nil] <;> split <;> simp [*, require] <;> rfl

theorem expression_one (one : TokenOf (.literal .int)) (unit : one.val.lexeme = "1") (place : Token) :
    env.expression [one.val] place = .ok (Typed.integer one.val) := by
  have value : (Typed.intValue? one.val.lexeme).any (· ≤ Typed.maxInt) = true := by
    rw [unit]
    decide
  simp only [expression, List.getLast?_singleton, List.length_singleton, Expression.read,
    Expression.operand, one.property, Typed.literal, Typed.intLiteral, Bool.false_eq_true, if_false,
    if_pos value, Checked.ok_bind, Expression.climb_nil]
  rfl

theorem storedValue_long {p : Step} {v : ResolvedVariable} :
    env.storedValue v p.compound [p.one.val] =
      match Datatype.binaryResult p.operation.operator v.type .int with
      | some result =>
          if storable result v then .ok (Typed.integer p.one.val).node
          else blame (TypeFault.assignedValue result v.type) p.one.val
      | none => blame (TypeFault.operands p.operation.operator v.type .int) p.compound := by
  have one := env.expression_one p.one.val p.one.property p.compound
  simp only [storedValue, assignedValue, p.compound.property, TokenKind.applied?, one,
    Checked.ok_bind]
  have type : (Typed.integer p.one.val.val).type = .int := rfl
  rw [type]
  cases Datatype.binaryResult p.operation.operator v.type .int with
  | none => rfl
  | some result =>
      dsimp only [Checked.ok_bind, require]
      cases storable result v <;> rfl

theorem assignment_compares (p : Step) :
    env.Compares p (.ofChecked env (env.assignment {} p.target p.operator [p.stop.val]))
      (.ofChecked env (env.assignment {} p.target p.compound [p.one.val, p.stopCompound])) := by
  have short := env.assignment_eq p.target p.operator [] p.stop p.target.property
  have long :=
    env.assignment_eq p.target p.compound [p.one.val] p.stopCompound p.target.property
  rw [List.nil_append] at short
  rw [List.singleton_append] at long
  rw [short, long]
  cases found : env.assignable p.target with
  | error => exact .neither
  | ok v =>
      have resolved := assignable_eq_ok found
      have steps : p.operation.operator = .add ∨ p.operation.operator = .sub :=
        p.operator_cases.imp (congrArg CompoundOperator.operator ·.2)
          (congrArg CompoundOperator.operator ·.2)
      rw [Checked.ok_bind, Checked.ok_bind, storedValue_short, storedValue_long]
      cases defined : Datatype.binaryResult p.operation.operator v.type .int with
      | none => exact .neither
      | some result =>
          simp only [Option.isSome_some, if_true, Checked.ok_bind]
          by_cases char : v.type.primitive? = some .char
          · obtain ⟨left, leaves, lost⟩ := Datatype.step_char char steps
            rw [defined] at leaves
            cases leaves
            rw [if_neg (mt storable_iff.mp lost)]
            exact .char resolved char defined
          · rw [if_pos (storable_iff.mpr (Datatype.step_kept char steps defined))]
            exact .both resolved char

section Statement

variable {target op : Token} {tokens : List Token}

theorem read_modifiers (name : target.kind = .identifier) (tokens : List Token) :
    LeadingModifiers.read (target :: tokens) = .ok ({}, target :: tokens) := by
  rw [LeadingModifiers.read, LeadingModifiers.readFrom, name]

theorem statement_assignment (name : target.kind = .identifier) (assigns : op.kind.isAssignment = true)
    (members : ∀ id e, env.frame ≠ .enum id e) :
    env.statement setting target (op :: tokens) =
      .ofChecked env (env.assignment {} target op tokens) := by
  unfold statement
  rw [read_modifiers name]
  dsimp only
  unfold dispatch
  rw [name]
  split
  next frame => exact absurd frame (members _ _)
  next =>
    simp only [read, name, nameStatement]
    cases kind : op.kind <;> rw [kind] at assigns <;> first | rfl | cases assigns

-- In an enum there is nothing but lists of members.
theorem statement_inEnum (setting : Setting) (op : Token) (tokens : List Token) {id : ModuleId} {e : EnumDeclaration} (frame : env.frame = .enum id e)
    (name : target.kind = .identifier) (stop : TokenOf .semicolon)
    (plain : ∀ t ∈ target :: op :: tokens, t.kind ≠ .comma) :
    ∃ report, env.statement setting target (op :: tokens ++ [stop.val]) = ⟨env, .error report⟩ := by
  have ends := dropLastOf_append target (target :: op :: tokens) stop "after enum members"
  unfold statement
  rw [read_modifiers name]
  dsimp only
  unfold dispatch
  rw [name, frame]
  rw [List.cons_append, List.cons_append] at ends
  simp only [List.cons_append, declareMembers, readMembers, LeadingModifiers.requireNone, ends,
    Checked.ok_bind, splitCommas_plain plain, memberNames]
  exact ⟨_, rfl⟩

end Statement

theorem statement_compares (p : Step) (setting : Setting) :
    env.Compares p (env.statement setting p.target p.short)
      (env.statement setting p.target p.long) := by
  have target := p.target.property
  have steps : p.operator.kind.isAssignment = true ∧ p.operator.kind ≠ .comma := by
    rcases p.operator_cases with ⟨kind, _⟩ | ⟨kind, _⟩ <;> rw [kind] <;> exact ⟨rfl, nofun⟩
  have applies : p.compound.val.kind.isAssignment = true := by
    rw [p.compound.property]
    rfl
  cases frame : env.frame with
  | enum id e =>
      obtain ⟨_, short⟩ := statement_inEnum setting p.operator [] frame target p.stop
        (by simp [target, steps.2])
      obtain ⟨_, long⟩ := statement_inEnum setting p.compound [p.one.val.val] frame target
        p.stopCompound (by simp [target, p.compound.property, p.one.val.property])
      rw [List.singleton_append] at short
      rw [List.cons_append, List.singleton_append] at long
      rw [Step.short, Step.long, short, long]
      exact .neither
  | _ =>
      rw [Step.short, Step.long,
        statement_assignment target steps.1 (by rw [frame]; nofun),
        statement_assignment target applies (by rw [frame]; nofun)]
      exact env.assignment_compares p

end Environment

namespace AnalysisState

-- In front of a statement: no `do` block waits any more, and if it cannot be reached that is said.
def ready (s : AnalysisState) (first : Token) : AnalysisState :=
  let idle := match s.pendingDo with
    | none => s
    | some _ => (s.report (SyntaxFault.doWithoutWhile false) first).flushDo
  idle.checkReachable first

-- Takes over what a statement comes to that opens nothing.
def take (s : AnalysisState) (outcome : Outcome) : AnalysisState :=
  let after := { s with environment := outcome.environment }
  match outcome.result with
  | .ok (some node) => after.append node
  | .ok none => after
  | .error report => after.reportTo report

theorem statement_take (s : AnalysisState) {first : Token} {rest : List Token}
    (name : first.kind = .identifier) (ends : (rest.getLast?.getD first).kind = .semicolon) :
    s.statement first rest = (s.ready first).take
      ((s.ready first).environment.statement (s.ready first).setting first rest) := by
  have read : ∀ idle : AnalysisState, idle.statementOrBrace first rest =
      (idle.checkReachable first).take ((idle.checkReachable first).environment.statement
        (idle.checkReachable first).setting first rest) := by
    intro idle
    simp only [statementOrBrace, Token.is, name, reduceCtorEq, decide_false, Bool.false_eq_true,
      if_false, readStatement, ends]
    generalize (idle.checkReachable first).environment.statement _ first rest = outcome
    obtain ⟨after, result⟩ := outcome
    cases result with
    | error => rfl
    | ok node => cases node <;> rfl
  unfold statement ready
  cases s.pendingDo with
  | none => exact read s
  | some block =>
      simp only [Token.is, name, reduceCtorEq, decide_false, Bool.false_and, Bool.false_eq_true,
        if_false]
      exact read _

theorem statement_step (s : AnalysisState) (p : Step) :
    let t := s.ready p.target
    let short := t.environment.statement t.setting p.target p.short
    let long := t.environment.statement t.setting p.target p.long
    s.statement p.target p.short = t.take short ∧ s.statement p.target p.long = t.take long ∧
      t.environment.Compares p short long :=
  ⟨s.statement_take p.target.property p.stop.property,
    s.statement_take p.target.property p.stopCompound.property,
    Environment.statement_compares p _⟩

end AnalysisState

end MiLanguage
