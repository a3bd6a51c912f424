import MiLanguage.Expression.Reading
import MiLanguage.Proofs.Expression.Surface

set_option autoImplicit false

namespace MiLanguage

namespace Expression

-- An operand ends in front of these tokens: they neither open a list of arguments nor select a
-- member.
def Closes (rest : List Token) : Prop :=
  ∀ t, rest.head? = some t → t.kind ≠ .leftParen ∧ t.kind ≠ .doubleColon

-- What may follow an expression in a place of that row: no operator that binds tighter, and no
-- ternary operator if the place has none itself.
def Follows (row : Nat) (rest : List Token) : Prop :=
  Closes rest ∧ ∀ t, rest.head? = some t →
    (t.kind = .question → 0 < row) ∧ ∀ op, t.kind = .binary op → op.level ≤ row

theorem follows_nil (row : Nat) : Follows row [] := by
  simp [Follows, Closes]

theorem follows_cons {t : Token} (row : Nat) (rest : List Token)
    (separates : t.kind = .rightParen ∨ t.kind = .comma ∨ t.kind = .colon) :
    Follows row (t :: rest) := by
  rcases separates with kind | kind | kind <;> simp [Follows, Closes, kind]

theorem follows_binary {op : BinaryOperator} (sign : TokenOf (.binary op)) (rest : List Token) :
    Follows op.row (sign :: rest) := by
  simp [Follows, Closes, sign.property, op.row_eq_level]

theorem follows_question (mark : TokenOf .question) (rest : List Token) :
    Follows 1 (mark :: rest) := by
  simp [Follows, Closes, mark.property]

theorem Follows.mono {row wider : Nat} {rest : List Token} (follows : Follows row rest)
    (le : row ≤ wider) : Follows wider rest := by
  refine ⟨follows.1, ?_⟩
  intro t head
  obtain ⟨question, binary⟩ := follows.2 t head
  exact ⟨fun kind => Nat.lt_of_lt_of_le (question kind) le,
    fun op kind => Nat.le_trans (binary op kind) le⟩

variable {env : Environment} {anchor : Token}

theorem climb_stops (bound level : Nat) (left : Typed) {rest : List Token}
    (follows : Follows (level - 1) rest) :
    climb env anchor bound level left rest = .ok (left, rest) := by
  cases bound with
  | zero => simp [climb]
  | succ bound =>
      cases rest with
      | nil => exact climb_nil env anchor (bound + 1) level left
      | cons t later =>
          obtain ⟨question, binary⟩ := follows.2 t rfl
          simp only [climb]
          split
          next kind =>
            have : level ≠ 0 := by
              have := question kind
              omega
            simp [this]
          next op kind =>
            have : ¬level ≤ op.level := by
              have := binary op kind
              have := op.level_pos
              omega
            simp [this]
          next => rfl

theorem climb_binary {op : BinaryOperator} (sign : TokenOf (.binary op)) {bound level : Nat}
    {left right : Typed} {type : Datatype} {tokens rest : List Token} (le : level ≤ op.row)
    (operand : read env anchor bound (op.row + 1) tokens = .ok (right, rest))
    (result : Datatype.binaryResult op left.type right.type = some type) :
    climb env anchor (bound + 1) level left (sign :: tokens) =
      climb env anchor bound level
        (.of (.new (.binary op) sign.val.streamLine [left.node, right.node]) type) rest := by
  rw [op.row_eq_level] at le operand
  simp [climb, sign.property, le, operand, Typed.binary, result, bind, Except.bind]

theorem expect_of_kind {kind : TokenKind} (t : TokenOf kind) (place : String)
    (rest : List Token) : expect anchor kind place (t :: rest) = .ok (t.val, rest) := by
  simp [expect, Token.is, t.property]

theorem climb_ternary (mark : TokenOf .question) (colon : TokenOf .colon) {bound : Nat}
    {condition yes no : Typed} {tokens later rest : List Token}
    (yesRead : read env anchor bound 0 tokens = .ok (yes, colon :: later))
    (noRead : read env anchor bound 0 later = .ok (no, rest))
    (decides : condition.type.isCondition = true)
    (agree : yes.type.sameBase no.type = true) :
    climb env anchor (bound + 1) 0 condition (mark :: tokens) =
      climb env anchor bound 0
        (.of (.new .ternaryOperator mark.val.streamLine
          [condition.node, .new .ternaryIf mark.val.streamLine [yes.node],
            .new .ternaryElse mark.val.streamLine [no.node]])
          (if yes.type.isNull then no.type else yes.type)) rest := by
  simp [climb, mark.property, yesRead, expect_of_kind, noRead, Typed.ternary, require, decides,
    agree, bind, Except.bind]

theorem literal_of_elaborates {l : LiteralToken} {text : TokenOf (.literal l)} {e : Typed}
    (elaborates : Elaborates env (.literal l text) e) : Typed.literal l text = .ok e := by
  cases elaborates with
  | integer value bounded =>
      simp [Typed.literal, Typed.intLiteral, Typed.integer, value, bounded]
  | long value bounded => simp [Typed.literal, Typed.longLiteral, value, bounded]
  | constant known => cases l <;> simp_all [LiteralToken.constant?, Typed.literal]

theorem operand_reference (bound : Nat) (name : TokenOf .identifier) {e : Typed}
    {rest : List Token} (elaborates : Elaborates env (.reference name) e) (closes : Closes rest) :
    operand env anchor (bound + 1) (name :: rest) = .ok (e, rest) := by
  cases elaborates with
  | reference found =>
      cases rest with
      | nil => simp [operand, name.property, Typed.reference, found, bind, Except.bind]
      | cons next later =>
          obtain ⟨noCall, noMember⟩ := closes next rfl
          simp only [operand, name.property]
          simp [Typed.reference, found, bind, Except.bind]

theorem operand_member (bound : Nat) (enum member : TokenOf .identifier)
    (colons : TokenOf .doubleColon) {e : Typed} (rest : List Token)
    (elaborates : Elaborates env (.member enum member) e) :
    operand env anchor (bound + 1) (enum :: colons :: member :: rest) = .ok (e, rest) := by
  cases elaborates with
  | member found known =>
      simp only [operand, enum.property, colons.property, enumMember, expect_of_kind]
      simp [Typed.enumMember, found, require, known, bind, Except.bind]

theorem operand_construct (bound : Nat) (keyword : TokenOf (.keyword .new))
    (name : TokenOf .identifier) {e : Typed} {rest : List Token}
    (elaborates : Elaborates env (.construct keyword name) e) (closes : Closes rest) :
    operand env anchor (bound + 1) (keyword :: name :: rest) = .ok (e, rest) := by
  cases elaborates with
  | construct found =>
      simp only [operand, keyword.property, construct, expect_of_kind]
      cases rest with
      | nil => simp [Typed.construct, found, bind, Except.bind]
      | cons next later =>
          obtain ⟨noParens, -⟩ := closes next rfl
          simp [Typed.construct, found, Token.is, noParens, bind, Except.bind]

theorem operand_constructCall (bound : Nat) (keyword : TokenOf (.keyword .new))
    (name : TokenOf .identifier) (opening : TokenOf .leftParen) (closing : TokenOf .rightParen)
    {e : Typed} (rest : List Token) (elaborates : Elaborates env (.construct keyword name) e) :
    operand env anchor (bound + 1) (keyword :: name :: opening :: closing :: rest) =
      .ok (e, rest) := by
  cases elaborates with
  | construct found =>
      simp only [operand, keyword.property, construct, expect_of_kind]
      simp [Typed.construct, found, Token.is, opening.property, expect_of_kind, bind, Except.bind]

theorem operand_cast {p : Primitive} {bound : Nat} (word : TokenOf (.datatype p)) {e : Typed}
    {tokens rest : List Token} (notVoid : p ≠ .void)
    (inner : operand env anchor bound tokens = .ok (e, rest)) :
    operand env anchor (bound + 1) (word :: tokens) =
      .ok (.of ((Node.leaf .castValue word).push e.node) (.primitive p), rest) := by
  simp [operand, word.property, notVoid, inner, Typed.cast, bind, Except.bind]

theorem operand_negative (bound : Nat) (sign : TokenOf UnaryOperator.negate.sign)
    (text : TokenOf (.literal .int)) {e : Typed} (rest : List Token)
    (elaborates : Elaborates env (.unary .negate sign (.literal .int text)) e) :
    operand env anchor (bound + 1) (sign :: text :: rest) = .ok (e, rest) := by
  have kind : sign.val.kind = .binary .sub := sign.property
  have next : text.val.is (.literal .int) = true := by simp [Token.is, text.property]
  simp only [operand, kind, next, if_true]
  cases elaborates with
  | negative value bounded =>
      simp [Typed.intLiteral, Typed.unary, Typed.integer, value, bounded, bind, Except.bind]
  | unary inner =>
      cases inner with
      | integer value bounded =>
          have : (Typed.intValue? text.val.lexeme).any (· ≤ Typed.maxInt + 1) = true := by
            simp only [value, Option.any_some, decide_eq_true_eq]
            omega
          simp [Typed.intLiteral, Typed.unary, Typed.integer, this, bind, Except.bind]
      | constant known => simp [LiteralToken.constant?] at known

theorem operand_unary {op : UnaryOperator} {bound : Nat} (sign : TokenOf op.sign) {e : Typed}
    {tokens rest : List Token} (takes : op.takes e.type = true)
    (first : op = .negate → ∀ t, tokens.head? = some t → t.kind ≠ .literal .int)
    (inner : operand env anchor bound tokens = .ok (e, rest)) :
    operand env anchor (bound + 1) (sign :: tokens) =
      .ok (.of (.new (.unary op) sign.val.streamLine [e.node]) e.type, rest) := by
  have kind := sign.property
  cases op with
  | negate =>
      cases tokens with
      | nil =>
          rw [operand_nil] at inner
          cases inner
      | cons next later =>
          have notInteger : next.is (.literal .int) = false := by
            simpa [Token.is] using first rfl next rfl
          simp only [UnaryOperator.sign] at kind
          simp only [UnaryOperator.takes] at takes
          simp [operand, kind, notInteger, inner, Typed.requireOperand, require, takes,
            Typed.unary, bind, Except.bind]
  | boolNot | bitNot =>
      simp only [UnaryOperator.sign] at kind
      simp only [UnaryOperator.takes] at takes
      simp [operand, kind, inner, Typed.requireOperand, require, takes, Typed.unary, bind,
        Except.bind]

theorem operand_parens {bound : Nat} (opening : TokenOf .leftParen)
    (closing : TokenOf .rightParen) {e : Typed} {tokens rest : List Token}
    (inner : read env anchor bound 0 tokens = .ok (e, closing :: rest)) :
    operand env anchor (bound + 1) (opening :: tokens) = .ok (e, rest) := by
  simp [operand, opening.property, inner, expect_of_kind, bind, Except.bind]

theorem operand_call {bound : Nat} (name : TokenOf .identifier) (opening : TokenOf .leftParen)
    (closing : TokenOf .rightParen) {args : List Typed} {callee : ResolvedCall}
    {tokens rest : List Token}
    (inner : arguments env anchor bound tokens = .ok (args, closing :: rest))
    (found : env.resolveCall name (args.map Typed.type) = .ok callee) :
    operand env anchor (bound + 1) (name :: opening :: tokens) =
      .ok (.of (.new .functionCall name.val.streamLine
        [.leaf .identifier (.synthetic .identifier callee.qualified name),
          .new .parameters name.val.streamLine (args.map Typed.node)]) callee.returnType, rest) := by
  simp only [operand, name.property, opening.property, inner]
  simp [expect_of_kind, Typed.call, found, bind, Except.bind]

-- How a spelling of an operand starts: with an integer only if it is one.
theorem operand_head {e : Surface} {tokens : List Token} (spelled : SpelledOperand e tokens) :
    ∃ t later, tokens = t :: later ∧ t.kind ≠ .rightParen ∧
      (t.kind = .literal .int → ∃ text, e = .literal .int text) := by
  cases spelled with
  | @literal l text =>
      refine ⟨text, [], rfl, by simp [text.property], ?_⟩
      intro kind
      rw [text.property] at kind
      cases kind
      exact ⟨text, rfl⟩
  | reference name | call name => exact ⟨name, _, rfl, by simp [name.property]⟩
  | member enum => exact ⟨enum, _, rfl, by simp [enum.property]⟩
  | construct keyword | constructCall keyword => exact ⟨keyword, _, rfl, by simp [keyword.property]⟩
  | cast word => exact ⟨word, _, rfl, by simp [word.property]⟩
  | negative sign =>
      have kind : sign.val.kind = .binary .sub := sign.property
      exact ⟨sign, _, rfl, by simp [kind]⟩
  | @unary op _ _ sign =>
      have kind := sign.property
      cases op <;> exact ⟨sign, _, rfl, by simp [kind, UnaryOperator.sign]⟩
  | parens opening => exact ⟨opening, _, rfl, by simp [opening.property]⟩

theorem spelled_head {row : Nat} {e : Surface} {tokens : List Token}
    (spelled : Spelled row e tokens) :
    ∃ t later, tokens = t :: later ∧ t.kind ≠ .rightParen := by
  cases spelled with
  | operand inner =>
      obtain ⟨t, later, tokens, kind, -⟩ := operand_head inner
      exact ⟨t, later, tokens, kind⟩
  | binary sign _ left _ =>
      obtain ⟨t, later, tokens, kind⟩ := spelled_head left
      exact ⟨t, _, by rw [tokens, List.cons_append], kind⟩
  | ternary mark colon condition _ _ =>
      obtain ⟨t, later, tokens, kind⟩ := spelled_head condition
      exact ⟨t, _, by rw [tokens, List.cons_append], kind⟩

variable (env anchor)

-- A spelled operand is read as what it elaborates to, whatever may follow it.
def OperandReads (e : Surface) (tokens : List Token) : Prop :=
  ∀ typed, Elaborates env e typed → ∀ (bound : Nat) (rest : List Token),
    2 * (tokens.length + rest.length) ≤ bound + 1 → Closes rest →
    operand env anchor (bound + 1) (tokens ++ rest) = .ok (typed, rest)

-- To read a spelled expression is to go on climbing behind what it elaborates to. The level may be
-- looser than its place: then it is the left operand of what follows.
def Climbs (row : Nat) (e : Surface) (tokens : List Token) : Prop :=
  ∀ typed, Elaborates env e typed → ∀ level, level ≤ row → ∀ (bound : Nat) (rest : List Token),
    2 * (tokens.length + rest.length) < bound → Follows row rest →
    ∃ left, 2 * rest.length ≤ left ∧
      read env anchor bound level (tokens ++ rest) = climb env anchor left level typed rest

-- Spelled arguments are read up to the parenthesis that closes their list.
def ArgumentsRead (args : List Surface) (tokens : List Token) : Prop :=
  ∀ typed, ElaboratesAll env args typed → ∀ (bound : Nat) (closing : TokenOf .rightParen)
    (rest : List Token), 2 * (tokens.length + rest.length) + 4 < bound →
    arguments env anchor bound (tokens ++ closing.val :: rest) =
        .ok (typed, closing.val :: rest) ∧
      (args ≠ [] → argumentList env anchor bound (tokens ++ closing.val :: rest) =
        .ok (typed, closing.val :: rest))

variable {env anchor}

theorem Climbs.read {e : Surface} {tokens : List Token} (climbs : Climbs env anchor 0 e tokens)
    {typed : Typed} (elaborates : Elaborates env e typed) (bound : Nat) (rest : List Token)
    (enough : 2 * (tokens.length + rest.length) < bound) (follows : Follows 0 rest) :
    Expression.read env anchor bound 0 (tokens ++ rest) = .ok (typed, rest) := by
  obtain ⟨left, -, climbed⟩ := climbs typed elaborates 0 (Nat.le_refl 0) bound rest enough follows
  rw [climbed]
  exact climb_stops left 0 typed follows

theorem operandReads_call {args : List Surface} {tokens : List Token}
    (name : TokenOf .identifier) (opening : TokenOf .leftParen) (closing : TokenOf .rightParen)
    (inner : ArgumentsRead env anchor args tokens) :
    OperandReads env anchor (.call name args)
      (name :: opening :: (tokens ++ [closing.val])) := by
  intro typed elaborates bound rest enough closes
  cases elaborates with
  | call argsTyped found =>
      simp only [List.cons_append, List.append_assoc, List.length_cons, List.length_append,
        List.length_nil] at enough ⊢
      exact operand_call name opening closing
        (inner _ argsTyped bound closing rest (by omega)).1 found

theorem operandReads_cast {p : Primitive} {e : Surface} {tokens : List Token}
    (word : TokenOf (.datatype p)) (spelled : SpelledOperand e tokens)
    (inner : OperandReads env anchor e tokens) :
    OperandReads env anchor (.cast p word e) (word :: tokens) := by
  intro typed elaborates bound rest enough closes
  obtain ⟨first, later, shape, -⟩ := operand_head spelled
  cases elaborates with
  | cast notVoid operandTyped =>
      simp only [shape, List.length_cons] at enough
      obtain ⟨bound, rfl⟩ : ∃ b, bound = b + 1 := ⟨bound - 1, by omega⟩
      refine operand_cast word notVoid (inner _ operandTyped bound rest ?_ closes)
      simp only [shape, List.length_cons]
      omega

theorem operandReads_unary {op : UnaryOperator} {e : Surface} {tokens : List Token}
    (sign : TokenOf op.sign) (notInteger : op = .negate → ∀ text, e ≠ .literal .int text)
    (spelled : SpelledOperand e tokens) (inner : OperandReads env anchor e tokens) :
    OperandReads env anchor (.unary op sign e) (sign :: tokens) := by
  intro typed elaborates bound rest enough closes
  obtain ⟨first, later, shape, -, integer⟩ := operand_head spelled
  cases elaborates with
  | negative => exact absurd rfl (notInteger rfl _)
  | unary operandTyped takes =>
      simp only [shape, List.length_cons] at enough
      obtain ⟨bound, rfl⟩ : ∃ b, bound = b + 1 := ⟨bound - 1, by omega⟩
      refine operand_unary sign takes ?_ (inner _ operandTyped bound rest ?_ closes)
      · intro negate t head kind
        have starts : (tokens ++ rest).head? = some first := by simp [shape]
        obtain rfl : first = t := Option.some.inj (starts.symm.trans head)
        obtain ⟨text, same⟩ := integer kind
        exact notInteger negate text same
      · simp only [shape, List.length_cons]
        omega

theorem operandReads_parens {e : Surface} {tokens : List Token} (opening : TokenOf .leftParen)
    (closing : TokenOf .rightParen) (inner : Climbs env anchor 0 e tokens) :
    OperandReads env anchor e (opening :: (tokens ++ [closing.val])) := by
  intro typed elaborates bound rest enough closes
  simp only [List.cons_append, List.append_assoc, List.length_cons, List.length_append,
    List.length_nil] at enough ⊢
  refine operand_parens opening closing (inner.read elaborates bound (closing.val :: rest) ?_ ?_)
  · simp only [List.length_cons]
    omega
  · exact follows_cons 0 rest (.inl closing.property)

theorem climbs_operand {row : Nat} {e : Surface} {tokens : List Token}
    (spelled : SpelledOperand e tokens) (inner : OperandReads env anchor e tokens) :
    Climbs env anchor row e tokens := by
  intro typed elaborates level le bound rest enough follows
  obtain ⟨first, later, shape, -⟩ := operand_head spelled
  have positive : 0 < tokens.length := by simp [shape]
  obtain ⟨bound, rfl⟩ : ∃ b, bound = b + 2 := ⟨bound - 2, by omega⟩
  have operandRead := inner typed elaborates bound rest (by omega) follows.1
  refine ⟨bound + 1, by omega, ?_⟩
  simp [Expression.read, operandRead, bind, Except.bind]

theorem climbs_binary {row : Nat} {op : BinaryOperator} {left right : Surface}
    {before after : List Token} (sign : TokenOf (.binary op)) (atRow : row ≤ op.row)
    (leftClimbs : Climbs env anchor op.row left before)
    (rightClimbs : Climbs env anchor (op.row + 1) right after) :
    Climbs env anchor row (.binary op sign left right) (before ++ sign.val :: after) := by
  intro typed elaborates level le bound rest enough follows
  cases elaborates with
  | @binary _ _ _ _ l r type leftTyped rightTyped result =>
      simp only [List.length_append, List.length_cons] at enough
      obtain ⟨first, firstEnough, climbed⟩ := leftClimbs l leftTyped level
        (Nat.le_trans le atRow) bound (sign.val :: (after ++ rest))
        (by simp only [List.length_append, List.length_cons]; omega)
        (follows_binary sign (after ++ rest))
      simp only [List.length_append, List.length_cons] at firstEnough
      obtain ⟨first, rfl⟩ : ∃ b, first = b + 1 := ⟨first - 1, by omega⟩
      obtain ⟨second, -, operandRead⟩ := rightClimbs r rightTyped (op.row + 1) (Nat.le_refl _)
        first rest (by omega) (follows.mono (Nat.le_succ_of_le atRow))
      rw [climb_stops second (op.row + 1) r (follows.mono atRow)] at operandRead
      refine ⟨first, by omega, ?_⟩
      rw [List.append_assoc, List.cons_append, climbed]
      exact climb_binary sign (Nat.le_trans le atRow) operandRead result

theorem climbs_ternary {condition yes no : Surface} {first second third : List Token}
    (mark : TokenOf .question) (colon : TokenOf .colon)
    (conditionClimbs : Climbs env anchor 1 condition first)
    (yesClimbs : Climbs env anchor 0 yes second) (noClimbs : Climbs env anchor 0 no third) :
    Climbs env anchor 0 (.ternary mark condition yes no)
      (first ++ mark.val :: (second ++ colon.val :: third)) := by
  intro typed elaborates level le bound rest enough follows
  obtain rfl : level = 0 := Nat.le_zero.mp le
  cases elaborates with
  | @ternary _ _ _ _ c y n conditionTyped yesTyped noTyped decides agree =>
      simp only [List.length_append, List.length_cons] at enough
      obtain ⟨left, leftEnough, climbed⟩ := conditionClimbs c conditionTyped 0 (Nat.zero_le 1)
        bound (mark.val :: (second ++ colon.val :: (third ++ rest)))
        (by simp only [List.length_append, List.length_cons]; omega) (follows_question mark _)
      simp only [List.length_append, List.length_cons] at leftEnough
      obtain ⟨left, rfl⟩ : ∃ b, left = b + 1 := ⟨left - 1, by omega⟩
      have yesRead := yesClimbs.read yesTyped left (colon.val :: (third ++ rest))
        (by simp only [List.length_append, List.length_cons]; omega)
        (follows_cons 0 _ (.inr (.inr colon.property)))
      have noRead := noClimbs.read noTyped left rest (by omega) follows
      refine ⟨left, by omega, ?_⟩
      rw [List.append_assoc, List.cons_append, List.append_assoc, List.cons_append, climbed]
      exact climb_ternary mark colon yesRead noRead decides agree

theorem argumentsRead_none : ArgumentsRead env anchor [] [] := by
  intro typed elaborates bound closing rest enough
  obtain ⟨bound, rfl⟩ : ∃ b, bound = b + 1 := ⟨bound - 1, by omega⟩
  cases elaborates
  simp [arguments, Token.is, closing.property]

-- A list of arguments that does not close at once is read one by one.
theorem arguments_eq_argumentList {e : Surface} {tokens : List Token}
    (spelled : Spelled 0 e tokens) (bound : Nat) (rest : List Token) :
    arguments env anchor (bound + 1) (tokens ++ rest) =
      argumentList env anchor bound (tokens ++ rest) := by
  obtain ⟨t, later, shape, kind⟩ := spelled_head spelled
  have notEmpty : (tokens ++ rest).head?.any (·.is .rightParen) = false := by
    simp [shape, Token.is, kind]
  simp only [arguments, notEmpty, Bool.false_eq_true, if_false]

theorem argumentsRead_one {e : Surface} {tokens : List Token} (spelled : Spelled 0 e tokens)
    (inner : Climbs env anchor 0 e tokens) : ArgumentsRead env anchor [e] tokens := by
  intro typed elaborates bound closing rest enough
  have list (bound : Nat) (enough : 2 * (tokens.length + rest.length) + 4 < bound + 1) :
      argumentList env anchor bound (tokens ++ closing.val :: rest) =
        .ok (typed, closing.val :: rest) := by
    obtain ⟨bound, rfl⟩ : ∃ b, bound = b + 1 := ⟨bound - 1, by omega⟩
    cases elaborates with
    | cons eTyped others =>
        cases others
        have first := inner.read eTyped bound (closing.val :: rest)
          (by simp only [List.length_cons]; omega) (follows_cons 0 rest (.inl closing.property))
        simp [argumentList, first, Token.is, closing.property, bind, Except.bind]
  refine ⟨?_, fun _ => list bound (by omega)⟩
  obtain ⟨bound, rfl⟩ : ∃ b, bound = b + 1 := ⟨bound - 1, by omega⟩
  rw [arguments_eq_argumentList spelled]
  exact list bound enough

theorem argumentsRead_more {e next : Surface} {es : List Surface} {tokens others : List Token}
    (comma : TokenOf .comma) (spelled : Spelled 0 e tokens)
    (inner : Climbs env anchor 0 e tokens)
    (later : ArgumentsRead env anchor (next :: es) others) :
    ArgumentsRead env anchor (e :: next :: es) (tokens ++ comma.val :: others) := by
  intro typed elaborates bound closing rest enough
  simp only [List.length_append, List.length_cons] at enough
  have list (bound : Nat)
      (enough : 2 * (tokens.length + (others.length + 1) + rest.length) + 4 < bound + 1) :
      argumentList env anchor bound ((tokens ++ comma.val :: others) ++ closing.val :: rest) =
        .ok (typed, closing.val :: rest) := by
    obtain ⟨bound, rfl⟩ : ∃ b, bound = b + 1 := ⟨bound - 1, by omega⟩
    cases elaborates with
    | @cons _ _ t ts eTyped othersTyped =>
        have first := inner.read eTyped bound (comma.val :: (others ++ closing.val :: rest))
          (by simp only [List.length_append, List.length_cons]; omega)
          (follows_cons 0 _ (.inr (.inl comma.property)))
        have remaining := (later ts othersTyped bound closing rest (by omega)).2 (by simp)
        rw [List.append_assoc, List.cons_append]
        simp [argumentList, first, Token.is, comma.property, remaining, bind, Except.bind]
  refine ⟨?_, fun _ => list bound (by omega)⟩
  obtain ⟨bound, rfl⟩ : ∃ b, bound = b + 1 := ⟨bound - 1, by omega⟩
  refine Eq.trans ?_ (list bound enough)
  rw [List.append_assoc]
  exact arguments_eq_argumentList spelled bound (comma.val :: others ++ closing.val :: rest)

mutual

theorem operandReads_of_spelled : ∀ {e : Surface} {tokens : List Token},
    SpelledOperand e tokens → OperandReads env anchor e tokens
  | _, _, .literal text => fun typed elaborates bound rest _ _ => by
      simp [operand, text.property, literal_of_elaborates elaborates, bind, Except.bind]
  | _, _, .reference name => fun typed elaborates bound rest _ closes =>
      operand_reference bound name elaborates closes
  | _, _, .member enum member colons => fun typed elaborates bound rest _ _ =>
      operand_member bound enum member colons rest elaborates
  | _, _, .construct keyword name => fun typed elaborates bound rest _ closes =>
      operand_construct bound keyword name elaborates closes
  | _, _, .constructCall keyword name opening closing => fun typed elaborates bound rest _ _ =>
      operand_constructCall bound keyword name opening closing rest elaborates
  | _, _, .negative sign text => fun typed elaborates bound rest _ _ =>
      operand_negative bound sign text rest elaborates
  | _, _, .call name opening closing args =>
      operandReads_call name opening closing (argumentsRead_of_spelled args)
  | _, _, .cast word inner => operandReads_cast word inner (operandReads_of_spelled inner)
  | _, _, .unary sign notInteger inner =>
      operandReads_unary sign notInteger inner (operandReads_of_spelled inner)
  | _, _, .parens opening closing inner =>
      operandReads_parens opening closing (climbs_of_spelled inner)

theorem climbs_of_spelled : ∀ {row : Nat} {e : Surface} {tokens : List Token},
    Spelled row e tokens → Climbs env anchor row e tokens
  | _, _, _, .operand inner => climbs_operand inner (operandReads_of_spelled inner)
  | _, _, _, .binary sign atRow left right =>
      climbs_binary sign atRow (climbs_of_spelled left) (climbs_of_spelled right)
  | _, _, _, .ternary mark colon condition yes no =>
      climbs_ternary mark colon (climbs_of_spelled condition) (climbs_of_spelled yes)
        (climbs_of_spelled no)

theorem argumentsRead_of_spelled : ∀ {args : List Surface} {tokens : List Token},
    SpelledArguments args tokens → ArgumentsRead env anchor args tokens
  | _, _, .none => argumentsRead_none
  | _, _, .one inner => argumentsRead_one inner (climbs_of_spelled inner)
  | _, _, .more comma inner later =>
      argumentsRead_more comma inner (climbs_of_spelled inner) (argumentsRead_of_spelled later)

end

end Expression

namespace Environment

/-- Reading undoes spelling: all spellings of an expression are read as the one node and type that
it has, the sparing and the generous one among them. -/
theorem expression_of_spelling (env : Environment) (e : Surface) (typed : Typed)
    (elaborates : Elaborates env e typed) (place : Token) :
    (∀ tokens, Spelled 0 e tokens → env.expression tokens place = .ok typed) ∧
      (∀ marks, env.expression (e.spell marks .minimal) place = .ok typed ∧
        env.expression (e.spell marks .full) place = .ok typed) ∧
      ∀ other, Elaborates env e other → other = typed := by
  have reads {tokens : List Token} {typed : Typed} (spelled : Spelled 0 e tokens)
      (elaborates : Elaborates env e typed) : env.expression tokens place = .ok typed := by
    obtain ⟨first, later, shape, -⟩ := Expression.spelled_head spelled
    obtain ⟨anchor, last⟩ : ∃ anchor, tokens.getLast? = some anchor := by
      cases last : tokens.getLast? with
      | none => simp [shape] at last
      | some anchor => exact ⟨anchor, rfl⟩
    have climbs : Expression.Climbs env anchor 0 e tokens := Expression.climbs_of_spelled spelled
    have read := climbs.read elaborates (2 * tokens.length + 1) [] (by simp)
      (Expression.follows_nil 0)
    rw [List.append_nil] at read
    simp [expression, last, read, bind, Except.bind]
  have spelled (marks : Marks) {grouping : Grouping} (sufficient : grouping.Sufficient) :
      Spelled 0 e (e.spell marks grouping) :=
    (spelled_spell marks sufficient e).weaken (Nat.zero_le _)
  refine ⟨fun tokens spelling => reads spelling elaborates, ?_, ?_⟩
  · intro marks
    exact ⟨reads (spelled marks Grouping.minimal_sufficient) elaborates,
      reads (spelled marks Grouping.full_sufficient) elaborates⟩
  · intro other otherElaborates
    have spelling := spelled (Marks.ofPlace place) Grouping.minimal_sufficient
    have same := (reads spelling otherElaborates).symm.trans (reads spelling elaborates)
    cases same
    rfl

-- The least integer stands directly under its minus, and needs no parentheses there.
theorem expression_of_least_integer :
    ∃ (env : Environment) (e : Surface) (typed : Typed) (tokens : List Token),
      Elaborates env e typed ∧ Spelled 0 e tokens ∧
        tokens.map Token.lexeme = ["-", "2147483648", "*", "(", "1", "+", "2", ")"] ∧
        ∀ place, env.expression tokens place = .ok typed := by
  let env : Environment := ⟨.empty, .start ModuleTree.root (.new .parent 0), false⟩
  let minus : TokenOf UnaryOperator.negate.sign := ⟨.alone (.binary .sub) "-", rfl⟩
  let star : TokenOf (.binary .mul) := ⟨.alone (.binary .mul) "*", rfl⟩
  let plus : TokenOf (.binary .add) := ⟨.alone (.binary .add) "+", rfl⟩
  let opening : TokenOf .leftParen := ⟨.alone .leftParen "(", rfl⟩
  let closing : TokenOf .rightParen := ⟨.alone .rightParen ")", rfl⟩
  let digits (text : String) : TokenOf (.literal .int) := ⟨.alone (.literal .int) text, rfl⟩
  have least : Elaborates env (.unary .negate minus (.literal .int (digits "2147483648"))) _ :=
    .negative (n := 2147483648) (by decide) (by decide)
  have sum : Elaborates env
      (.binary .add plus (.literal .int (digits "1")) (.literal .int (digits "2"))) _ :=
    .binary (.integer (n := 1) (by decide) (by decide))
      (.integer (n := 2) (by decide) (by decide))
      (show Datatype.binaryResult .add .int .int = some .int from rfl)
  have elaborates : Elaborates env (.binary .mul star _ _) _ :=
    .binary least sum (show Datatype.binaryResult .mul .int .int = some .int from rfl)
  have spelled := Spelled.binary star (Nat.zero_le _)
    (.operand (.negative minus (digits "2147483648")))
    (.operand (.parens opening closing (.binary plus (Nat.zero_le _)
      (.operand (.literal (digits "1"))) (.operand (.literal (digits "2"))))))
  exact ⟨env, _, _, _, elaborates, spelled, rfl,
    fun place => (expression_of_spelling env _ _ elaborates place).1 _ spelled⟩

end Environment

end MiLanguage
