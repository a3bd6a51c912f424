import MiLanguage.Expression.Typing

set_option autoImplicit false

namespace MiLanguage

-- A token that is a whole text by itself.
def Token.alone (kind : TokenKind) (lexeme : String) : Token :=
  { kind, lexeme, line := 1, column := 1, streamLine := 1
    span := ⟨0, lexeme.utf8ByteSize, userFile⟩ }

abbrev TokenOf (kind : TokenKind) := { t : Token // t.kind = kind }

namespace UnaryOperator

def sign : UnaryOperator → TokenKind
  | negate => .binary .sub
  | boolNot => .bang
  | bitNot => .tilde

def takes : UnaryOperator → Datatype → Bool
  | negate => Datatype.isSigned
  | boolNot => Datatype.isBool
  | bitNot => Datatype.isIntegral

end UnaryOperator

/-- An expression in the shape that it means, made of the tokens that carry meaning. What only
groups or separates is left to its spelling. -/
inductive Surface where
  | literal (l : LiteralToken) (text : TokenOf (.literal l))
  | reference (name : TokenOf .identifier)
  | member (enum member : TokenOf .identifier)
  | call (name : TokenOf .identifier) (args : List Surface)
  | construct (keyword : TokenOf (.keyword .new)) (name : TokenOf .identifier)
  | cast (p : Primitive) (word : TokenOf (.datatype p)) (operand : Surface)
  | unary (op : UnaryOperator) (sign : TokenOf op.sign) (operand : Surface)
  | binary (op : BinaryOperator) (sign : TokenOf (.binary op)) (left right : Surface)
  | ternary (mark : TokenOf .question) (condition yes no : Surface)

-- What a literal of a kind without a range stands for.
def LiteralToken.constant? : LiteralToken → Option (LiteralKind × Datatype)
  | int | long => none
  | double => some (.double, .double)
  | float => some (.float, .float)
  | char => some (.char, .char)
  | string => some (.string, .string)
  | yes | no | bit => some (.bool, .bool)
  | null => some (.null, .null)

def Typed.integer (text : Token) : Typed := .of (.leaf (.literal .integer) text) .int

mutual

/-- The typing rules: the node and the type of an expression where `env` says what names mean. -/
inductive Elaborates (env : Environment) : Surface → Typed → Prop
  | integer {text : TokenOf (.literal .int)} {n : Nat} :
      Typed.intValue? text.val.lexeme = some n → n ≤ Typed.maxInt →
      Elaborates env (.literal .int text) (.integer text)
  | long {text : TokenOf (.literal .long)} {n : Nat} :
      Typed.longValue? text.val.lexeme = some n → n ≤ Typed.maxLong →
      Elaborates env (.literal .long text) (.of (.leaf (.literal .long) text) .long)
  | constant {l : LiteralToken} {text : TokenOf (.literal l)} {kind : LiteralKind}
      {type : Datatype} :
      l.constant? = some (kind, type) →
      Elaborates env (.literal l text) (.of (.leaf (.literal kind) text) type)
  | reference {name : TokenOf .identifier} {v : ResolvedVariable} :
      env.resolveVariable name = .ok v →
      Elaborates env (.reference name)
        (.of (.leaf .variableReference (.synthetic .identifier v.qualified name)) v.type)
  | member {enum member : TokenOf .identifier} {qualified : String} {members : List String} :
      env.resolveEnum enum = .ok (qualified, members) → member.val.lexeme ∈ members →
      Elaborates env (.member enum member)
        (.of (.new .getEnumMember enum.val.streamLine
          [.leaf .identifier (.synthetic .identifier qualified enum), .leaf .identifier member])
          (.named qualified))
  | call {name : TokenOf .identifier} {args : List Surface} {typed : List Typed}
      {callee : ResolvedCall} :
      ElaboratesAll env args typed →
      env.resolveCall name (typed.map Typed.type) = .ok callee →
      Elaborates env (.call name args)
        (.of (.new .functionCall name.val.streamLine
          [.leaf .identifier (.synthetic .identifier callee.qualified name),
            .new .parameters name.val.streamLine (typed.map Typed.node)])
          callee.returnType)
  | construct {keyword : TokenOf (.keyword .new)} {name : TokenOf .identifier}
      {qualified : String} :
      env.resolveClass name = .ok qualified →
      Elaborates env (.construct keyword name)
        (.of { Node.leaf .structConstruct (.synthetic .identifier qualified name) with
          line := keyword.val.streamLine } (.named qualified))
  | cast {p : Primitive} {word : TokenOf (.datatype p)} {operand : Surface} {e : Typed} :
      p ≠ .void → Elaborates env operand e →
      Elaborates env (.cast p word operand)
        (.of ((Node.leaf .castValue word).push e.node) (.primitive p))
  /-- Directly under a minus an integer may be larger by one. -/
  | negative {sign : TokenOf UnaryOperator.negate.sign} {text : TokenOf (.literal .int)}
      {n : Nat} :
      Typed.intValue? text.val.lexeme = some n → n ≤ Typed.maxInt + 1 →
      Elaborates env (.unary .negate sign (.literal .int text))
        (.of (.new (.unary .negate) sign.val.streamLine [(Typed.integer text).node]) .int)
  | unary {op : UnaryOperator} {sign : TokenOf op.sign} {operand : Surface} {e : Typed} :
      Elaborates env operand e → op.takes e.type = true →
      Elaborates env (.unary op sign operand)
        (.of (.new (.unary op) sign.val.streamLine [e.node]) e.type)
  | binary {op : BinaryOperator} {sign : TokenOf (.binary op)} {left right : Surface}
      {l r : Typed} {type : Datatype} :
      Elaborates env left l → Elaborates env right r →
      Datatype.binaryResult op l.type r.type = some type →
      Elaborates env (.binary op sign left right)
        (.of (.new (.binary op) sign.val.streamLine [l.node, r.node]) type)
  | ternary {mark : TokenOf .question} {condition yes no : Surface} {c y n : Typed} :
      Elaborates env condition c → Elaborates env yes y → Elaborates env no n →
      c.type.isCondition = true → y.type.sameBase n.type = true →
      Elaborates env (.ternary mark condition yes no)
        (.of (.new .ternaryOperator mark.val.streamLine
          [c.node, .new .ternaryIf mark.val.streamLine [y.node],
            .new .ternaryElse mark.val.streamLine [n.node]])
          (if y.type.isNull then n.type else y.type))

inductive ElaboratesAll (env : Environment) : List Surface → List Typed → Prop
  | nil : ElaboratesAll env [] []
  | cons {e : Surface} {es : List Surface} {t : Typed} {ts : List Typed} :
      Elaborates env e t → ElaboratesAll env es ts → ElaboratesAll env (e :: es) (t :: ts)

end

namespace BinaryOperator

-- The rows of the precedence table between the ternary operator, which binds less tight than all of
-- them, and the operators in front of an operand, which bind tighter.
def precedence : List (List BinaryOperator) :=
  [[.or], [.and], [.bitOr], [.xor], [.bitAnd], [.equal, .notEqual],
    [.less, .lessEq, .greater, .greaterEq], [.shl, .shr], [.add, .sub], [.mul, .div, .mod]]

-- The row of an operator. The ternary operator has row zero.
def row (op : BinaryOperator) : Nat := precedence.findIdx (·.contains op) + 1

theorem row_eq_level (op : BinaryOperator) : op.row = op.level := by
  cases op <;> rfl

theorem row_le (op : BinaryOperator) : op.row ≤ precedence.length := by
  cases op <;> decide

end BinaryOperator

mutual

/-- The spellings of an operand. In front of an integer a minus takes it as it is; any other
expression may stand in parentheses, any number of them. -/
inductive SpelledOperand : Surface → List Token → Prop
  | literal {l : LiteralToken} (text : TokenOf (.literal l)) :
      SpelledOperand (.literal l text) [text]
  | reference (name : TokenOf .identifier) : SpelledOperand (.reference name) [name]
  | member (enum member : TokenOf .identifier) (colons : TokenOf .doubleColon) :
      SpelledOperand (.member enum member) [enum, colons, member]
  | call {args : List Surface} {tokens : List Token} (name : TokenOf .identifier)
      (opening : TokenOf .leftParen) (closing : TokenOf .rightParen) :
      SpelledArguments args tokens →
      SpelledOperand (.call name args) (name :: opening :: (tokens ++ [closing.val]))
  | construct (keyword : TokenOf (.keyword .new)) (name : TokenOf .identifier) :
      SpelledOperand (.construct keyword name) [keyword, name]
  | constructCall (keyword : TokenOf (.keyword .new)) (name : TokenOf .identifier)
      (opening : TokenOf .leftParen) (closing : TokenOf .rightParen) :
      SpelledOperand (.construct keyword name) [keyword, name, opening, closing]
  | cast {p : Primitive} {operand : Surface} {tokens : List Token} (word : TokenOf (.datatype p)) :
      SpelledOperand operand tokens → SpelledOperand (.cast p word operand) (word :: tokens)
  | negative (sign : TokenOf UnaryOperator.negate.sign) (text : TokenOf (.literal .int)) :
      SpelledOperand (.unary .negate sign (.literal .int text)) [sign, text]
  | unary {op : UnaryOperator} {operand : Surface} {tokens : List Token} (sign : TokenOf op.sign) :
      (op = .negate → ∀ text, operand ≠ .literal .int text) →
      SpelledOperand operand tokens → SpelledOperand (.unary op sign operand) (sign :: tokens)
  | parens {e : Surface} {tokens : List Token} (opening : TokenOf .leftParen)
      (closing : TokenOf .rightParen) :
      Spelled 0 e tokens → SpelledOperand e (opening :: (tokens ++ [closing.val]))

/-- The spellings where operators of that row and tighter ones may stand without parentheses. -/
inductive Spelled : Nat → Surface → List Token → Prop
  | operand {row : Nat} {e : Surface} {tokens : List Token} :
      SpelledOperand e tokens → Spelled row e tokens
  | binary {row : Nat} {op : BinaryOperator} {left right : Surface} {before after : List Token}
      (sign : TokenOf (.binary op)) :
      row ≤ op.row → Spelled op.row left before → Spelled (op.row + 1) right after →
      Spelled row (.binary op sign left right) (before ++ sign.val :: after)
  | ternary {condition yes no : Surface} {first second third : List Token}
      (mark : TokenOf .question) (colon : TokenOf .colon) :
      Spelled 1 condition first → Spelled 0 yes second → Spelled 0 no third →
      Spelled 0 (.ternary mark condition yes no) (first ++ mark.val :: (second ++ colon.val :: third))

/-- Arguments with commas between them. -/
inductive SpelledArguments : List Surface → List Token → Prop
  | none : SpelledArguments [] []
  | one {e : Surface} {tokens : List Token} : Spelled 0 e tokens → SpelledArguments [e] tokens
  | more {e next : Surface} {es : List Surface} {tokens others : List Token}
      (comma : TokenOf .comma) :
      Spelled 0 e tokens → SpelledArguments (next :: es) others →
      SpelledArguments (e :: next :: es) (tokens ++ comma.val :: others)

end

/-- Tokens to group and to separate with. -/
structure Marks where
  opening : TokenOf .leftParen
  closing : TokenOf .rightParen
  comma : TokenOf .comma
  doubleColon : TokenOf .doubleColon
  colon : TokenOf .colon

-- Which expressions get parentheses, by the row that their place asks for and their own.
abbrev Grouping := Nat → Nat → Bool

namespace Grouping

-- Parentheses where an expression binds less tight than its place asks for.
def minimal : Grouping := fun wanted found => found < wanted

-- Parentheses wherever they may stand.
def full : Grouping := fun _ _ => true

-- At least the parentheses that the table asks for.
def Sufficient (grouping : Grouping) : Prop :=
  ∀ wanted found, found < wanted → grouping wanted found = true

theorem Sufficient.le_of_ungrouped {grouping : Grouping} (sufficient : grouping.Sufficient)
    {wanted found : Nat} (ungrouped : ¬grouping wanted found = true) : wanted ≤ found := by
  refine Nat.le_of_not_lt ?_
  intro less
  exact ungrouped (sufficient wanted found less)

theorem minimal_sufficient : minimal.Sufficient := by
  intro wanted found less
  simpa [minimal] using less

theorem full_sufficient : full.Sufficient := fun _ _ _ => rfl

end Grouping

namespace Marks

-- Marks that all stand in one place.
def ofPlace (place : Token) : Marks where
  opening := ⟨.synthetic .leftParen "(" place, rfl⟩
  closing := ⟨.synthetic .rightParen ")" place, rfl⟩
  comma := ⟨.synthetic .comma "," place, rfl⟩
  doubleColon := ⟨.synthetic .doubleColon "::" place, rfl⟩
  colon := ⟨.synthetic .colon ":" place, rfl⟩

def enclose (marks : Marks) (tokens : List Token) : List Token :=
  marks.opening :: (tokens ++ [marks.closing.val])

def group (marks : Marks) (grouping : Grouping) (wanted found : Nat) (tokens : List Token) :
    List Token :=
  if grouping wanted found then marks.enclose tokens else tokens

def separate (marks : Marks) : List (List Token) → List Token
  | [] => []
  | [part] => part
  | part :: next :: parts => part ++ marks.comma.val :: separate marks (next :: parts)

end Marks

namespace Surface

-- Operands stand in a row above the table.
def operandRow : Nat := BinaryOperator.precedence.length + 1

-- The row of the outermost operator.
def row : Surface → Nat
  | binary op _ _ _ => op.row
  | ternary _ _ _ _ => 0
  | _ => operandRow

def isInteger : Surface → Bool
  | literal .int _ => true
  | _ => false

mutual

-- A spelling without parentheses around the whole.
def spell (marks : Marks) (grouping : Grouping) : Surface → List Token
  | .literal _ text => [text]
  | .reference name => [name]
  | .member owner name => [owner, marks.doubleColon, name]
  | .call name args => name :: marks.enclose (marks.separate (spellEach marks grouping args))
  | .construct keyword name => [keyword, name]
  | .cast _ word operand =>
      word :: marks.group grouping operandRow operand.row (operand.spell marks grouping)
  | .unary op sign operand =>
      let tokens := operand.spell marks grouping
      if op = .negate && operand.isInteger then sign :: tokens
      else sign :: marks.group grouping operandRow operand.row tokens
  | .binary op sign left right =>
      marks.group grouping op.row left.row (left.spell marks grouping) ++
        sign.val :: marks.group grouping (op.row + 1) right.row (right.spell marks grouping)
  | .ternary mark condition yes no =>
      marks.group grouping 1 condition.row (condition.spell marks grouping) ++
        mark.val :: (marks.group grouping 0 yes.row (yes.spell marks grouping) ++
          marks.colon.val :: marks.group grouping 0 no.row (no.spell marks grouping))

def spellEach (marks : Marks) (grouping : Grouping) : List Surface → List (List Token)
  | [] => []
  | e :: es => marks.group grouping 0 e.row (e.spell marks grouping) :: spellEach marks grouping es

end

end Surface

theorem Spelled.weaken {row wider : Nat} {e : Surface} {tokens : List Token}
    (spelled : Spelled row e tokens) (le : wider ≤ row) : Spelled wider e tokens := by
  cases spelled with
  | operand inner => exact .operand inner
  | binary sign atRow left right => exact .binary sign (Nat.le_trans le atRow) left right
  | ternary mark colon condition yes no =>
      rw [Nat.le_zero.mp le]
      exact .ternary mark colon condition yes no

-- Only operands are spelled in the row above the table.
theorem Spelled.operand_of_row {row : Nat} {e : Surface} {tokens : List Token}
    (spelled : Spelled row e tokens) (tight : Surface.operandRow ≤ row) :
    SpelledOperand e tokens := by
  cases spelled with
  | operand inner => exact inner
  | @binary _ op _ _ _ _ _ atRow =>
      have := op.row_le
      unfold Surface.operandRow at tight
      omega
  | ternary => simp [Surface.operandRow] at tight

section Spell

variable (marks : Marks) {grouping : Grouping} (sufficient : grouping.Sufficient)

include sufficient

theorem spelled_group {e : Surface} {tokens : List Token} (spelled : Spelled e.row e tokens)
    (wanted : Nat) : Spelled wanted e (marks.group grouping wanted e.row tokens) := by
  unfold Marks.group
  split
  · exact .operand (.parens marks.opening marks.closing (spelled.weaken (Nat.zero_le _)))
  next ungrouped => exact spelled.weaken (sufficient.le_of_ungrouped ungrouped)

theorem spelledOperand_group {e : Surface} {tokens : List Token}
    (spelled : Spelled e.row e tokens) :
    SpelledOperand e (marks.group grouping Surface.operandRow e.row tokens) := by
  unfold Marks.group
  split
  · exact .parens marks.opening marks.closing (spelled.weaken (Nat.zero_le _))
  next ungrouped =>
    have tight := sufficient.le_of_ungrouped ungrouped
    exact spelled.operand_of_row tight

mutual

theorem spelled_spell : ∀ e : Surface, Spelled e.row e (e.spell marks grouping)
  | .literal _ text => .operand (.literal text)
  | .reference name => .operand (.reference name)
  | .member owner name => .operand (.member owner name marks.doubleColon)
  | .call name args =>
      .operand (.call name marks.opening marks.closing (spelled_separate args))
  | .construct keyword name => .operand (.construct keyword name)
  | .cast _ word operand =>
      .operand (.cast word (spelledOperand_group marks sufficient (spelled_spell operand)))
  | .unary op sign operand => by
      have inner := spelled_spell operand
      simp only [Surface.spell]
      split
      next negative =>
        cases operand with
        | literal l text =>
            cases l <;> simp [Surface.isInteger] at negative
            subst negative
            exact .operand (.negative sign text)
        | _ => simp [Surface.isInteger] at negative
      next general =>
        refine .operand (.unary sign ?_ (spelledOperand_group marks sufficient inner))
        intro negate text same
        simp [negate, same, Surface.isInteger] at general
  | .binary op sign left right =>
      .binary sign (Nat.le_refl _) (spelled_group marks sufficient (spelled_spell left) op.row)
        (spelled_group marks sufficient (spelled_spell right) (op.row + 1))
  | .ternary mark condition yes no =>
      .ternary mark marks.colon (spelled_group marks sufficient (spelled_spell condition) 1)
        (spelled_group marks sufficient (spelled_spell yes) 0)
        (spelled_group marks sufficient (spelled_spell no) 0)

theorem spelled_separate : ∀ args : List Surface,
    SpelledArguments args (marks.separate (Surface.spellEach marks grouping args))
  | [] => .none
  | [e] => .one (spelled_group marks sufficient (spelled_spell e) 0)
  | e :: next :: es =>
      .more marks.comma (spelled_group marks sufficient (spelled_spell e) 0)
        (spelled_separate (next :: es))

end

end Spell

end MiLanguage
