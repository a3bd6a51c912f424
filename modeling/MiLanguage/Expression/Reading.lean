import MiLanguage.Expression.Typing

set_option autoImplicit false

namespace MiLanguage

namespace Expression

-- The next token, which has to be of that kind. A missing one is reported at `anchor`.
def expect (anchor : Token) (kind : TokenKind) (place : String) :
    List Token → Checked (Token × List Token)
  | [] => blame (SyntaxFault.expected kind place) anchor
  | t :: rest =>
      if t.is kind then .ok (t, rest)
      else blame (SyntaxFault.expectedInstead kind place t.lexeme) t

-- What `new` is followed by: a class, and perhaps empty parentheses.
def construct (env : Environment) (anchor keyword : Token) (tokens : List Token) :
    Checked (Typed × List Token) := do
  let (name, rest) ← expect anchor .identifier "after 'new'" tokens
  let rest ← match rest with
    | [] => .ok []
    | t :: later =>
        if t.is .leftParen then do
          let (_, rest) ← expect anchor .rightParen
            "after 'new', constructors take no arguments here" later
          .ok rest
        else .ok (t :: later)
  let e ← Typed.construct env keyword name
  .ok (e, rest)

def enumMember (env : Environment) (anchor name : Token) (tokens : List Token) :
    Checked (Typed × List Token) := do
  let (member, rest) ← expect anchor .identifier "after '::'" tokens
  let e ← Typed.enumMember env name member
  .ok (e, rest)

/- Each of these reads from the head of a list of tokens and returns what is left. `bound` is at
least twice the number of tokens, so where it is zero there are none; each step that lowers it by
two takes a token away. -/
mutual

-- Operators that bind no less tight than `level`, with their operands.
def read (env : Environment) (anchor : Token) (bound level : Nat) (tokens : List Token) :
    Checked (Typed × List Token) :=
  match bound with
  | 0 => blame SyntaxFault.expectedExpression anchor
  | bound + 1 => do
      let (first, rest) ← operand env anchor bound tokens
      climb env anchor bound level first rest

-- The operators that follow a complete operand.
def climb (env : Environment) (anchor : Token) (bound level : Nat) (left : Typed)
    (tokens : List Token) : Checked (Typed × List Token) :=
  match bound, tokens with
  | 0, tokens => .ok (left, tokens)
  | _ + 1, [] => .ok (left, [])
  | bound + 1, t :: rest =>
      match t.kind with
      | .question =>
          if level = 0 then do
            let (yes, rest) ← read env anchor bound 0 rest
            let (_, rest) ← expect anchor .colon "in ternary operator" rest
            let (no, rest) ← read env anchor bound 0 rest
            let e ← Typed.ternary left yes no t
            climb env anchor bound level e rest
          else .ok (left, t :: rest)
      | .binary op =>
          if level ≤ op.level then do
            let (right, rest) ← read env anchor bound (op.level + 1) rest
            let e ← Typed.binary op left right t
            climb env anchor bound level e rest
          else .ok (left, t :: rest)
      | _ => .ok (left, t :: rest)

-- An operand with the operators in front of it.
def operand (env : Environment) (anchor : Token) (bound : Nat) (tokens : List Token) :
    Checked (Typed × List Token) :=
  match bound, tokens with
  | 0, _ => blame SyntaxFault.expectedExpression anchor
  | _ + 1, [] => blame SyntaxFault.expectedExpression anchor
  | bound + 1, t :: rest =>
      match t.kind with
      | .binary .add | .increment | .decrement => do
          let (e, rest) ← operand env anchor bound rest
          Typed.requireOperand e.type.isNumeric e "a number" t
          .ok (e, rest)
      | .binary .sub =>
          match rest with
          | [] => blame SyntaxFault.expectedExpression anchor
          | next :: later =>
              -- The least int is written with digits that are no int by themselves.
              if next.is (.literal .int) then do
                let e ← Typed.intLiteral next true
                .ok (Typed.unary .negate e t, later)
              else do
                let (e, rest) ← operand env anchor bound (next :: later)
                Typed.requireOperand e.type.isSigned e "a signed number" t
                .ok (Typed.unary .negate e t, rest)
      | .bang => do
          let (e, rest) ← operand env anchor bound rest
          Typed.requireOperand e.type.isBool e "'bool'" t
          .ok (Typed.unary .boolNot e t, rest)
      | .tilde => do
          let (e, rest) ← operand env anchor bound rest
          Typed.requireOperand e.type.isIntegral e "an integer" t
          .ok (Typed.unary .bitNot e t, rest)
      | .datatype p =>
          if p = .void then blame (SyntaxFault.unwanted t.lexeme .noExpression) t
          else do
            let (e, rest) ← operand env anchor bound rest
            .ok (Typed.cast p e t, rest)
      | .leftParen => do
          let (e, rest) ← read env anchor bound 0 rest
          let (_, rest) ← expect anchor .rightParen "to close parenthesized expression" rest
          .ok (e, rest)
      | .identifier =>
          match rest with
          | [] => do .ok (← Typed.reference env t, [])
          | next :: later =>
              match next.kind with
              | .leftParen => do
                  let (args, rest) ← arguments env anchor bound later
                  let (_, rest) ← expect anchor .rightParen "to close argument list" rest
                  .ok (← Typed.call env t args, rest)
              | .doubleColon => enumMember env anchor t later
              | _ => do .ok (← Typed.reference env t, next :: later)
      | .keyword .new => construct env anchor t rest
      | .literal l => do .ok (← Typed.literal l t, rest)
      | _ => blame (SyntaxFault.unwanted t.lexeme .noExpression) t

-- The arguments of a call, up to what should be the closing parenthesis.
def arguments (env : Environment) (anchor : Token) (bound : Nat) (tokens : List Token) :
    Checked (List Typed × List Token) :=
  match bound with
  | 0 => blame SyntaxFault.expectedExpression anchor
  | bound + 1 =>
      if tokens.head?.any (·.is .rightParen) then .ok ([], tokens)
      else argumentList env anchor bound tokens

-- One argument or more, with commas between them.
def argumentList (env : Environment) (anchor : Token) (bound : Nat) (tokens : List Token) :
    Checked (List Typed × List Token) :=
  match bound with
  | 0 => blame SyntaxFault.expectedExpression anchor
  | bound + 1 => do
      let (first, rest) ← read env anchor bound 0 tokens
      match rest with
      | [] => .ok ([first], [])
      | t :: later =>
          if t.is .comma then do
            let (others, rest) ← argumentList env anchor bound later
            .ok (first :: others, rest)
          else .ok ([first], t :: later)

end

-- Without a token there is nothing to read, however high the bound.
section

variable (env : Environment) (anchor : Token)

theorem climb_nil (bound level : Nat) (left : Typed) :
    climb env anchor bound level left [] = .ok (left, []) := by
  cases bound <;> simp only [climb]

theorem operand_nil (bound : Nat) :
    operand env anchor bound [] = blame SyntaxFault.expectedExpression anchor := by
  cases bound <;> simp only [operand]

end

end Expression

-- Reads all of `tokens` as one expression. If there are none, that is reported at `place`.
def Environment.expression (env : Environment) (tokens : List Token) (place : Token) :
    Checked Typed :=
  match tokens.getLast? with
  | none => blame SyntaxFault.expectedExpression place
  | some anchor => do
      let (e, rest) ← Expression.read env anchor (2 * tokens.length + 1) 0 tokens
      match rest with
      | [] => .ok e
      | extra :: _ => blame (SyntaxFault.unwanted extra.lexeme .afterExpression) extra

end MiLanguage
