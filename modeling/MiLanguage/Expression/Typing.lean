import MiLanguage.Datatype.Basic
import MiLanguage.Resolution
import MiLanguage.Text.Digits

set_option autoImplicit false

namespace MiLanguage

/-- An expression's node, which carries its type. -/
structure Typed where
  node : Node
  type : Datatype

namespace Typed

def of (node : Node) (type : Datatype) : Typed := ⟨node.typed type, type⟩

@[simp] theorem of_type (node : Node) (type : Datatype) : (of node type).type = type := rfl
@[simp] theorem of_node (node : Node) (type : Datatype) : (of node type).node = node.typed type :=
  rfl

def binary (op : BinaryOperator) (left right : Typed) (place : Token) : Checked Typed :=
  match Datatype.binaryResult op left.type right.type with
  | some type => .ok (of (.new (.binary op) place.streamLine [left.node, right.node]) type)
  | none => blame (TypeFault.operands op left.type right.type) place

def ternary (condition yes no : Typed) (place : Token) : Checked Typed := do
  require condition.type.isCondition (TypeFault.ternaryCondition condition.type) place
  require (yes.type.sameBase no.type) (TypeFault.ternaryArms yes.type no.type) place
  let type := if yes.type.isNull then no.type else yes.type
  .ok (of (.new .ternaryOperator place.streamLine
    [condition.node, .new .ternaryIf place.streamLine [yes.node],
      .new .ternaryElse place.streamLine [no.node]]) type)

def unary (op : UnaryOperator) (operand : Typed) (place : Token) : Typed :=
  of (.new (.unary op) place.streamLine [operand.node]) operand.type

def requireOperand (holds : Bool) (operand : Typed) (wanted : String) (place : Token) :
    Checked Unit :=
  require holds (TypeFault.operand place.lexeme operand.type wanted) place

def cast (p : Primitive) (operand : Typed) (place : Token) : Typed :=
  of ((Node.leaf .castValue place).push operand.node) (.primitive p)

-- The number that digits spell, if there are any and nothing else.
def digitsValue? (isDigit : Char → Bool) (base : Nat) (cs : List Char) : Option Nat :=
  if cs.isEmpty || !cs.all isDigit then none else some (digitsValue base cs)

def intValue? (lexeme : String) : Option Nat :=
  match lexeme.toList with
  | '0' :: 'x' :: cs | '0' :: 'X' :: cs => digitsValue? isHexDigit 16 cs
  | cs => digitsValue? Char.isDigit 10 cs

def longValue? (lexeme : String) : Option Nat :=
  digitsValue? Char.isDigit 10
    (lexeme.toList.reverse.dropWhile fun c => c = 'l' || c = 'L').reverse

def maxInt : Nat := 2147483647
def maxLong : Nat := 9223372036854775807

-- A literal under a minus sign may be larger by one.
def intLiteral (place : Token) (negated : Bool) : Checked Typed :=
  let limit := if negated then maxInt + 1 else maxInt
  if (intValue? place.lexeme).any (· ≤ limit) then
    .ok (of (.leaf (.literal .integer) place) .int)
  else blame (TypeFault.intOutOfRange place.lexeme) place

def longLiteral (place : Token) : Checked Typed :=
  if (longValue? place.lexeme).any (· ≤ maxLong) then
    .ok (of (.leaf (.literal .long) place) .long)
  else blame (TypeFault.longOutOfRange place.lexeme) place

def literal (l : LiteralToken) (place : Token) : Checked Typed :=
  match l with
  | .int => intLiteral place false
  | .long => longLiteral place
  | .double => .ok (of (.leaf (.literal .double) place) .double)
  | .float => .ok (of (.leaf (.literal .float) place) .float)
  | .char => .ok (of (.leaf (.literal .char) place) .char)
  | .string => .ok (of (.leaf (.literal .string) place) .string)
  | .yes | .no | .bit => .ok (of (.leaf (.literal .bool) place) .bool)
  | .null => .ok (of (.leaf (.literal .null) place) .null)

def reference (env : Environment) (place : Token) : Checked Typed := do
  let v ← env.resolveVariable place
  .ok (of (.leaf .variableReference (.synthetic .identifier v.qualified place)) v.type)

def call (env : Environment) (place : Token) (args : List Typed) : Checked Typed := do
  let callee ← env.resolveCall place (args.map Typed.type)
  let name := Token.synthetic .identifier callee.qualified place
  .ok (of (.new .functionCall place.streamLine
    [.leaf .identifier name, .new .parameters place.streamLine (args.map Typed.node)])
    callee.returnType)

def enumMember (env : Environment) (place member : Token) : Checked Typed := do
  let (qualified, members) ← env.resolveEnum place
  require (members.contains member.lexeme)
    (ResolutionFault.memberNotFound member.lexeme qualified) member
  let name := Token.synthetic .identifier qualified place
  .ok (of (.new .getEnumMember place.streamLine
    [.leaf .identifier name, .leaf .identifier member]) (.named qualified))

def construct (env : Environment) (keyword place : Token) : Checked Typed := do
  let qualified ← env.resolveClass place
  let name := Token.synthetic .identifier qualified place
  .ok (of { Node.leaf .structConstruct name with line := keyword.streamLine } (.named qualified))

end Typed

end MiLanguage
