set_option autoImplicit false

namespace MiLanguage

inductive BinaryOperator where
  | mul | div | mod
  | add | sub
  | shl | shr
  | less | lessEq | greater | greaterEq
  | equal | notEqual
  | bitAnd | xor | bitOr
  | and | or
  deriving DecidableEq, Repr

inductive OperatorClass where
  | arithmetic | shift | bitwise | relational | equality | logical
  deriving DecidableEq, Repr

/-- The operators that an assignment such as `+=` can apply. -/
inductive CompoundOperator where
  | add | sub | mul | div | mod | bitAnd | bitOr | xor | shl | shr
  deriving DecidableEq, Repr

inductive UnaryOperator where
  | negate | boolNot | bitNot
  deriving DecidableEq, Repr

namespace BinaryOperator

def all : List BinaryOperator :=
  [.mul, .div, .mod, .add, .sub, .shl, .shr, .less, .lessEq, .greater, .greaterEq, .equal,
    .notEqual, .bitAnd, .xor, .bitOr, .and, .or]

theorem mem_all (op : BinaryOperator) : op ∈ all := by cases op <;> decide

def symbol : BinaryOperator → String
  | mul => "*"
  | div => "/"
  | mod => "%"
  | add => "+"
  | sub => "-"
  | shl => "<<"
  | shr => ">>"
  | less => "<"
  | lessEq => "<="
  | greater => ">"
  | greaterEq => ">="
  | equal => "=="
  | notEqual => "!="
  | bitAnd => "&"
  | xor => "^"
  | bitOr => "|"
  | and => "&&"
  | or => "||"

def operatorClass : BinaryOperator → OperatorClass
  | mul | div | mod | add | sub => .arithmetic
  | shl | shr => .shift
  | bitAnd | xor | bitOr => .bitwise
  | less | lessEq | greater | greaterEq => .relational
  | equal | notEqual => .equality
  | and | or => .logical

-- A larger level binds tighter. The ternary operator stands below all of them.
def level : BinaryOperator → Nat
  | or => 1
  | and => 2
  | bitOr => 3
  | xor => 4
  | bitAnd => 5
  | equal | notEqual => 6
  | less | lessEq | greater | greaterEq => 7
  | shl | shr => 8
  | add | sub => 9
  | mul | div | mod => 10

theorem level_pos (op : BinaryOperator) : 0 < op.level := by cases op <;> decide

end BinaryOperator

def CompoundOperator.operator : CompoundOperator → BinaryOperator
  | add => .add
  | sub => .sub
  | mul => .mul
  | div => .div
  | mod => .mod
  | bitAnd => .bitAnd
  | bitOr => .bitOr
  | xor => .xor
  | shl => .shl
  | shr => .shr

def CompoundOperator.symbol (op : CompoundOperator) : String := op.operator.symbol ++ "="

end MiLanguage
