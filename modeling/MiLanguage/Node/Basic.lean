import MiLanguage.Datatype.Basic
import MiLanguage.Token.Basic

set_option autoImplicit false

namespace MiLanguage

inductive LiteralKind where
  | integer | long | double | float | char | string | bool | null
  deriving DecidableEq, Repr

inductive NodeKind where
  | parent
  | createModule | createClass | createEnum | enumValues | createConstructor
  | functionDefinition | nativeFunctionDefinition | nativeHostClass
  | parameters | parameter
  | varDefinition | varDefAndSetValue | varSetValue
  | modifiers | modifier | identifier | type | value | operator
  | stdlibFinish
  | ifStatement | whileStatement | doStatement | forFakeScope | forStatement
  | condition | forInstruct
  | returnValue | breakStatement | continueStatement | useStatement
  | functionCall | variableReference | getEnumMember | structConstruct
  | ternaryOperator | ternaryIf | ternaryElse
  | castValue
  | unary (op : UnaryOperator)
  | literal (l : LiteralKind)
  | binary (op : BinaryOperator)
  deriving DecidableEq, Repr

def LiteralKind.name : LiteralKind → String
  | integer => "INTEGER_LITERAL"
  | long => "LONG_LITERAL"
  | double => "DOUBLE_LITERAL"
  | float => "FLOAT_LITERAL"
  | char => "CHAR_LITERAL"
  | string => "STRING_LITERAL"
  | bool => "BOOL_LITERAL"
  | null => "NULL_LITERAL"

def UnaryOperator.nodeName : UnaryOperator → String
  | negate => "NEGATE"
  | boolNot => "BOOL_NOT"
  | bitNot => "BIT_NOT"

def BinaryOperator.nodeName : BinaryOperator → String
  | mul => "MULTIPLY"
  | div => "DIVIDE"
  | mod => "MODULUS"
  | add => "ADD"
  | sub => "SUBTRACT"
  | shl => "L_SHIFT"
  | shr => "R_SHIFT"
  | less => "LESS_THAN"
  | lessEq => "LESS_THAN_EQ"
  | greater => "GREATER_THAN"
  | greaterEq => "GREATER_THAN_EQ"
  | equal => "EQUALS"
  | notEqual => "NOT_EQUALS"
  | bitAnd => "BIT_AND"
  | xor => "XOR"
  | bitOr => "BIT_OR"
  | and => "LOGICAL_AND"
  | or => "LOGICAL_OR"

namespace NodeKind

def name : NodeKind → String
  | parent => "PARENT"
  | createModule => "CREATE_MODULE"
  | createClass => "CREATE_CLASS"
  | createEnum => "CREATE_ENUM"
  | enumValues => "ENUM_VALUES"
  | createConstructor => "CREATE_CONSTRUCTOR"
  | functionDefinition => "FUNCTION_DEFINITION"
  | nativeFunctionDefinition => "NATIVE_FUNCTION_DEFINITION"
  | nativeHostClass => "NATIVE_HOST_CLASS"
  | parameters => "PARAMETERS"
  | parameter => "PARAMETER"
  | varDefinition => "VAR_DEFINITION"
  | varDefAndSetValue => "VAR_DEF_AND_SET_VALUE"
  | varSetValue => "VAR_SET_VALUE"
  | modifiers => "MODIFIERS"
  | modifier => "MODIFIER"
  | identifier => "IDENTIFIER"
  | type => "TYPE"
  | value => "VALUE"
  | operator => "OPERATOR"
  | stdlibFinish => "STDLIB_FINISH"
  | ifStatement => "IF_STATEMENT"
  | whileStatement => "WHILE_STATEMENT"
  | doStatement => "DO_STATEMENT"
  | forFakeScope => "FOR_FAKE_SCOPE"
  | forStatement => "FOR_STATEMENT"
  | condition => "CONDITION"
  | forInstruct => "FOR_INSTRUCT"
  | returnValue => "RETURN_VALUE"
  | breakStatement => "BREAK_STATEMENT"
  | continueStatement => "CONTINUE_STATEMENT"
  | useStatement => "USE_STATEMENT"
  | functionCall => "FUNCTION_CALL"
  | variableReference => "VARIABLE_REFERENCE"
  | getEnumMember => "GET_ENUM_MEMBER"
  | structConstruct => "STRUCT_CONSTRUCT"
  | ternaryOperator => "TERNARY_OPERATOR"
  | ternaryIf => "TERNARY_IF"
  | ternaryElse => "TERNARY_ELSE"
  | castValue => "CAST_VALUE"
  | unary op => op.nodeName
  | literal l => l.name
  | binary op => op.nodeName

def all : List NodeKind :=
  [parent, createModule, createClass, createEnum, enumValues, createConstructor,
    functionDefinition, nativeFunctionDefinition, nativeHostClass, parameters, parameter,
    varDefinition, varDefAndSetValue, varSetValue, modifiers, modifier, identifier, type, value,
    operator, stdlibFinish, ifStatement, whileStatement, doStatement, forFakeScope, forStatement,
    condition, forInstruct, returnValue, breakStatement, continueStatement, useStatement,
    functionCall, variableReference, getEnumMember, structConstruct, ternaryOperator, ternaryIf,
    ternaryElse, castValue] ++
  [UnaryOperator.negate, .boolNot, .bitNot].map unary ++
  [LiteralKind.integer, .long, .double, .float, .char, .string, .bool, .null].map literal ++
  BinaryOperator.all.map binary

theorem mem_all (k : NodeKind) : k ∈ all := by
  cases k with
  | unary op => cases op <;> decide
  | literal l => cases l <;> decide
  | binary op => cases op <;> decide
  | _ => decide

def ofName? (name : String) : Option NodeKind := all.find? (·.name = name)

-- The kinds of nodes that an expression is made of, each of which has a type.
def isExpression : NodeKind → Bool
  | functionCall | variableReference | getEnumMember | structConstruct | ternaryOperator
  | castValue | unary _ | literal _ | binary _ => true
  | _ => false

end NodeKind

/-- A node of the annotated tree. `token` is what it was built from; where a name was resolved,
that token carries the qualified name. -/
structure Node where
  kind : NodeKind
  token : Option Token := none
  children : List Node := []
  line : Nat
  type : Option Datatype := none
  deriving Repr

namespace Node

def new (kind : NodeKind) (line : Nat) (children : List Node := []) : Node :=
  { kind, line, children }

def leaf (kind : NodeKind) (token : Token) : Node :=
  { kind, token := some token, line := token.streamLine }

def push (n : Node) (child : Node) : Node := { n with children := n.children ++ [child] }

def withChildren (n : Node) (children : List Node) : Node :=
  { n with children := n.children ++ children }

def typed (n : Node) (type : Datatype) : Node := { n with type := some type }

def lexeme (n : Node) : Option String := n.token.map Token.lexeme

def child? (n : Node) (kind : NodeKind) : Option Node := n.children.find? (·.kind = kind)

mutual
-- The node and everything below it, parents before children and in source order.
def preorder : Node → List Node
  | ⟨kind, token, children, line, type⟩ =>
      ⟨kind, token, children, line, type⟩ :: preorderAll children
def preorderAll : List Node → List Node
  | [] => []
  | n :: ns => preorder n ++ preorderAll ns
end

def findAll (n : Node) (kind : NodeKind) : List Node := n.preorder.filter (·.kind = kind)

def size (n : Node) : Nat := n.preorder.length

@[simp] theorem preorderAll_nil : preorderAll [] = [] := by simp [preorderAll]

@[simp] theorem preorderAll_cons (n : Node) (ns : List Node) :
    preorderAll (n :: ns) = n.preorder ++ preorderAll ns := by simp [preorderAll]

theorem preorder_eq (n : Node) : n.preorder = n :: preorderAll n.children := by
  cases n; simp [preorder]

theorem mem_preorder_self (n : Node) : n ∈ n.preorder := by simp [preorder_eq]

@[simp] theorem push_children (n c : Node) : (n.push c).children = n.children ++ [c] := rfl
@[simp] theorem push_kind (n c : Node) : (n.push c).kind = n.kind := rfl
@[simp] theorem typed_children (n : Node) (t : Datatype) : (n.typed t).children = n.children := rfl
@[simp] theorem typed_kind (n : Node) (t : Datatype) : (n.typed t).kind = n.kind := rfl
@[simp] theorem typed_type (n : Node) (t : Datatype) : (n.typed t).type = some t := rfl

end Node

end MiLanguage
