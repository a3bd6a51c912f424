import MiLanguage.Host.Binding
import MiLanguage.Token.Basic

set_option autoImplicit false

namespace MiLanguage

/-- The stage of the analysis that a diagnostic comes from. -/
inductive DiagnosticKind where
  | lexical | syntactic | scope | resolution | typing | native | internal
  deriving DecidableEq, Repr

-- Why a token that stands in the text is not wanted there.
inductive Unwanted where
  | alone
  | after (lexeme : String)
  | afterExpression
  | noExpression
  | noStatement
  | noDatatype
  | noVariableName
  | noEnd (what : String)
  | inParameters
  | inHeader
  | afterVariableName
  deriving DecidableEq, Repr

inductive SyntaxFault where
  | expectedExpression
  | expected (kind : TokenKind) (place : String)
  | expectedInstead (kind : TokenKind) (place found : String)
  | unwanted (lexeme : String) (why : Unwanted)
  | strayBrace
  | unclosedScope
  | doWithoutWhile (atEnd : Bool)
  | unreachable
  | modifiersAlone
  | unexpectedModifiers
  | conflictingModifiers (modifier present : Modifier)
  | conflictingParameterModifiers (modifier present : Modifier)
  | misplacedModifier (keyword what : String)
  | misplacedMutability (what : String)
  | misplacedVisibility (modifier : Modifier)
  | nameExpected (what found : String)
  | dottedName (name : String)
  | manyTokensInMember
  | membersAgain
  | memberAgain (name : String)
  | emptyParameter
  | parameterTypeExpected (found : Option String)
  | returnTypeExpected
  | hostClassExpected
  | functionHeader (found : String)
  | conditionExpected (keyword : String)
  | forHeader
  | loopVariableExpected
  | definitionExpected
  | initialValueExpected
  | stepExpected
  | moduleNameExpected
  | valueAsStatement
  deriving DecidableEq, Repr

inductive ScopeFault where
  | misplacedModule
  | atRoot (plural : String)
  | outsideModule (title : String)
  | functionInEnum
  | functionInFunction
  | variableInEnum
  | outsideFunction
  | outsideLoop
  | outsideClass
  deriving DecidableEq, Repr

inductive ResolutionFault where
  | moduleNotFound (path : String)
  | notFound (what name : String) (path : Option String)
  | ambiguous (what name : String) (paths : List String)
  | inaccessible (keyword what name owner : String)
  | noOverload (name : String) (args : List Datatype)
  | ambiguousCall (name : String) (args : List Datatype) (count : Nat)
  | memberNotFound (member enum : String)
  | datatypeNotFound (name : String)
  | typeAgain (name : String)
  | variableAgain (name : String)
  | parameterAgain (name : String)
  | functionAgain (name : String) (types : List Datatype)
  | constructorAgain
  deriving DecidableEq, Repr

inductive TypeFault where
  | operands (op : BinaryOperator) (left right : Datatype)
  | operand (op : String) (type : Datatype) (wanted : String)
  | stepOperand (op : String) (type : Datatype)
  | ternaryCondition (type : Datatype)
  | ternaryArms (left right : Datatype)
  | intOutOfRange (lexeme : String)
  | longOutOfRange (lexeme : String)
  | inferredParameter
  | inferredVariable
  | missingReturn (type : Datatype)
  | returned (wanted found : Datatype)
  | condition (type : Datatype)
  | initialValue (value type : Datatype) (name : String)
  | assignedValue (value type : Datatype)
  | constantWithoutValue (name : String)
  | constantReassigned (name : String)
  | immutableReassigned (name : String)
  deriving DecidableEq, Repr

inductive NativeFault where
  | binding (e : BindError)
  | nativeWithBody (name : String)
  | boundNotNative (name : String)
  deriving DecidableEq, Repr

inductive InternalFault where
  | undeclaredModule
  | misplacedLibraryEnd
  deriving DecidableEq, Repr

/-- Everything that a program can be blamed for after it has been split into tokens. -/
inductive Fault where
  | syntactic (f : SyntaxFault)
  | scope (f : ScopeFault)
  | resolution (f : ResolutionFault)
  | typing (f : TypeFault)
  | native (f : NativeFault)
  | internal (f : InternalFault)
  deriving DecidableEq, Repr

instance : Coe SyntaxFault Fault := ⟨.syntactic⟩
instance : Coe ScopeFault Fault := ⟨.scope⟩
instance : Coe ResolutionFault Fault := ⟨.resolution⟩
instance : Coe TypeFault Fault := ⟨.typing⟩
instance : Coe NativeFault Fault := ⟨.native⟩
instance : Coe InternalFault Fault := ⟨.internal⟩

def Unwanted.text : Unwanted → String
  | alone => ""
  | after lexeme => s!" after '{lexeme}'"
  | afterExpression => " after expression"
  | noExpression => ", expected an expression"
  | noStatement => ", expected a statement"
  | noDatatype => ", expected a datatype"
  | noVariableName => ", expected a variable name"
  | noEnd what => s!", expected ';' after {what}"
  | inParameters => " in function arguments"
  | inHeader => " in function header"
  | afterVariableName => ", expected '=' or ';' after variable name"

namespace SyntaxFault

def message : SyntaxFault → String
  | expectedExpression => "Expected expression"
  | expected kind place => s!"Expected '{kind.text}' {place}"
  | expectedInstead kind place found => s!"Expected '{kind.text}' {place}, but got '{found}'"
  | unwanted lexeme why => s!"Unexpected token '{lexeme}'{why.text}"
  | strayBrace => "Unexpected '\x7d'"
  | unclosedScope => "Expected '\x7d' before end of input"
  | doWithoutWhile _ => "Expected 'while' after 'do' block"
  | unreachable => "Unreachable statement"
  | modifiersAlone => "Expected statement after modifiers"
  | unexpectedModifiers => "Unexpected modifiers"
  | conflictingModifiers m present | conflictingParameterModifiers m present =>
      s!"Conflicting modifiers, '{m.keyword}' cannot be used together with '{present.keyword}'"
  | misplacedModifier keyword what => s!"Cannot use modifier '{keyword}' on {what}"
  | misplacedMutability what => s!"Cannot declare {what} as const or mut"
  | misplacedVisibility m =>
      s!"Cannot use visibility modifier '{m.keyword}' on function arguments"
  | nameExpected what found => s!"Expected {what} name, but got '{found}'"
  | dottedName name => s!"Cannot use restricted name '{name}'"
  | manyTokensInMember => "Expected a single identifier for each enum member"
  | membersAgain => "Redefinition of enum members"
  | memberAgain name => s!"Duplicate enum member '{name}'"
  | emptyParameter => "Expected function argument"
  | parameterTypeExpected none => "Expected datatype of function argument"
  | parameterTypeExpected (some found) =>
      s!"Expected datatype of function argument, but got '{found}'"
  | returnTypeExpected => "Expected return type after '::'"
  | hostClassExpected => "Expected host class name after '->'"
  | functionHeader found =>
      s!"Expected '(', '::', '~' or '\x7b' after function name, but got '{found}'"
  | conditionExpected keyword => s!"Expected condition in parentheses after '{keyword}'"
  | forHeader => "Malformed 'for' header"
  | loopVariableExpected => "Expected loop variable before '->'"
  | definitionExpected | initialValueExpected => "Expected variable definition"
  | stepExpected => "Expected variable set or function call as for loop instruct"
  | moduleNameExpected => "Expected module name after 'use'"
  | valueAsStatement => "Unexpected expression statement"

def hints : SyntaxFault → List String
  | strayBrace => ["Remove the extra closing brace"]
  | unclosedScope => ["Every opened scope must be closed"]
  | doWithoutWhile false => ["Add 'while (condition);' after the closing brace"]
  | unreachable => ["Remove the statements after 'ret', 'break' or 'continue'"]
  | unexpectedModifiers => ["This statement does not take modifiers"]
  | conflictingModifiers _ _ => ["Remove one of the conflicting modifiers"]
  | dottedName _ => ["Names of declarations cannot contain '.'"]
  | membersAgain => ["List every member in a single statement"]
  | forHeader => ["Use 'for (init, condition, step)' or 'for (init, var -> end)'"]
  | initialValueExpected => ["Give the loop variable an initial value"]
  | valueAsStatement => ["Only function calls can be used as statements"]
  | _ => []

end SyntaxFault

namespace ScopeFault

def message : ScopeFault → String
  | misplacedModule =>
      "Modules can only be defined at root level or inside of other modules"
  | atRoot plural => s!"Cannot define {plural} at root level"
  | outsideModule title => s!"{title} can only be defined inside of modules"
  | functionInEnum => "Cannot define functions inside of an enum"
  | functionInFunction => "Cannot define functions inside of other functions"
  | variableInEnum => "Cannot define variables inside of an enum"
  | outsideFunction => "Expected statement to be inside of a function"
  | outsideLoop => "Expected statement to be inside of a loop"
  | outsideClass => "Expected constructor to be inside of a class"

def hints : ScopeFault → List String
  | outsideLoop => ["Delete unavailable statement"]
  | _ => []

end ScopeFault

namespace ResolutionFault

def argumentsText (args : List Datatype) : String :=
  if args.isEmpty then "with no arguments"
  else s!"with argument types ({Datatype.listText args})"

def message : ResolutionFault → String
  | moduleNotFound path => s!"Cannot find module '{path}'"
  | notFound what name none => s!"Cannot find any {what} called '{name}'"
  | notFound what name (some path) => s!"Cannot find any {what} called '{name}' in module '{path}'"
  | ambiguous what name paths =>
      s!"Ambiguous {what} '{name}', found in modules " ++ ", ".intercalate paths
  | inaccessible keyword what name owner =>
      s!"Cannot access {keyword} {what} '{name}' of module '{owner}' from here"
  | noOverload name args =>
      s!"Cannot find any implementation for function '{name}' {argumentsText args}"
  | ambiguousCall name args count =>
      s!"Ambiguous call to function '{name}' {argumentsText args}, {count} overloads match"
  | memberNotFound member enum => s!"Cannot find member '{member}' in enum '{enum}'"
  | datatypeNotFound name => s!"Cannot find datatype '{name}'"
  | typeAgain name => s!"Redefinition of '{name}'"
  | variableAgain name => s!"Redefinition of variable '{name}'"
  | parameterAgain name => s!"Redefinition of function argument '{name}'"
  | functionAgain name _ => s!"Redefinition of function '{name}'"
  | constructorAgain => "Redefinition of constructor"

def hints : ResolutionFault → List String
  | inaccessible keyword _ _ _ =>
      [s!"Remove the '{keyword}' modifier from the declaration to make it accessible"]
  | functionAgain _ types =>
      [s!"An overload with argument types ({Datatype.listText types}) already exists"]
  | constructorAgain => ["A class can only have one constructor"]
  | _ => []

end ResolutionFault

namespace TypeFault

def message : TypeFault → String
  | operands op left right =>
      s!"Cannot use '{op.symbol}' operator on types '{left.text}' and '{right.text}'"
  | operand op type wanted =>
      s!"Cannot use '{op}' operator on type '{type.text}', expected {wanted}"
  | stepOperand op type => s!"Cannot use '{op}' operator on type '{type.text}'"
  | ternaryCondition _ => "Ternary operator condition should be of type 'nonnull bool'"
  | ternaryArms _ _ =>
      "'if' part of ternary operator should have the same type as the 'else' part"
  | intOutOfRange lexeme => s!"Integer literal '{lexeme}' is out of range for 'int'"
  | longOutOfRange lexeme => s!"Long literal '{lexeme}' is out of range"
  | inferredParameter => "Unexpected token '?', function arguments need a definite datatype"
  | inferredVariable => "Unexpected token '?', expected a definite datatype"
  | missingReturn type =>
      s!"Missing return statement, expected a value of type '{type.text}'"
  | returned wanted found =>
      s!"Expected datatype of return value to be '{wanted.text}', but got '{found.text}' instead"
  | condition type => s!"Expected boolean condition, but got '{type.text}'"
  | initialValue value type _ | assignedValue value type =>
      "Datatypes are not equal on both sides, trying to assign " ++
        s!"{value.text} to a {type.text} variable."
  | constantWithoutValue name => s!"Constant variable '{name}' must be initialized"
  | constantReassigned name => s!"Cannot reassign constant variable '{name}'"
  | immutableReassigned name => s!"Cannot reassign immutable variable '{name}'"

def hints : TypeFault → List String
  | ternaryCondition type => [s!"The condition has type '{type.text}'"]
  | ternaryArms left right => [s!"Found '{left.text}' and '{right.text}'"]
  | intOutOfRange lexeme => [s!"Use a long literal instead: {lexeme}L"]
  | inferredVariable => ["Inferred variables need a non-null initial value"]
  | missingReturn _ => ["End the function with a 'ret' statement"]
  | condition _ => ["Conditions must be of type 'nonnull bool'"]
  | initialValue value _ name => [s!"Change the datatype of '{name}' to '{value.text}'"]
  | constantWithoutValue _ => ["Assign a value in the definition"]
  | constantReassigned _ => ["Remove the 'const' modifier from the definition"]
  | immutableReassigned _ => ["Declare the variable with the 'mut' modifier"]
  | _ => []

end TypeFault

namespace NativeFault

def message : NativeFault → String
  | binding e => e.message
  | nativeWithBody name => s!"Native function '{name}' cannot have a body"
  | boundNotNative name =>
      s!"Function '{name}' is bound to a host class but not declared 'nat'"

def hints : NativeFault → List String
  | binding e => e.hints
  | nativeWithBody _ => ["Replace the body with -> \"host.Class\";"]
  | boundNotNative _ => ["Add the 'nat' modifier"]

end NativeFault

def InternalFault.message : InternalFault → String
  | undeclaredModule => "Unexpected parsing error, module was not declared"
  | misplacedLibraryEnd =>
      "Unexpected parsing error, standard library ended outside of the root scope"

namespace Fault

def kind : Fault → DiagnosticKind
  | syntactic _ => .syntactic
  | scope _ => .scope
  | resolution _ => .resolution
  | typing _ => .typing
  | native _ => .native
  | internal _ => .internal

def message : Fault → String
  | syntactic f => f.message
  | scope f => f.message
  | resolution f => f.message
  | typing f => f.message
  | native f => f.message
  | internal f => f.message

def hints : Fault → List String
  | syntactic f => f.hints
  | scope f => f.hints
  | resolution f => f.hints
  | typing f => f.hints
  | native f => f.hints
  | internal _ => []

end Fault

end MiLanguage
