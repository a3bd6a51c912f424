import MiLanguage.Statement.Basic

set_option autoImplicit false

namespace MiLanguage

/-- A parameter and its node. -/
structure ReadParameter where
  parameter : FunctionParameter
  node : Node

/-- What a function declares about itself before its body. -/
structure Header where
  name : Token
  returnType : Datatype := .void
  -- The token that names the return type, if the header does.
  returnToken : Option Token := none
  parameters : List ReadParameter := []
  -- The host class of a native function, without its quotes.
  hostClass : Option Token := none

namespace Header

def params (h : Header) : List FunctionParameter := h.parameters.map ReadParameter.parameter
def paramTypes (h : Header) : List Datatype := h.params.map FunctionParameter.type

def parametersNode (h : Header) (line : Nat) : Node :=
  .new .parameters line (h.parameters.map ReadParameter.node)

def returnNode (h : Header) (line : Nat) : Node := typeNode h.returnToken h.returnType line

end Header

namespace Parameter

-- Parameters take no visibility; the first modifier that is wrong is reported.
def readModifiers (mods : LeadingModifiers) :
    List Token → Checked (LeadingModifiers × List Token)
  | [] => .ok (mods, [])
  | t :: rest =>
      match t.kind with
      | .modifier m =>
          if m.isVisibility then blame (SyntaxFault.misplacedVisibility m) t
          else match mods.set.insert m with
            | .ok set => readModifiers ⟨set, mods.tokens ++ [t]⟩ rest
            | .error present => blame (SyntaxFault.conflictingParameterModifiers m present) t
      | _ => .ok (mods, t :: rest)

def requireType (t : Token) : Checked Unit :=
  match t.kind with
  | .question => blame TypeFault.inferredParameter t
  | .identifier => .ok ()
  | kind => require kind.isDatatype (SyntaxFault.parameterTypeExpected (some t.lexeme)) t

-- One parameter: modifiers, a type and a name that `others` do not have.
def read (env : Environment) (others : List ReadParameter) (place : Token) (part : List Token) :
    Checked ReadParameter := do
  let first ← match part with
    | [] => blame SyntaxFault.emptyParameter place
    | t :: _ => .ok t
  let (mods, rest) ← readModifiers {} part
  let (typeToken, rest) ← match rest with
    | [] => blame (SyntaxFault.parameterTypeExpected none) first
    | t :: rest => .ok (t, rest)
  requireType typeToken
  let type ← env.resolveDatatype typeToken mods.set.isNullable
  let name ← declaredName rest.head? typeToken "function argument"
  if let some extra := rest.tail.head? then
    blame (SyntaxFault.unwanted extra.lexeme .inParameters) extra
  require (!others.any (·.parameter.name = name.lexeme))
    (ResolutionFault.parameterAgain name.lexeme) name
  let line := name.streamLine
  .ok
    { parameter := ⟨type, name.lexeme, mods.set⟩
      node := .new .parameter line
        [mods.node line, .leaf .identifier name, typeNode (some typeToken) type line] }

def readAll (env : Environment) (place : Token) (read_ : List ReadParameter) :
    List (List Token) → Checked (List ReadParameter)
  | [] => .ok read_
  | part :: parts => do
      let p ← read env read_ place part
      readAll env place (read_ ++ [p]) parts

-- The parameters in parentheses at the head of `tokens`, if there are any, and what is left.
def readList (env : Environment) (tokens : List Token) :
    Checked (List ReadParameter × List Token) :=
  match tokens with
  | [] => .ok ([], [])
  | opening :: rest =>
      if opening.is .leftParen then
        match splitClosing 0 rest with
        | none => blame (SyntaxFault.expected .rightParen "to close function arguments") opening
        | some ([], rest) => .ok ([], rest)
        | some (inner, rest) => do
            .ok (← readAll env opening [] (splitCommas inner), rest)
      else .ok ([], tokens)

end Parameter

namespace Header

def trimQuotes (s : String) : String :=
  String.ofList ((s.toList.dropWhile (· = '"')).reverse.dropWhile (· = '"')).reverse

-- The end of a header: the brace that opens a body, or a host class.
def readTail (tokens : List Token) (last : Token) : Checked (Option Token) :=
  match tokens with
  | [] => blame (SyntaxFault.expected .leftBrace "after function header") last
  | t :: rest =>
      match t.kind, rest with
      | .leftBrace, [] => .ok none
      | .arrow, rest =>
          match rest with
          | [] => blame SyntaxFault.hostClassExpected t
          | name :: rest => do
              require (name.is (.literal .string)) SyntaxFault.hostClassExpected t
              require (rest.length = 1 && last.is .semicolon)
                (SyntaxFault.expected .semicolon "after host class name") name
              .ok (some (.synthetic (.literal .string) (trimQuotes name.lexeme) name))
      | _, _ => blame (SyntaxFault.unwanted t.lexeme .inHeader) t

-- What may follow a function's name: nothing, `~`, or `::` and a type.
def readReturn (env : Environment) (mods : LeadingModifiers) (tokens : List Token)
    (last : Token) : Checked (Datatype × Option Token × List Token) :=
  match tokens with
  | [] => blame (SyntaxFault.functionHeader last.lexeme) last
  | t :: rest =>
      match t.kind with
      | .tilde => .ok (.void, none, rest)
      | .doubleColon =>
          match rest with
          | [] => blame SyntaxFault.returnTypeExpected t
          | name :: rest => do
              let type ←
                if name.is (.datatype .void) then .ok Datatype.void
                else env.resolveDatatype name mods.set.isNullable
              .ok (type, some name, rest)
      | .leftParen | .leftBrace | .arrow => .ok (.void, none, t :: rest)
      | _ => blame (SyntaxFault.functionHeader t.lexeme) t

-- The header of a function. A native function has a host class where others have a body.
def read (env : Environment) (mods : LeadingModifiers) (keyword : Token) (tokens : List Token) :
    Checked Header := do
  let last := tokens.getLast?.getD keyword
  let name ← declaredName tokens.head? keyword "function"
  let (returnType, returnToken, rest) ← readReturn env mods tokens.tail last
  let (parameters, rest) ← Parameter.readList env rest
  let hostClass ← readTail rest last
  require (!(mods.set.isNative && hostClass.isNone)) (NativeFault.nativeWithBody name.lexeme) name
  require (mods.set.isNative || hostClass.isNone) (NativeFault.boundNotNative name.lexeme) name
  .ok { name, returnType, returnToken, parameters, hostClass }

end Header

end MiLanguage
