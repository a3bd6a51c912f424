import MiLanguage.Datatype.Basic
import MiLanguage.Modifier
import MiLanguage.Operator

set_option autoImplicit false

namespace MiLanguage

/-- The words that open a statement. `libraryEnd` closes the standard library's own text. -/
inductive Keyword where
  | module | «class» | enum | fn | new
  | «if» | «while» | «do» | «for» | ret | «break» | «continue» | use
  | libraryEnd
  deriving DecidableEq, Repr

/-- `yes` and `no` are the words `true` and `false`, `bit` is `0b` or `1b`. -/
inductive LiteralToken where
  | null | yes | no | bit | int | long | double | float | char | string
  deriving DecidableEq, Repr

inductive Punctuation where
  | leftParen | rightParen | leftBrace | rightBrace
  | comma | semicolon | doubleColon | colon | question | arrow
  deriving DecidableEq, Repr

inductive TokenKind where
  | keyword (k : Keyword)
  | modifier (m : Modifier)
  | datatype (p : Primitive)
  | literal (l : LiteralToken)
  -- A name, with dots between the names of its modules: `a`, `std.println`.
  | identifier
  | binary (op : BinaryOperator)
  | assign
  | compound (op : CompoundOperator)
  | increment | decrement
  | bang | tilde
  | punctuation (p : Punctuation)
  deriving DecidableEq, Repr

def Keyword.all : List Keyword :=
  [.module, .«class», .enum, .fn, .new, .«if», .«while», .«do», .«for», .ret, .«break», .«continue», .use,
    .libraryEnd]

def Keyword.text : Keyword → String
  | module => "module"
  | «class» => "class"
  | enum => "enum"
  | fn => "fn"
  | new => "new"
  | «if» => "if"
  | «while» => "while"
  | «do» => "do"
  | «for» => "for"
  | ret => "ret"
  | «break» => "break"
  | «continue» => "continue"
  | use => "use"
  | libraryEnd => "STANDARDLIB_MI_FINISH_CODE"

def LiteralToken.text : LiteralToken → String
  | null => "null"
  | yes => "true"
  | no => "false"
  | bit => "bool literal"
  | int => "integer literal"
  | long => "long literal"
  | double => "double literal"
  | float => "float literal"
  | char => "char literal"
  | string => "string literal"

def Punctuation.text : Punctuation → String
  | leftParen => "("
  | rightParen => ")"
  | leftBrace => "\x7b"
  | rightBrace => "\x7d"
  | comma => ","
  | semicolon => ";"
  | doubleColon => "::"
  | colon => ":"
  | question => "?"
  | arrow => "->"

namespace TokenKind

@[match_pattern] abbrev leftParen : TokenKind := .punctuation .leftParen
@[match_pattern] abbrev rightParen : TokenKind := .punctuation .rightParen
@[match_pattern] abbrev leftBrace : TokenKind := .punctuation .leftBrace
@[match_pattern] abbrev rightBrace : TokenKind := .punctuation .rightBrace
@[match_pattern] abbrev comma : TokenKind := .punctuation .comma
@[match_pattern] abbrev semicolon : TokenKind := .punctuation .semicolon
@[match_pattern] abbrev doubleColon : TokenKind := .punctuation .doubleColon
@[match_pattern] abbrev colon : TokenKind := .punctuation .colon
@[match_pattern] abbrev question : TokenKind := .punctuation .question
@[match_pattern] abbrev arrow : TokenKind := .punctuation .arrow

-- How messages speak of a kind: its one spelling, or a description.
def text : TokenKind → String
  | keyword k => k.text
  | modifier m => m.keyword
  | datatype p => p.name
  | literal l => l.text
  | identifier => "identifier"
  | binary op => op.symbol
  | assign => "="
  | compound op => op.symbol
  | increment => "++"
  | decrement => "--"
  | bang => "!"
  | tilde => "~"
  | punctuation p => p.text

def isModifier : TokenKind → Bool
  | modifier _ => true
  | _ => false

def modifier? : TokenKind → Option Modifier
  | modifier m => some m
  | _ => none

-- The type of a variable can be spelled with this word: any primitive but `void`.
def isDatatype : TokenKind → Bool
  | datatype p => p ≠ .void
  | _ => false

def datatype? : TokenKind → Option Datatype
  | datatype p => some (.primitive p)
  | _ => none

def isLiteral : TokenKind → Bool
  | literal _ => true
  | _ => false

def isAssignment : TokenKind → Bool
  | assign | compound _ | increment | decrement => true
  | _ => false

-- A statement ends with this token.
def isTerminator : TokenKind → Bool
  | semicolon | leftBrace | rightBrace => true
  | _ => false

def binary? : TokenKind → Option BinaryOperator
  | binary op => some op
  | _ => none

-- The operator that an assignment applies; `++` and `--` add and subtract one.
def applied? : TokenKind → Option BinaryOperator
  | compound op => some op.operator
  | increment => some .add
  | decrement => some .sub
  | _ => none

end TokenKind

-- The unit that a text was read from: the user's own, the standard library, or another.
abbrev FileId := Nat

def userFile : FileId := 0
def libraryFile : FileId := 1

/-- Byte offsets into the text of one unit. -/
structure Span where
  start : Nat
  stop : Nat
  fileId : FileId
  deriving DecidableEq, Repr

def Span.isLibrary (s : Span) : Bool := s.fileId = libraryFile

/-- `line` and `column` count within the token's own unit, `streamLine` over all units read so
far. -/
structure Token where
  kind : TokenKind
  lexeme : String
  line : Nat
  column : Nat
  streamLine : Nat
  span : Span
  deriving DecidableEq, Repr

namespace Token

def is (t : Token) (kind : TokenKind) : Bool := t.kind = kind

-- A token that is not in the text, placed where `place` is.
def synthetic (kind : TokenKind) (lexeme : String) (place : Token) : Token :=
  { place with kind, lexeme }

@[simp] theorem synthetic_kind (kind : TokenKind) (lexeme : String) (place : Token) :
    (synthetic kind lexeme place).kind = kind := rfl

@[simp] theorem synthetic_lexeme (kind : TokenKind) (lexeme : String) (place : Token) :
    (synthetic kind lexeme place).lexeme = lexeme := rfl

@[simp] theorem synthetic_span (kind : TokenKind) (lexeme : String) (place : Token) :
    (synthetic kind lexeme place).span = place.span := rfl

end Token

end MiLanguage
