import MiLanguage.Text.Digits
import MiLanguage.Token.Basic

set_option autoImplicit false

namespace MiLanguage

def isBlank (c : Char) : Bool :=
  c = ' ' || c = '\t' || c = '\r' || c = '\n' || c = '\x0c'

def isWordStart (c : Char) : Bool := c.isAlpha || c = '_'
def isWordChar (c : Char) : Bool := c.isAlphanum || c = '_'

-- How far a word goes on. A dot belongs to it only if a name starts right after the dot.
def wordLength : List Char → Nat
  | [] => 0
  | c :: cs =>
      if isWordChar c || (c = '.' && cs.head?.any isWordStart) then wordLength cs + 1 else 0

def digitsLength (cs : List Char) : Nat := (cs.takeWhile Char.isDigit).length

-- The longest run of complete string items: a plain character, or `\` and what it escapes.
def stringLength : List Char → Nat
  | [] => 0
  | '\\' :: c :: cs => if c = '\n' then 0 else stringLength cs + 2
  | c :: cs => if c = '"' || c = '\\' then 0 else stringLength cs + 1

-- The rest of a block comment, through the first `*/`.
def commentLength : List Char → Option Nat
  | [] => none
  | '*' :: '/' :: _ => some 2
  | _ :: cs => (commentLength cs).map (· + 1)

/-- What stands at the head of a text, with its length in characters. -/
inductive Lexeme where
  | token (kind : TokenKind) (length : Nat)
  | blank (length : Nat)
  | unterminatedComment
  | unexpected (length : Nat)
  deriving DecidableEq, Repr

def wordKinds : List (String × TokenKind) :=
  Keyword.all.map (fun k => (k.text, TokenKind.keyword k)) ++
  [Modifier.pub, .priv, .own, .const, .mut, .nullable, .nat].map
    (fun m => (m.keyword, TokenKind.modifier m)) ++
  [Primitive.int, .long, .double, .float, .bool, .char, .string, .void].map
    (fun p => (p.name, TokenKind.datatype p)) ++
  [LiteralToken.null, .yes, .no].map (fun l => (l.text, TokenKind.literal l))

def wordKind (word : String) : TokenKind := (wordKinds.lookup word).getD .identifier

-- Longer spellings come first, so the first that matches is the longest.
def signs : List TokenKind :=
  [TokenKind.compound .shl, .compound .shr] ++
  [TokenKind.increment, .decrement, .binary .equal, .binary .notEqual, .binary .lessEq,
    .binary .greaterEq, .binary .shl, .binary .shr, .binary .and, .binary .or, .doubleColon,
    .arrow] ++
  [CompoundOperator.add, .sub, .mul, .div, .mod, .bitAnd, .bitOr, .xor].map TokenKind.compound ++
  [BinaryOperator.add, .sub, .mul, .div, .mod, .less, .greater, .bitAnd, .bitOr, .xor].map
    TokenKind.binary ++
  [TokenKind.tilde, .bang, .assign, .leftParen, .rightParen, .leftBrace, .rightBrace, .comma,
    .semicolon, .colon, .question]

def signSpellings : List (List Char × TokenKind) := signs.map fun k => (k.text.toList, k)

def scanSign (cs : List Char) : Lexeme :=
  match signSpellings.find? (fun s => s.1.isPrefixOf cs) with
  | some (spelling, kind) => .token kind spelling.length
  | none => .unexpected 1

-- `cs` starts with a digit.
def scanNumber (cs : List Char) : Lexeme :=
  let digits := digitsLength cs
  match cs.drop digits with
  | '.' :: c :: rest =>
      if c.isDigit then
        let length := digits + 1 + digitsLength (c :: rest)
        match cs.drop length with
        | 'f' :: _ | 'F' :: _ => .token (.literal .float) (length + 1)
        | _ => .token (.literal .double) length
      else .token (.literal .int) digits
  | 'f' :: _ | 'F' :: _ => .token (.literal .float) (digits + 1)
  | 'l' :: _ | 'L' :: _ => .token (.literal .long) (digits + 1)
  | 'b' :: _ =>
      if cs.take digits = ['0'] || cs.take digits = ['1'] then .token (.literal .bit) 2
      else .token (.literal .int) digits
  | x :: rest =>
      let hex := (rest.takeWhile isHexDigit).length
      if (x = 'x' || x = 'X') && cs.take digits = ['0'] && hex ≠ 0 then
        .token (.literal .int) (2 + hex)
      else .token (.literal .int) digits
  | [] => .token (.literal .int) digits

-- `rest` follows an opening quote.
def scanChar (rest : List Char) : Lexeme :=
  match rest with
  | '\\' :: c :: '\'' :: _ => if c = '\n' then .unexpected 1 else .token (.literal .char) 4
  | c :: '\'' :: _ =>
      if c = '\'' || c = '\\' then .unexpected 1 else .token (.literal .char) 3
  | _ => .unexpected 1

-- `rest` follows an opening quote.
def scanString (rest : List Char) : Lexeme :=
  let length := stringLength rest
  if (rest.drop length).head? = some '"' then .token (.literal .string) (length + 2)
  else .unexpected (length + 1)

-- The longest lexeme at the head of `c :: rest`.
def Lexeme.scan (c : Char) (rest : List Char) : Lexeme :=
  if isBlank c then .blank (1 + (rest.takeWhile isBlank).length)
  else if isWordStart c then
    let length := 1 + wordLength rest
    .token (wordKind (String.ofList ((c :: rest).take length))) length
  else if c.isDigit then scanNumber (c :: rest)
  else if c = '\'' then scanChar rest
  else if c = '"' then scanString rest
  else match c, rest with
    | '/', '/' :: comment => .blank (2 + (comment.takeWhile (· ≠ '\n')).length)
    | '/', '*' :: comment =>
        match commentLength comment with
        | some length => .blank (2 + length)
        | none => .unterminatedComment
    | _, _ => scanSign (c :: rest)

end MiLanguage
