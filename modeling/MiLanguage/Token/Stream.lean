import MiLanguage.Library
import MiLanguage.Text.Position
import MiLanguage.Token.Basic
import MiLanguage.Token.Lexeme

set_option autoImplicit false

namespace MiLanguage

/-- A text to be read on its own. `lineOffset` lines of other units come before it. -/
structure SourceUnit where
  text : String
  fileId : FileId := userFile
  lineOffset : Nat := 0

inductive LexicalFault where
  | unterminatedComment
  | unexpectedText (text : String)
  deriving DecidableEq, Repr

def LexicalFault.message : LexicalFault → String
  | unterminatedComment => "unterminated block comment"
  | unexpectedText text => s!"unexpected character '{text}'"

structure LexicalError where
  fault : LexicalFault
  span : Span
  deriving DecidableEq, Repr

def LexicalError.message (e : LexicalError) : String := "Syntax error: " ++ e.fault.message

namespace SourceUnit

def spanAt (unit : SourceUnit) (offset : Nat) (cs : List Char) : Span :=
  ⟨offset, offset + utf8Length cs, unit.fileId⟩

def tokenAt (unit : SourceUnit) (breaks : List Nat) (offset : Nat) (kind : TokenKind)
    (cs : List Char) : Token :=
  let position := locate offset 1 0 breaks
  { kind
    lexeme := String.ofList cs
    line := position.line
    column := position.column
    streamLine := position.line + unit.lineOffset
    span := unit.spanAt offset cs }

-- `taken` characters of the list belong to the lexeme read last and are passed over.
def tokensFrom (unit : SourceUnit) (breaks : List Nat) (offset taken : Nat) :
    List Char → Except LexicalError (List Token)
  | [] => .ok []
  | c :: cs =>
      match taken with
      | taken + 1 => unit.tokensFrom breaks (offset + c.utf8Size) taken cs
      | 0 =>
          match Lexeme.scan c cs with
          | .token kind length => do
              let later ← unit.tokensFrom breaks (offset + c.utf8Size) (length - 1) cs
              .ok (unit.tokenAt breaks offset kind ((c :: cs).take length) :: later)
          | .blank length => unit.tokensFrom breaks (offset + c.utf8Size) (length - 1) cs
          | .unterminatedComment =>
              .error ⟨.unterminatedComment, unit.spanAt offset ((c :: cs).take 2)⟩
          | .unexpected length =>
              let text := (c :: cs).take length
              .error ⟨.unexpectedText (String.ofList text), unit.spanAt offset text⟩

def tokens (unit : SourceUnit) : Except LexicalError (List Token) :=
  unit.tokensFrom (lineBreaks 0 unit.text.toList) 0 0 unit.text.toList

def library : SourceUnit := ⟨librarySource, libraryFile, 0⟩

-- The user's text, its lines counted on from the library's if that comes first.
def user (text : String) (withLibrary : Bool) : SourceUnit :=
  ⟨text, userFile, if withLibrary then lineCount librarySource else 0⟩

end SourceUnit

def libraryTokens : Except LexicalError (List Token) := SourceUnit.library.tokens

-- All tokens of a program: the standard library's, unless it is left out, then the user's.
def programTokens (text : String) (withLibrary : Bool) : Except LexicalError (List Token) := do
  let first ← if withLibrary then libraryTokens else .ok []
  let second ← (SourceUnit.user text withLibrary).tokens
  .ok (first ++ second)

-- Several units read one after another, up to the first error.
def unitTokens (units : List SourceUnit) : Except LexicalError (List Token) := do
  .ok (← units.mapM SourceUnit.tokens).flatten

end MiLanguage
