import MiLanguage.Decimal.Text

set_option autoImplicit false

namespace MiLanguage

/-- A value in a settings file. Of strings, floating point numbers and dates only the form
matters, because no setting takes one. -/
inductive Toml where
  | boolean (b : Bool)
  | integer (n : Int)
  | scalar
  | array (items : List Toml)
  | table (entries : List (List String × Toml))

/-- A line of a settings file, other than an empty one. -/
inductive TomlLine where
  | header (path : List String)
  | arrayHeader (path : List String)
  | entry (path : List String) (value : Toml)

namespace Toml

-- Arrays and tables may stand inside of each other this deep, and a key may have so many parts.
def maxDepth : Nat := 79

-- A reader takes its form off the head of a text, or fails.
abbrev Reader (α : Type) := List Char → Option (α × List Char)

def isSpace (c : Char) : Bool := c = ' ' || c = '\t'

def skipSpaces (cs : List Char) : List Char := cs.dropWhile isSpace

-- Control characters other than tab stand neither in comments nor in strings.
def isPlain (c : Char) : Bool := c = '\t' || (32 ≤ c.toNat && c.toNat ≠ 127)

def isBareKeyChar (c : Char) : Bool := c.isAlphanum || c = '_' || c = '-'

def skipComment (cs : List Char) : List Char :=
  match cs with
  | '#' :: cs => cs.dropWhile isPlain
  | cs => cs

-- Spaces and a comment, then the end of the line or of the text.
def endLine (cs : List Char) : Option (List Char) :=
  match skipComment (skipSpaces cs) with
  | [] => some []
  | '\n' :: cs | '\r' :: '\n' :: cs => some cs
  | _ => none

-- Spaces, comments and line ends, in any number. `bound` is at least the length of the text.
def skipLines (bound : Nat) (cs : List Char) : List Char :=
  match bound with
  | 0 => cs
  | bound + 1 =>
      match skipComment (skipSpaces cs) with
      | '\n' :: cs | '\r' :: '\n' :: cs => skipLines bound cs
      | cs => cs

def isScalarValue (n : Nat) : Bool := n < 0xd800 || (0xe000 ≤ n && n < 0x110000)

def unicodeEscape (count : Nat) : Reader Char := fun cs =>
  let digits := cs.take count
  let n := digitsValue 16 digits
  if digits.length = count && digits.all isHexDigit && isScalarValue n then
    some (Char.ofNat n, cs.drop count)
  else none

-- What follows a backslash.
def escape : Reader Char
  | 'b' :: cs => some ('\x08', cs)
  | 't' :: cs => some ('\t', cs)
  | 'n' :: cs => some ('\n', cs)
  | 'f' :: cs => some ('\x0c', cs)
  | 'r' :: cs => some ('\r', cs)
  | '"' :: cs => some ('"', cs)
  | '\\' :: cs => some ('\\', cs)
  | 'u' :: cs => unicodeEscape 4 cs
  | 'U' :: cs => unicodeEscape 8 cs
  | _ => none

-- The rest of a string on one line, the opening quote taken.
def stringBody (quote : Char) (bound : Nat) : Reader (List Char) := fun cs =>
  match bound, cs with
  | bound + 1, c :: cs =>
      if c = quote then some ([], cs)
      else if c = '\\' && quote = '"' then do
        let (c, cs) ← escape cs
        let (rest, cs) ← stringBody quote bound cs
        some (c :: rest, cs)
      else if isPlain c then do
        let (rest, cs) ← stringBody quote bound cs
        some (c :: rest, cs)
      else none
  | _, _ => none

-- A backslash at the end of a line takes the blanks and line ends behind it along.
def joinLines (bound : Nat) (cs : List Char) : Option (List Char) :=
  match skipSpaces cs with
  | '\n' :: cs | '\r' :: '\n' :: cs => some (skipBlanks bound cs)
  | _ => none
where
  skipBlanks : Nat → List Char → List Char
    | 0, cs => cs
    | bound + 1, cs =>
        match skipSpaces cs with
        | '\n' :: cs | '\r' :: '\n' :: cs => skipBlanks bound cs
        | cs => cs

-- The rest of a string of several lines. Two more quotes may stand right before the end.
def longStringBody (quote : Char) (bound : Nat) (cs : List Char) : Option (List Char) :=
  match bound, cs with
  | bound + 1, c :: cs =>
      if c = quote then
        let more := (cs.takeWhile (· = quote)).length
        if more < 2 then longStringBody quote bound cs
        else if more ≤ 4 then some (cs.drop more)
        else none
      else if c = '\\' && quote = '"' then
        match escape cs, joinLines cs.length cs with
        | some (_, cs), _ => longStringBody quote bound cs
        | none, some cs => longStringBody quote bound cs
        | none, none => none
      else if c = '\r' then
        if cs.head? = some '\n' then longStringBody quote bound cs else none
      else if c = '\n' || isPlain c then longStringBody quote bound cs
      else none
  | _, _ => none

-- A string as a value, of either kind.
def stringValue (quote : Char) (cs : List Char) : Option (List Char) :=
  match cs with
  | a :: b :: rest =>
      if a = quote && b = quote then longStringBody quote rest.length rest
      else (stringBody quote cs.length cs).map Prod.snd
  | cs => (stringBody quote cs.length cs).map Prod.snd

def simpleKey (cs : List Char) : Option (String × List Char) :=
  match cs with
  | '"' :: cs => (stringBody '"' cs.length cs).map fun (key, cs) => (String.ofList key, cs)
  | '\'' :: cs => (stringBody '\'' cs.length cs).map fun (key, cs) => (String.ofList key, cs)
  | cs =>
      match cs.takeWhile isBareKeyChar with
      | [] => none
      | key => some (String.ofList key, cs.dropWhile isBareKeyChar)

-- Keys with dots, and perhaps spaces, between them; spaces around the whole are taken too.
def keyParts (bound : Nat) (cs : List Char) : Option (List String × List Char) :=
  match bound with
  | 0 => none
  | bound + 1 => do
      let (first, cs) ← simpleKey (skipSpaces cs)
      match skipSpaces cs with
      | '.' :: cs => do
          let (others, cs) ← keyParts bound cs
          some (first :: others, cs)
      | cs => some ([first], cs)

def key (cs : List Char) : Option (List String × List Char) :=
  (keyParts cs.length cs).filter fun (path, _) => path.length ≤ maxDepth

-- Digits with single underscores between them.
def isDigits (isDigit : Char → Bool) : List Char → Bool
  | [] => false
  | [c] => isDigit c
  | c :: '_' :: cs => isDigit c && isDigits isDigit cs
  | c :: cs => isDigit c && isDigits isDigit cs

def withoutSign (cs : List Char) : List Char :=
  match cs with
  | '+' :: cs | '-' :: cs => cs
  | cs => cs

def isWhole (cs : List Char) : Bool :=
  isDigits Char.isDigit cs && (cs.length = 1 || cs.head? ≠ some '0')

def inBase (base : Nat) (cs : List Char) : Nat := digitsValue base (cs.filter (· ≠ '_'))

def integer? (cs : List Char) : Option Int :=
  let value? : Option Int := match cs with
    | '0' :: 'x' :: ds => if isDigits isHexDigit ds then some (inBase 16 ds) else none
    | '0' :: 'o' :: ds =>
        if isDigits (fun c => '0' ≤ c && c ≤ '7') ds then some (inBase 8 ds) else none
    | '0' :: 'b' :: ds =>
        if isDigits (fun c => c = '0' || c = '1') ds then some (inBase 2 ds) else none
    | cs =>
        let ds := withoutSign cs
        if !isWhole ds then none
        else if cs.head? = some '-' then some (-inBase 10 ds)
        else some (inBase 10 ds)
  value?.filter fun n => Int64.minValue.toInt ≤ n && n ≤ Int64.maxValue.toInt

def isExponent (cs : List Char) : Bool := isDigits Char.isDigit (withoutSign cs)

-- Digits with a fraction, an exponent or both.
def isFractional (cs : List Char) : Bool :=
  let isE := fun (c : Char) => c = 'e' || c = 'E'
  let number := cs.takeWhile (!isE ·)
  let exponent := cs.dropWhile (!isE ·)
  let whole := number.takeWhile (· ≠ '.')
  let fraction := number.dropWhile (· ≠ '.')
  isWhole whole && (fraction.isEmpty || isDigits Char.isDigit fraction.tail) &&
    (exponent.isEmpty || isExponent exponent.tail) && !(fraction.isEmpty && exponent.isEmpty)

-- Infinity has to be written as such. A negative number may be too large nevertheless.
def isFloat (cs : List Char) : Bool :=
  let magnitude := withoutSign cs
  if magnitude = "inf".toList || magnitude = "nan".toList then true
  else
    isFractional magnitude &&
      BinaryFormat.double.read (String.ofList (cs.filter (· ≠ '_'))) ≠
        some BinaryFormat.double.infinityBits

-- Exactly `count` digits, as a number.
def digits? (count : Nat) (cs : List Char) : Option (Nat × List Char) :=
  let ds := cs.take count
  if ds.length = count && ds.all Char.isDigit then some (digitsValue 10 ds, cs.drop count) else none

def char? (c : Char) (cs : List Char) : Option (List Char) :=
  if cs.head? = some c then some cs.tail else none

def daysInMonth (year month : Nat) : Nat :=
  if month = 2 then
    if year % 4 = 0 && (year % 100 ≠ 0 || year % 400 = 0) then 29 else 28
  else if month = 4 || month = 6 || month = 9 || month = 11 then 30
  else 31

def date? (cs : List Char) : Option (List Char) := do
  let (year, cs) ← digits? 4 cs
  let (month, cs) ← digits? 2 (← char? '-' cs)
  let (day, cs) ← digits? 2 (← char? '-' cs)
  if 1 ≤ month && month ≤ 12 && 1 ≤ day && day ≤ daysInMonth year month then some cs else none

def time? (cs : List Char) : Option (List Char) := do
  let (hour, cs) ← digits? 2 cs
  let (minute, cs) ← digits? 2 (← char? ':' cs)
  let (second, cs) ← digits? 2 (← char? ':' cs)
  if 24 ≤ hour || 60 ≤ minute || 61 ≤ second then none
  else match cs with
    | '.' :: c :: cs => if c.isDigit then some (cs.dropWhile Char.isDigit) else none
    | cs => some cs

def isOffset (cs : List Char) : Bool :=
  match cs with
  | [] => true
  | ['Z'] | ['z'] => true
  | c :: cs =>
      (c = '+' || c = '-') && ((do
        let (hour, cs) ← digits? 2 cs
        let (minute, cs) ← digits? 2 (← char? ':' cs)
        some (hour < 24 && minute < 60 && cs.isEmpty) : Option Bool).getD false)

def isDateTime (cs : List Char) : Bool :=
  match date? cs with
  | some [] => true
  | some (c :: cs) =>
      (c = 'T' || c = 't' || c = ' ') && (time? cs).any isOffset
  | none => (time? cs).any List.isEmpty

def isScalarChar (c : Char) : Bool :=
  c.isAlphanum || c = '+' || c = '-' || c = '_' || c = '.' || c = ':'

-- A date takes a time along that only a space keeps apart.
def scalarText (cs : List Char) : List Char × List Char :=
  let text := cs.takeWhile isScalarChar
  let rest := cs.dropWhile isScalarChar
  match rest with
  | ' ' :: c :: _ =>
      if date? text = some [] && c.isDigit then
        (text ++ ' ' :: (rest.tail.takeWhile isScalarChar), rest.tail.dropWhile isScalarChar)
      else (text, rest)
  | _ => (text, rest)

def scalar? (cs : List Char) : Option Toml :=
  if cs = "true".toList then some (.boolean true)
  else if cs = "false".toList then some (.boolean false)
  else match integer? cs with
    | some n => some (.integer n)
    | none => if isFloat cs || isDateTime cs then some .scalar else none

-- No key may be given twice, nor a key inside of one that has a value.
def pathsApart (entries : List (List String × Toml)) : Bool :=
  go (entries.map Prod.fst)
where
  go : List (List String) → Bool
    | [] => true
    | path :: paths =>
        paths.all (fun other => !path.isPrefixOf other && !other.isPrefixOf path) && go paths

mutual

-- A value. `bound` is at least the length of the text, and `room` is the number of arrays and
-- tables that may still open inside of each other.
def value (bound room : Nat) (cs : List Char) : Option (Toml × List Char) :=
  match bound with
  | 0 => none
  | bound + 1 =>
      match cs with
      | '"' :: cs => (stringValue '"' cs).map fun cs => (.scalar, cs)
      | '\'' :: cs => (stringValue '\'' cs).map fun cs => (.scalar, cs)
      | '[' :: cs =>
          if room = 0 then none
          else (items bound (room - 1) cs).map fun (items, cs) => (.array items, cs)
      | '{' :: cs =>
          if room = 0 then none
          else match skipSpaces cs with
            | '}' :: cs => some (.table [], cs)
            | cs => do
                let (entries, cs) ← entries bound (room - 1) cs
                if pathsApart entries then some (.table entries, cs) else none
      | cs =>
          let (text, rest) := scalarText cs
          (scalar? text).map fun v => (v, rest)

-- The items of an array and its closing bracket.
def items (bound room : Nat) (cs : List Char) : Option (List Toml × List Char) :=
  match bound with
  | 0 => none
  | bound + 1 =>
      match skipLines cs.length cs with
      | ']' :: cs => some ([], cs)
      | cs => do
          let (first, cs) ← value bound room cs
          match skipLines cs.length cs with
          | ',' :: cs => do
              let (others, cs) ← items bound room cs
              some (first :: others, cs)
          | ']' :: cs => some ([first], cs)
          | _ => none

-- The entries of a table on one line and its closing brace.
def entries (bound room : Nat) (cs : List Char) : Option (List (List String × Toml) × List Char) :=
  match bound with
  | 0 => none
  | bound + 1 => do
      let (path, cs) ← key cs
      let (v, cs) ← value bound room (skipSpaces (← char? '=' cs))
      match skipSpaces cs with
      | ',' :: cs => do
          let (others, cs) ← entries bound room cs
          some ((path, v) :: others, cs)
      | '}' :: cs => some ([(path, v)], cs)
      | _ => none

end

-- A line that is not empty, without what ends it.
def line (cs : List Char) : Option (TomlLine × List Char) :=
  match cs with
  | '[' :: '[' :: cs => do
      let (path, cs) ← key cs
      let cs ← char? ']' (← char? ']' cs)
      some (.arrayHeader path, cs)
  | '[' :: cs => do
      let (path, cs) ← key cs
      some (.header path, ← char? ']' cs)
  | cs => do
      let (path, cs) ← key cs
      let (v, cs) ← value cs.length maxDepth (skipSpaces (← char? '=' cs))
      some (.entry path v, cs)

def linesFrom (bound : Nat) (cs : List Char) : Option (List TomlLine) :=
  match bound with
  | 0 => if cs.isEmpty then some [] else none
  | bound + 1 =>
      match skipLines cs.length cs with
      | [] => some []
      | cs => do
          let (first, cs) ← line cs
          let others ← linesFrom bound (← endLine cs)
          some (first :: others)

-- The lines of a settings file. A byte order mark in front is no part of it.
def read (text : String) : Option (List TomlLine) :=
  let cs := match text.toList with
    | '\ufeff' :: cs => cs
    | cs => cs
  linesFrom cs.length cs

end Toml

end MiLanguage
