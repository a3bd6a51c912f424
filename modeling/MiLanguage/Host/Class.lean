import MiLanguage.Datatype.Basic
import MiLanguage.Decimal.Text
import MiLanguage.SymbolTable
import MiLanguage.Text.Json
import MiLanguage.Text.Position

set_option autoImplicit false

namespace MiLanguage

/-- A value handed to the host or back. Floating point values are given by their bits. -/
inductive HostValue where
  | int (v : Int32)
  | long (v : Int64)
  | double (bits : UInt64)
  | float (bits : UInt32)
  | bool (b : Bool)
  | char (c : Char)
  | string (s : String)
  | null
  deriving DecidableEq

namespace HostValue

def type : HostValue → Datatype
  | int _ => .int
  | long _ => .long
  | double _ => .double
  | float _ => .float
  | bool _ => .bool
  | char _ => .char
  | string _ => .string
  | null => .null

-- The whole number behind an int, a long or a char.
def integer? : HostValue → Option Int
  | int v => some v.toInt
  | long v => some v.toInt
  | char c => some c.toNat
  | _ => none

def string? : HostValue → Option String
  | string s => some s
  | _ => none

def text : HostValue → String
  | int v => toString v.toInt
  | long v => toString v.toInt
  | double bits => (BinaryFormat.double.decode bits.toNat).text .double
  | float bits => (BinaryFormat.single.decode bits.toNat).text .single
  | bool b => if b then "true" else "false"
  | char c => String.singleton c
  | string s => s
  | null => "null"

-- The value in JSON, which has no bits of a floating point value to offer.
def json? : HostValue → Option String
  | double _ | float _ => none
  | char c => some (Json.quote (String.singleton c))
  | string s => some (Json.quote s)
  | v => some v.text

end HostValue

inductive ColorLayer where
  | foreground | background
  deriving DecidableEq, Repr

/-- What a host method does when it is called. -/
inductive HostAction where
  | print (newline : Bool)
  | sleep
  | randomLong
  | colorChannels (layer : ColorLayer)
  | colorHex (layer : ColorLayer)
  | resetStyle
  | inert
  deriving DecidableEq, Repr

inductive HostResult where
  | nothing
  | value (v : HostValue)
  -- Some long that is not known beforehand.
  | anyLong
  deriving DecidableEq

structure HostEffect where
  printed : String := ""
  result : HostResult := .nothing
  deriving DecidableEq

structure Color where
  red : Nat
  green : Nat
  blue : Nat
  deriving DecidableEq, Repr

namespace Color

def layerCode : ColorLayer → Nat
  | .foreground => 38
  | .background => 48

def escape (layer : ColorLayer) (c : Color) : String :=
  let code := layerCode layer
  s!"\x1b[{code};2;{c.red};{c.green};{c.blue}m"

-- The integer at `i`, or zero, brought into the range of a byte.
def channel (args : List HostValue) (i : Nat) : Nat :=
  min 255 (((args[i]?).bind HostValue.integer?).getD 0).toNat

def ofChannels (args : List HostValue) : Color := ⟨channel args 0, channel args 1, channel args 2⟩

-- A byte in hexadecimal: digits, which a plus sign may come before.
def byte? (text : List Char) : Option Nat :=
  let digits := if text.head? = some '+' then text.tail else text
  if !digits.isEmpty && digits.all isHexDigit && digitsValue 16 digits < 256 then
    some (digitsValue 16 digits)
  else none

-- Six bytes, each of them a character.
def Sliceable (text : List Char) : Prop := utf8Length text = 6 ∧ ∀ d ∈ text, d.toNat < 128

instance (text : List Char) : Decidable (Sliceable text) :=
  decidable_of_iff (utf8Length text = 6 && text.all (·.toNat < 128)) (by simp [Sliceable])

-- Behind any number of `#` only what may be sliced anywhere is, two bytes for each channel.
def ofHex? (s : String) : Option Color :=
  let body := s.toList.dropWhile (· = '#')
  let part start := byte? ((body.drop start).take 2)
  if Sliceable body then do some ⟨← part 0, ← part 2, ← part 4⟩ else none

end Color

namespace HostAction

def run (action : HostAction) (args : List HostValue) : HostEffect :=
  match action with
  | print newline =>
      let text := (args.head?.map HostValue.text).getD ""
      { printed := if newline then text ++ "\n" else text }
  | randomLong => { result := .anyLong }
  | colorChannels layer => { result := .value (.string ((Color.ofChannels args).escape layer)) }
  | colorHex layer =>
      let color := (args.head?.bind HostValue.string?).bind Color.ofHex?
      { result := .value (.string ((color.map (Color.escape layer)).getD "")) }
  | resetStyle => { result := .value (.string "\x1b[0m") }
  | sleep | inert => {}

end HostAction

/-- A program passes primitive values in boxed form only. -/
inductive HostType where
  | boxed (p : Primitive)
  | unboxed (p : Primitive)
  | void
  | object
  deriving DecidableEq, Repr

namespace HostType

def text : HostType → String
  | boxed p =>
      match p.name.toList with
      | [] => ""
      | c :: cs => String.ofList (c.toUpper :: cs)
  | unboxed p => p.name
  | void => "void"
  | object => "Object"

def listText (types : List HostType) : String := ", ".intercalate (types.map text)

-- The form in which the host has to declare a value of type `t`.
def expected (t : Datatype) : HostType :=
  match t.primitive? with
  | some .void => void
  | some p => boxed p
  | none => object

end HostType

structure HostParam where
  type : HostType
  nonnull : Bool := false
  deriving DecidableEq, Repr

structure HostMethod where
  name : String
  params : List HostParam
  returns : HostType
  returnsNonnull : Bool := false
  isStatic : Bool := true
  callable : Bool := true
  action : HostAction := .inert
  deriving DecidableEq, Repr

def HostMethod.paramTypes (m : HostMethod) : List HostType := m.params.map HostParam.type

def HostMethod.signature (m : HostMethod) : String :=
  s!"{m.returns.text} {m.name}({HostType.listText m.paramTypes})"

structure HostClass where
  name : String
  methods : List HostMethod
  deriving DecidableEq, Repr

-- The first method of that name whose parameter types are exactly `types`.
def HostClass.method? (c : HostClass) (name : String) (types : List HostType) :
    Option HostMethod :=
  c.methods.find? fun m => m.name = name && m.paramTypes = types

/-- The classes that native functions can be bound to. -/
structure Host where
  classes : SymbolTable HostClass := .empty

namespace Host

def find? (h : Host) (name : String) : Option HostClass := h.classes.find? name

-- A class replaces an earlier one of its name.
def register (h : Host) (c : HostClass) : Host := ⟨h.classes.insert c.name c⟩

def ofClasses (classes : List HostClass) : Host := classes.foldl register {}

@[simp] theorem find?_register (h : Host) (c : HostClass) (name : String) :
    (h.register c).find? name = if name = c.name then some c else h.find? name := by
  simp [register, find?]

end Host

end MiLanguage
