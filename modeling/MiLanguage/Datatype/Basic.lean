import MiLanguage.Operator

set_option autoImplicit false

namespace MiLanguage

inductive Primitive where
  | int | long | double | float | bool | char | string | void
  deriving DecidableEq, Repr

namespace Primitive

def name : Primitive → String
  | int => "int"
  | long => "long"
  | double => "double"
  | float => "float"
  | bool => "bool"
  | char => "char"
  | string => "string"
  | void => "void"

-- A number is promoted to a type of larger rank only.
def rank : Primitive → Option Nat
  | char => some 0
  | int => some 1
  | long => some 2
  | float => some 3
  | double => some 4
  | _ => none

end Primitive

inductive BaseType where
  | primitive (p : Primitive)
  -- An enum or a class, by its qualified name.
  | named (name : String)
  deriving DecidableEq, Repr

/-- `null` is the type of the literal of that name; every other type is nullable or not. -/
inductive Datatype where
  | null
  | of (base : BaseType) (nullable : Bool)
  deriving DecidableEq, Repr

namespace Datatype

instance : Inhabited Datatype := ⟨.null⟩

def primitive (p : Primitive) : Datatype := .of (.primitive p) false
def named (name : String) : Datatype := .of (.named name) false

abbrev int : Datatype := primitive .int
abbrev long : Datatype := primitive .long
abbrev double : Datatype := primitive .double
abbrev float : Datatype := primitive .float
abbrev bool : Datatype := primitive .bool
abbrev char : Datatype := primitive .char
abbrev string : Datatype := primitive .string
abbrev void : Datatype := primitive .void

def nullable : Datatype → Bool
  | null => true
  | of _ n => n

def withNullable : Datatype → Bool → Datatype
  | null, _ => null
  | of base _, n => of base n

def primitive? : Datatype → Option Primitive
  | of (.primitive p) _ => some p
  | _ => none

def rank (t : Datatype) : Option Nat := t.primitive?.bind Primitive.rank

def isNull (t : Datatype) : Bool := t = null
def isVoid (t : Datatype) : Bool := t.primitive? = some .void
def isBool (t : Datatype) : Bool := t.primitive? = some .bool
def isString (t : Datatype) : Bool := t.primitive? = some .string
def isNumeric (t : Datatype) : Bool := t.rank.isSome

-- Only a `bool` that is not nullable decides a branch.
def isCondition (t : Datatype) : Bool := t.isBool && !t.nullable

-- The numbers that unary `-` takes.
def isSigned (t : Datatype) : Bool :=
  match t.primitive? with
  | some .int | some .long | some .double | some .float => true
  | _ => false

def isIntegral (t : Datatype) : Bool :=
  match t.primitive? with
  | some .int | some .long | some .char => true
  | _ => false

def baseName : Datatype → String
  | null => "null"
  | of (.primitive p) _ => p.name
  | of (.named name) _ => name

def text : Datatype → String
  | null => "null"
  | of base true => "nullable " ++ (of base true).baseName
  | of base false => (of base false).baseName

def listText (types : List Datatype) : String := ", ".intercalate (types.map text)

-- The same base type; `null` counts as any nullable type.
def sameBase : Datatype → Datatype → Bool
  | null, b => b.nullable
  | a, null => a.nullable
  | of a _, of b _ => a = b

def promotable (a b : Datatype) : Bool :=
  match a.rank, b.rank with
  | some low, some high => low < high
  | _, _ => false

-- A value of type `a` may be stored where `b` is declared.
def assignable (a b : Datatype) : Bool :=
  match a, b with
  | null, b => b.nullable
  | _, null => false
  | of x m, of y n => (!m || n) && (x = y || (of x m).promotable (of y n))

-- The same base type, with nullability at most added. Nothing is promoted.
def fits (a b : Datatype) : Bool :=
  match a, b with
  | null, b => b.nullable
  | _, null => false
  | of x m, of y n => x = y && (n || !m)

-- The same type, or `null` where it may stand.
def exact (a b : Datatype) : Bool :=
  match a with
  | null => b.nullable
  | a => a = b

@[simp] theorem nullable_withNullable_of (base : BaseType) (m n : Bool) :
    ((of base m).withNullable n).nullable = n := rfl

@[simp] theorem withNullable_nullable (t : Datatype) : t.withNullable t.nullable = t := by
  cases t <;> rfl

@[simp] theorem primitive?_withNullable (t : Datatype) (n : Bool) :
    (t.withNullable n).primitive? = t.primitive? := by
  cases t with
  | null => rfl
  | of base _ => cases base <;> rfl

theorem exact_eq (a b : Datatype) (h : a ≠ null) : a.exact b = decide (a = b) := by
  cases a with
  | null => exact absurd rfl h
  | of => rfl

end Datatype

namespace Datatype

-- The number type of larger rank, nullable as soon as one side is.
def heavier (a b : Datatype) : Option Datatype :=
  match a.rank, b.rank with
  | some ra, some rb => some ((if rb ≤ ra then a else b).withNullable (a.nullable || b.nullable))
  | _, _ => none

-- A string may be joined with any primitive value, but not with an enum, a class or `null`.
def isJoinable (t : Datatype) : Bool :=
  match t.primitive? with
  | some .void | none => false
  | some _ => true

-- The type of `a op b`, if the operator is defined there.
def binaryResult (op : BinaryOperator) (a b : Datatype) : Option Datatype :=
  match op.operatorClass with
  | .arithmetic =>
      if op = .add && (a.isString || b.isString) then
        if (if a.isString then b else a).isJoinable then some string else none
      else heavier a b
  | .shift => if a.isIntegral && b.isIntegral then heavier a b else none
  | .bitwise =>
      if a.isIntegral && b.isIntegral then heavier a b
      else if a.isBool && b.isBool then some (bool.withNullable (a.nullable || b.nullable))
      else none
  | .relational => if a.isNumeric && b.isNumeric then some bool else none
  | .equality =>
      if a.sameBase b || (a.isNumeric && b.isNumeric) then some bool else none
  | .logical => if a.isBool && b.isBool then some bool else none

theorem heavier_isSome_iff (a b : Datatype) :
    (heavier a b).isSome ↔ a.isNumeric = true ∧ b.isNumeric = true := by
  unfold heavier isNumeric
  cases a.rank <;> cases b.rank <;> simp

end Datatype

end MiLanguage
