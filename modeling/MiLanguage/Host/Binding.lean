import MiLanguage.Host.Class

set_option autoImplicit false

namespace MiLanguage

/-- A native function's host method. -/
structure NativeBinding where
  className : String
  method : HostMethod
  deriving DecidableEq, Repr

inductive BindError where
  | nonPrimitiveParameter (index : Nat) (type : Datatype)
  | nonPrimitiveReturn (type : Datatype)
  | classNotFound (className : String)
  | methodNotFound (className signature : String)
  | unboxedParameter (className method boxed : String)
  | nullableParameterMarkedNonnull (index : Nat)
  | returnTypeMismatch (expected found : HostType)
  | returnMustBeNullable
  | notCallable (method : String)
  | notStatic (method : String)
  deriving DecidableEq, Repr

namespace BindError

def message : BindError → String
  | nonPrimitiveParameter index type =>
      "Only primitive datatypes may be used as native function arguments, but parameter " ++
        s!"#{index} is '{type.text}'"
  | nonPrimitiveReturn type =>
      s!"Only primitive datatypes may be returned from native functions, but got '{type.text}'"
  | classNotFound className => s!"Cannot find native class '{className}'"
  | methodNotFound className signature =>
      s!"Cannot find native method '{signature}' in class '{className}'"
  | unboxedParameter className method _ =>
      s!"Native method '{method}' in class '{className}' takes unboxed parameters"
  | nullableParameterMarkedNonnull index =>
      s!"Parameter #{index} of native function is nullable, but the host method marks it nonnull"
  | returnTypeMismatch expected found =>
      s!"Native method returns '{found.text}', but the function declares '{expected.text}'"
  | returnMustBeNullable =>
      "Return type of native function must be nullable, since the host method does not mark its " ++
        "result nonnull"
  | notCallable method =>
      s!"May only use native methods annotated as callable, but '{method}' is not"
  | notStatic method => s!"Native methods must be static, but '{method}' is not"

def hints : BindError → List String
  | unboxedParameter _ _ boxed => [s!"Use the boxed parameter form instead: {boxed}"]
  | returnMustBeNullable =>
      ["Add the 'nullable' modifier to the function, or mark the host result nonnull"]
  | notCallable _ => ["Annotate the host method as callable"]
  | _ => []

end BindError

namespace NativeBinding

def isPrimitive (t : Datatype) : Bool := t.primitive?.isSome

-- The place, counted from one, of the first element that `p` holds of.
def firstIndex {α : Type} (p : α → Bool) (xs : List α) : Option (Nat × α) :=
  (xs.zipIdx 1).findSome? fun (x, i) => if p x then some (i, x) else none

-- The parameters would match if the host boxed some of them.
def unboxedTwin (m : HostMethod) (types : List HostType) : Bool :=
  m.params.length = types.length &&
    (m.paramTypes.zip types).all fun (found, wanted) =>
      match found, wanted with
      | .unboxed a, .boxed b => a = b
      | a, b => a = b

def findMethod (c : HostClass) (className function : String) (types : List HostType) :
    Except BindError HostMethod :=
  match c.method? function types with
  | some m => .ok m
  | none =>
      let wanted := s!"{function}({HostType.listText types})"
      match c.methods.find? fun m => m.name = function && unboxedTwin m types with
      | some m => .error (.unboxedParameter className m.signature wanted)
      | none => .error (.methodNotFound className wanted)

-- Binds a native declaration. The first condition that fails is the one reported.
def bind (host : Host) (className function : String) (params : List Datatype)
    (returns : Datatype) : Except BindError NativeBinding := do
  if let some (i, t) := firstIndex (fun t => !isPrimitive t || t.isVoid) params then
    throw (.nonPrimitiveParameter i t)
  unless isPrimitive returns do throw (.nonPrimitiveReturn returns)
  let some c := host.find? className | throw (.classNotFound className)
  let m ← findMethod c className function (params.map HostType.expected)
  let clash := fun (t, p) => Datatype.nullable t && HostParam.nonnull p
  if let some (i, _) := firstIndex clash (params.zip m.params) then
    throw (.nullableParameterMarkedNonnull i)
  unless m.returns = HostType.expected returns do
    throw (.returnTypeMismatch (HostType.expected returns) m.returns)
  unless returns.isVoid || returns.nullable || m.returnsNonnull do throw .returnMustBeNullable
  unless m.callable do throw (.notCallable m.signature)
  unless m.isStatic do throw (.notStatic m.signature)
  return ⟨className, m⟩

end NativeBinding

end MiLanguage
