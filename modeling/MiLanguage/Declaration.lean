import MiLanguage.Host.Binding
import MiLanguage.Node.Basic
import MiLanguage.SymbolTable

set_option autoImplicit false

namespace MiLanguage

structure ModuleId where
  index : Nat
  deriving DecidableEq, Repr

/-- The module and the file of a declaration, which `priv` and `own` restrict its use to. -/
structure Origin where
  module : ModuleId
  fileId : FileId
  deriving DecidableEq, Repr

structure Variable where
  name : String
  type : Datatype
  modifiers : Modifiers
  origin : Origin
  initialized : Bool
  -- The initial value of a global or a field.
  value : Option Node := none

-- A plain `=` may store into a variable with these modifiers.
def Modifiers.canAssign (ms : Modifiers) (initialized : Bool) : Bool :=
  !ms.isConst && (ms.isMutable || !initialized)

def Variable.canAssign (v : Variable) : Bool := v.modifiers.canAssign v.initialized

structure FunctionParameter where
  type : Datatype
  name : String
  modifiers : Modifiers

inductive FunctionBody where
  -- Declared, with a body that has not been read yet.
  | pending
  | tree (node : Node)
  | native (binding : NativeBinding)

inductive Owner where
  | module (id : ModuleId)
  | inClass (id : ModuleId) (name : String)
  deriving DecidableEq, Repr

def Owner.moduleId : Owner → ModuleId
  | module id => id
  | inClass id _ => id

structure FunctionDefinition where
  name : String
  returnType : Datatype
  parameters : List FunctionParameter
  modifiers : Modifiers
  owner : Owner
  fileId : FileId
  line : Nat
  body : FunctionBody

namespace FunctionDefinition

def paramTypes (f : FunctionDefinition) : List Datatype := f.parameters.map FunctionParameter.type

def sameSignature (f g : FunctionDefinition) : Bool :=
  f.name = g.name && f.paramTypes = g.paramTypes

def isNative (f : FunctionDefinition) : Bool :=
  match f.body with
  | .native _ => true
  | _ => false

def origin (f : FunctionDefinition) : Origin := ⟨f.owner.moduleId, f.fileId⟩

end FunctionDefinition

/-- The functions of a module or a class: the overloads of each name in the order in which they
were declared. -/
structure FunctionTable where
  table : SymbolTable (List FunctionDefinition) := .empty

namespace FunctionTable

def empty : FunctionTable := {}

def overloads (t : FunctionTable) (name : String) : List FunctionDefinition :=
  (t.table.find? name).getD []

-- Refused if the name already has an overload with the same parameter types.
def add? (t : FunctionTable) (f : FunctionDefinition) : Option FunctionTable :=
  if (t.overloads f.name).any (·.sameSignature f) then none
  else some ⟨t.table.insert f.name (t.overloads f.name ++ [f])⟩

def find? (t : FunctionTable) (name : String) (types : List Datatype) :
    Option FunctionDefinition :=
  (t.overloads name).find? (·.paramTypes = types)

-- Changes the first definition that `p` holds of.
def modifyFirst (p : FunctionDefinition → Bool) (g : FunctionDefinition → FunctionDefinition) :
    List FunctionDefinition → List FunctionDefinition
  | [] => []
  | f :: fs => if p f then g f :: fs else f :: modifyFirst p g fs

def modify (t : FunctionTable) (name : String) (types : List Datatype)
    (g : FunctionDefinition → FunctionDefinition) : FunctionTable :=
  ⟨t.table.modify name (modifyFirst (·.paramTypes = types) g)⟩

@[simp] theorem overloads_empty (name : String) : empty.overloads name = [] := rfl

theorem overloads_add? {t t' : FunctionTable} {f : FunctionDefinition}
    (h : t.add? f = some t') (name : String) :
    t'.overloads name = t.overloads name ++ if name = f.name then [f] else [] := by
  unfold add? at h
  split at h
  · cases h
  · cases h
    by_cases e : name = f.name <;> simp [overloads, e]

end FunctionTable

structure EnumDeclaration where
  name : String
  members : List String := []
  modifiers : Modifiers
  origin : Origin

def EnumDeclaration.hasMember (e : EnumDeclaration) (name : String) : Bool :=
  e.members.contains name

-- Refused if the enum has a member of that name.
def EnumDeclaration.addMember? (e : EnumDeclaration) (name : String) : Option EnumDeclaration :=
  if e.hasMember name then none else some { e with members := e.members ++ [name] }

structure ClassDeclaration where
  name : String
  fields : SymbolTable Variable := .empty
  methods : FunctionTable := .empty
  constructor : Option FunctionDefinition := none
  modifiers : Modifiers
  origin : Origin

end MiLanguage
