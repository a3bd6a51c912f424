import MiLanguage.Declaration
import MiLanguage.Text.Dotted

set_option autoImplicit false

namespace MiLanguage

/-- What a module declares, besides the modules inside it. -/
structure Members where
  functions : FunctionTable := .empty
  globals : SymbolTable Variable := .empty
  classes : SymbolTable ClassDeclaration := .empty
  enums : SymbolTable EnumDeclaration := .empty

structure Module where
  name : String
  parent : Option ModuleId
  children : SymbolTable ModuleId := .empty
  members : Members := {}

instance : Inhabited Module := ⟨{ name := "", parent := none }⟩

-- Functions are overloaded; anything else has its name to itself.
def Module.nameTaken (m : Module) (name : String) : Bool :=
  m.members.globals.contains name || m.members.classes.contains name ||
    m.members.enums.contains name || m.children.contains name

/-- All modules, the root first. A module's id is its place in the list. -/
structure ModuleTree where
  modules : List Module

namespace ModuleTree

def empty : ModuleTree := ⟨[{ name := "", parent := none }]⟩

def root : ModuleId := ⟨0⟩

def size (t : ModuleTree) : Nat := t.modules.length

def get (t : ModuleTree) (id : ModuleId) : Module := (t.modules[id.index]?).getD default

def child? (t : ModuleTree) (parent : ModuleId) (name : String) : Option ModuleId :=
  (t.get parent).children.find? name

def modify (t : ModuleTree) (id : ModuleId) (f : Module → Module) : ModuleTree :=
  ⟨t.modules.modify id.index f⟩

def modifyMembers (t : ModuleTree) (id : ModuleId) (f : Members → Members) : ModuleTree :=
  t.modify id fun m => { m with members := f m.members }

-- The child of that name, made if there is none yet: to open a module again adds to it.
def addChild (t : ModuleTree) (parent : ModuleId) (name : String) : ModuleId × ModuleTree :=
  match t.child? parent name with
  | some id => (id, t)
  | none =>
      let id : ModuleId := ⟨t.size⟩
      let t : ModuleTree := ⟨t.modules ++ [{ name, parent := some parent }]⟩
      (id, t.modify parent fun m => { m with children := m.children.insert name id })

-- A parent comes before its children, so no chain of parents is longer than its first id.
def chain (t : ModuleTree) : Nat → ModuleId → List ModuleId
  | 0, id => [id]
  | bound + 1, id =>
      id :: match (t.get id).parent with
        | some parent => t.chain bound parent
        | none => []

-- The module and those around it, out to the root.
def ancestors (t : ModuleTree) (id : ModuleId) : List ModuleId := t.chain id.index id

def isWithin (t : ModuleTree) (id ancestor : ModuleId) : Bool := (t.ancestors id).contains ancestor

-- The names on the way from the root, without the root itself.
def pathSegments (t : ModuleTree) (id : ModuleId) : List String :=
  ((t.ancestors id).filter (· ≠ root)).reverse.map fun m => (t.get m).name

def path (t : ModuleTree) (id : ModuleId) : String := joinSegments (t.pathSegments id)

-- The full name of `name` in the module; the root adds nothing.
def qualify (t : ModuleTree) (id : ModuleId) (name : String) : String :=
  let path := t.path id
  if path = "" then name else s!"{path}.{name}"

def descend (t : ModuleTree) (start : ModuleId) (path : String) : Option ModuleId :=
  (segments path).foldlM t.child? start

-- Looks for a path from a module and, failing that, from the ones around it in turn.
def resolvePath (t : ModuleTree) (start : ModuleId) (path : String) : Option ModuleId :=
  (t.ancestors start).findSome? fun m => t.descend m path

-- How messages name a module.
def describe (t : ModuleTree) (id : ModuleId) : String :=
  let path := t.path id
  if path = "" then "<root>" else path

def overloads (t : ModuleTree) (id : ModuleId) (name : String) : List FunctionDefinition :=
  (t.get id).members.functions.overloads name

def qualifyFunction (t : ModuleTree) (f : FunctionDefinition) : String :=
  match f.owner with
  | .module id => t.qualify id f.name
  | .inClass id name =>
      let owner := t.qualify id name
      s!"{owner}.{f.name}"

def addFunction? (t : ModuleTree) (id : ModuleId) (f : FunctionDefinition) : Option ModuleTree :=
  ((t.get id).members.functions.add? f).map fun functions =>
    t.modifyMembers id fun m => { m with functions }

def insertVariable (t : ModuleTree) (id : ModuleId) (v : Variable) : ModuleTree :=
  t.modifyMembers id fun m => { m with globals := m.globals.insert v.name v }

def insertClass (t : ModuleTree) (id : ModuleId) (c : ClassDeclaration) : ModuleTree :=
  t.modifyMembers id fun m => { m with classes := m.classes.insert c.name c }

def insertEnum (t : ModuleTree) (id : ModuleId) (e : EnumDeclaration) : ModuleTree :=
  t.modifyMembers id fun m => { m with enums := m.enums.insert e.name e }

def modifyVariable (t : ModuleTree) (id : ModuleId) (name : String) (f : Variable → Variable) :
    ModuleTree :=
  t.modifyMembers id fun m => { m with globals := m.globals.modify name f }

def modifyClass (t : ModuleTree) (id : ModuleId) (name : String)
    (f : ClassDeclaration → ClassDeclaration) : ModuleTree :=
  t.modifyMembers id fun m => { m with classes := m.classes.modify name f }

def modifyFunction (t : ModuleTree) (id : ModuleId) (name : String) (types : List Datatype)
    (f : FunctionDefinition → FunctionDefinition) : ModuleTree :=
  t.modifyMembers id fun m => { m with functions := m.functions.modify name types f }

@[simp] theorem size_modify (t : ModuleTree) (id : ModuleId) (f : Module → Module) :
    (t.modify id f).size = t.size := by simp [modify, size]

@[simp] theorem size_modifyMembers (t : ModuleTree) (id : ModuleId) (f : Members → Members) :
    (t.modifyMembers id f).size = t.size := by simp [modifyMembers]

theorem get_modify (t : ModuleTree) (id other : ModuleId) (f : Module → Module)
    (h : id.index < t.size) :
    (t.modify id f).get other = if other = id then f (t.get id) else t.get other := by
  unfold size at h
  by_cases e : other = id
  · subst e
    simp [get, modify, h]
  · have : ¬id.index = other.index := fun q => e (by cases other; cases id; simp_all)
    simp [get, modify, this, e]

end ModuleTree

end MiLanguage
