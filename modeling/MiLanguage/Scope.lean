import MiLanguage.ModuleTree

set_option autoImplicit false

namespace MiLanguage

/-- The blocks that hold statements. `loopHead` holds the variable of a `for` and stands around
the loop's own block. -/
inductive BlockKind where
  | function | branch | whileLoop | doLoop | forLoop | loopHead
  deriving DecidableEq, Repr

def BlockKind.isLoop : BlockKind → Bool
  | whileLoop | doLoop | forLoop => true
  | _ => false

/-- The declaration that the body in a function scope belongs to. -/
inductive BodyOwner where
  | function (owner : Owner) (name : String) (params : List Datatype)
  | constructor (id : ModuleId) (className : String)
  deriving DecidableEq

/-- `functionScope` is the height, on the stack, of the function scope that owns the variable. -/
structure LocalVariable where
  declaration : Variable
  functionScope : Nat

structure Block where
  locals : SymbolTable LocalVariable := .empty
  -- Modules named by `use`, in that order. Only a function scope has any.
  uses : List ModuleId := []
  returnType : Option Datatype := none
  bodyOf : Option BodyOwner := none
  -- There is a `ret` directly in this block.
  returned : Bool := false
  -- There is a `ret`, `break` or `continue` directly in this block.
  terminated : Bool := false
  warned : Bool := false

def Block.function (returnType : Datatype) : Block := { returnType := some returnType }

/-- What a scope collects. -/
inductive Frame where
  | parent (id : ModuleId)
  | module (id : ModuleId)
  | «class» (id : ModuleId) (declaration : ClassDeclaration)
  | enum (id : ModuleId) (declaration : EnumDeclaration)
  | block (kind : BlockKind) (block : Block)

namespace Frame

def block? : Frame → Option Block
  | block _ b => some b
  | _ => none

def blockKind? : Frame → Option BlockKind
  | block k _ => some k
  | _ => none

def isBlock (f : Frame) : Bool := f.block?.isSome

def isFunction (f : Frame) : Bool := f.blockKind? = some .function

def isLoop (f : Frame) : Bool := f.blockKind?.any BlockKind.isLoop

def moduleId? : Frame → Option ModuleId
  | parent id | module id | .class id _ | enum id _ => some id
  | block _ _ => none

def class? : Frame → Option (ModuleId × ClassDeclaration)
  | .class id c => some (id, c)
  | _ => none

def modifyBlock (f : Frame) (g : Block → Block) : Frame :=
  match f with
  | block k b => block k (g b)
  | f => f

end Frame

/-- A scope and the node that its statements become children of. The node of a discarded scope,
which only keeps the braces balanced, is dropped at the end. -/
structure Scope where
  frame : Frame
  node : Node
  discard : Bool := false

/-- The open scopes, innermost first. The one of the root module is below them all and stays. -/
structure ScopeStack where
  opened : List Scope := []
  base : Scope

namespace ScopeStack

def start (root : ModuleId) (node : Node) : ScopeStack :=
  { base := { frame := .parent root, node } }

def all (s : ScopeStack) : List Scope := s.opened ++ [s.base]

def depth (s : ScopeStack) : Nat := s.opened.length + 1

def push (s : ScopeStack) (scope : Scope) : ScopeStack := { s with opened := scope :: s.opened }

def pop? (s : ScopeStack) : Option (Scope × ScopeStack) :=
  match s.opened with
  | [] => none
  | scope :: rest => some (scope, { s with opened := rest })

def current (s : ScopeStack) : Scope := s.opened.headD s.base

def modifyCurrent (s : ScopeStack) (f : Scope → Scope) : ScopeStack :=
  match s.opened with
  | [] => { s with base := f s.base }
  | scope :: rest => { s with opened := f scope :: rest }

def modifyCurrentBlock (s : ScopeStack) (f : Block → Block) : ScopeStack :=
  s.modifyCurrent fun scope => { scope with frame := scope.frame.modifyBlock f }

def append (s : ScopeStack) (node : Node) : ScopeStack :=
  s.modifyCurrent fun scope => { scope with node := scope.node.push node }

-- The scopes through the first one that `p` holds of, or none at all if there is no such scope.
def upTo (p : Scope → Bool) : List Scope → List Scope
  | [] => []
  | scope :: rest =>
      if p scope then [scope]
      else match upTo p rest with
        | [] => []
        | found => scope :: found

-- The scopes of the current function, innermost first and its own scope last. Nothing else of the
-- stack is seen from inside a function.
def functionScopes (s : ScopeStack) : List Scope := upTo (·.frame.isFunction) s.all

def functionScope? (s : ScopeStack) : Option Scope := s.all.find? (·.frame.isFunction)

-- How many scopes lie below the function scope.
def functionHeight (s : ScopeStack) : Nat := s.depth - s.functionScopes.length

def inLoop (s : ScopeStack) : Bool := s.functionScopes.any (·.frame.isLoop)

def returnType? (s : ScopeStack) : Option Datatype :=
  s.functionScope?.bind fun scope => scope.frame.block?.bind Block.returnType

def currentModule (s : ScopeStack) : ModuleId :=
  (s.all.findSome? (·.frame.moduleId?)).getD ModuleTree.root

-- The innermost class that is open.
def class? (s : ScopeStack) : Option (ModuleId × ClassDeclaration) :=
  s.all.findSome? (·.frame.class?)

-- Changes the innermost scope that `f` changes.
def modifyFirst (f : Scope → Option Scope) : List Scope → Option (List Scope)
  | [] => none
  | scope :: rest =>
      match f scope with
      | some scope => some (scope :: rest)
      | none => (modifyFirst f rest).map (scope :: ·)

-- The scope of the root module takes no part in this: it is neither a class nor a block.
def modifyInnermost (s : ScopeStack) (f : Scope → Option Scope) : Option ScopeStack :=
  (modifyFirst f s.opened).map fun opened => { s with opened }

def modifyClass? (s : ScopeStack) (f : ClassDeclaration → ClassDeclaration) : Option ScopeStack :=
  s.modifyInnermost fun scope =>
    match scope.frame with
    | .class id c => some { scope with frame := .class id (f c) }
    | _ => none

def lookupLocal? (s : ScopeStack) (name : String) : Option LocalVariable :=
  s.functionScopes.findSome? fun scope => scope.frame.block?.bind (·.locals.find? name)

-- Changes a local variable that is in sight.
def modifyLocal (s : ScopeStack) (name : String) (f : LocalVariable → LocalVariable) :
    ScopeStack :=
  match s.lookupLocal? name with
  | none => s
  | some _ =>
      (s.modifyInnermost fun scope =>
        match scope.frame with
        | .block k b =>
            if b.locals.contains name then
              some { scope with frame := .block k { b with locals := b.locals.modify name f } }
            else none
        | _ => none).getD s

-- Declares a variable in the current block. Refused if its name is in sight, if no function is
-- around, or if the current scope is no block.
def declareLocal? (s : ScopeStack) (v : Variable) : Option ScopeStack :=
  if (s.lookupLocal? v.name).isSome || s.functionScope?.isNone || !s.current.frame.isBlock then none
  else some <| s.modifyCurrentBlock fun b =>
    { b with locals := b.locals.insert v.name ⟨v, s.functionHeight⟩ }

-- The modules in use, innermost block first and each once.
def uses (s : ScopeStack) : List ModuleId :=
  (s.functionScopes.flatMap fun scope => (scope.frame.block?.map Block.uses).getD []).foldl
    (fun found id => if found.contains id then found else found ++ [id]) []

-- Puts a module in use for the rest of the current function.
def addUse? (s : ScopeStack) (id : ModuleId) : Option ScopeStack :=
  s.modifyInnermost fun scope =>
    match scope.frame with
    | .block .function b =>
        some { scope with
          frame := .block .function
            { b with uses := if b.uses.contains id then b.uses else b.uses ++ [id] } }
    | _ => none

@[simp] theorem depth_start (root : ModuleId) (node : Node) : (start root node).depth = 1 := rfl

@[simp] theorem depth_push (s : ScopeStack) (scope : Scope) :
    (s.push scope).depth = s.depth + 1 := rfl

@[simp] theorem current_push (s : ScopeStack) (scope : Scope) :
    (s.push scope).current = scope := rfl

@[simp] theorem pop?_push (s : ScopeStack) (scope : Scope) :
    (s.push scope).pop? = some (scope, s) := rfl

@[simp] theorem depth_modifyCurrent (s : ScopeStack) (f : Scope → Scope) :
    (s.modifyCurrent f).depth = s.depth := by
  unfold modifyCurrent depth
  cases s.opened <;> rfl

@[simp] theorem depth_append (s : ScopeStack) (n : Node) : (s.append n).depth = s.depth := by
  simp [append]

theorem pop?_eq_none_iff (s : ScopeStack) : s.pop? = none ↔ s.depth = 1 := by
  unfold pop? depth
  cases s.opened <;> simp

theorem depth_pop? {s s' : ScopeStack} {scope : Scope} (h : s.pop? = some (scope, s')) :
    s.depth = s'.depth + 1 := by
  unfold pop? at h
  unfold depth
  split at h
  · cases h
  · cases h; simp_all

end ScopeStack

end MiLanguage
