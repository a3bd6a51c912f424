import MiLanguage.Proofs.Naming.Scopes

set_option autoImplicit false

namespace MiLanguage

/-- What a place in the program sees of the scopes around it. -/
structure View where
  locals : String → Option LocalVariable
  uses : List ModuleId
  inLoop : Bool
  returnType : Option Datatype

namespace View

def nowhere : View := { locals := fun _ => none, uses := [], inLoop := false, returnType := none }

end View

def LocalVariable.withValue (l : LocalVariable) : LocalVariable :=
  { l with declaration := { l.declaration with initialized := true } }

@[simp] theorem LocalVariable.withValue_withValue (l : LocalVariable) :
    l.withValue.withValue = l.withValue := rfl

def ScopeStack.view (s : ScopeStack) : View :=
  { locals := s.lookupLocal?, uses := s.uses, inLoop := s.inLoop, returnType := s.returnType? }

section Lists

variable {scope : Scope} {scopes outer old new X Y : List Scope} {name : String} {id : ModuleId}

def inFunction (scopes : List Scope) : Bool := scopes.any (·.frame.isFunction)

def Frame.uses (f : Frame) : List ModuleId := (f.block?.map Block.uses).getD []

-- The modules in use as the innermost function scope lists them.
def usedIn (scopes : List Scope) : List ModuleId :=
  ((scopes.find? (·.frame.isFunction)).map (·.frame.uses)).getD []

-- Only function scopes list modules, each once. A block around has no variable of the same name,
-- short of a function in between.
def Tidy : List Scope → Prop
  | [] => True
  | scope :: outer =>
      (if scope.frame.isFunction then scope.frame.uses.Nodup
        else scope.frame.uses = [] ∧
          ∀ name, (scope.frame.here name).isSome → lookupIn outer name = none) ∧
      Tidy outer

-- What is seen from directly inside a function.
def Scope.own (scope : Scope) : View where
  locals := scope.frame.here
  uses := scope.frame.uses
  inLoop := false
  returnType := scope.frame.block?.bind Block.returnType

-- What is seen from another scope, in a place that has the given view.
def Scope.within (scope : Scope) (around : View) : View where
  locals name := (scope.frame.here name).or (around.locals name)
  uses := around.uses
  inLoop := scope.frame.isLoop || around.inLoop
  returnType := around.returnType

-- What is in sight from the scopes.
def viewIn (scopes : List Scope) : View where
  locals := lookupIn scopes
  uses := usedIn scopes
  inLoop := (ScopeStack.upTo (·.frame.isFunction) scopes).any (·.frame.isLoop)
  returnType := (scopes.find? (·.frame.isFunction)).bind (·.frame.block?.bind Block.returnType)

theorem upTo_append {p : Scope → Bool} (inside : X.any p = true) (Y : List Scope) :
    ScopeStack.upTo p (X ++ Y) = ScopeStack.upTo p X := by
  induction X with
  | nil => cases inside
  | cons scope X ih =>
      simp only [List.cons_append, ScopeStack.upTo]
      split
      next => rfl
      next other => rw [ih (by simpa [other] using inside)]

theorem find?_append_left {p : Scope → Bool} (inside : X.any p = true) (Y : List Scope) :
    (X ++ Y).find? p = X.find? p := by
  obtain ⟨f, found⟩ := Option.isSome_iff_exists.mp (List.find?_isSome.mpr (List.any_eq_true.mp inside))
  rw [List.find?_append, found]
  rfl

theorem viewIn_append (inside : inFunction X = true) (Y : List Scope) :
    viewIn (X ++ Y) = viewIn X := by
  unfold viewIn lookupIn usedIn
  simp only [upTo_append inside, find?_append_left inside]

theorem viewIn_outside (outside : inFunction scopes = false) : viewIn scopes = .nowhere := by
  have locals : lookupIn scopes = fun _ => none := funext fun _ => lookupIn_outside outside
  have functionless : scopes.find? (·.frame.isFunction) = none := by
    rw [List.find?_eq_none]
    exact List.any_eq_false.mp outside
  unfold viewIn usedIn
  rw [locals, upTo_of_none outside, functionless]
  rfl

theorem viewIn_function (function : scope.frame.isFunction = true) (outer : List Scope) :
    viewIn (scope :: outer) = scope.own := by
  have loop : scope.frame.isLoop = false := by
    unfold Frame.isFunction at function
    unfold Frame.isLoop
    rw [of_decide_eq_true function]
    rfl
  have locals : lookupIn (scope :: outer) = scope.frame.here :=
    funext fun _ => lookupIn_function function
  unfold viewIn usedIn Scope.own
  simp [locals, ScopeStack.upTo, function, loop]

theorem viewIn_inner (inner : scope.frame.isFunction = false) (inside : inFunction outer = true) :
    viewIn (scope :: outer) = scope.within (viewIn outer) := by
  have locals : lookupIn (scope :: outer) =
      fun name => (scope.frame.here name).or (lookupIn outer name) :=
    funext fun _ => lookupIn_block inner inside
  have found := upTo_of_some inside
  unfold viewIn usedIn Scope.within
  rw [locals, ScopeStack.upTo, if_neg (by simp [inner])]
  generalize ScopeStack.upTo _ outer = around at found ⊢
  cases around with
  | nil => exact absurd rfl found
  | cons first others => simp [inner]

theorem inFunction_congr (kinds : List.Forall₂
    (fun a b : Scope => b.frame.isFunction = a.frame.isFunction) old new) :
    inFunction new = inFunction old := by
  induction kinds with
  | nil => rfl
  | cons head _ ih => exact congrArg₂ (· || ·) head ih

theorem inFunction_cons (scope : Scope) (outer : List Scope) :
    inFunction (scope :: outer) = (scope.frame.isFunction || inFunction outer) := rfl

end Lists

def addOnce (ids : List ModuleId) (id : ModuleId) : List ModuleId :=
  if ids.contains id then ids else ids ++ [id]

namespace View

def giveValue (v : View) (name : String) : View :=
  { v with locals := fun other =>
      if other = name then (v.locals name).map LocalVariable.withValue else v.locals other }

def declare (v : View) (name : String) (l : LocalVariable) : View :=
  { v with locals := fun other => if other = name then some l else v.locals other }

def use (v : View) (id : ModuleId) : View := { v with uses := addOnce v.uses id }

theorem giveValue_of_none {v : View} {name : String} (unknown : v.locals name = none) :
    v.giveValue name = v := by
  have same : (fun other => if other = name then (v.locals name).map LocalVariable.withValue
      else v.locals other) = v.locals := by
    funext other
    split
    next equal => rw [equal, unknown]; rfl
    next => rfl
  unfold giveValue
  rw [same]

end View

namespace Scope

-- A variable of the scope has a value now.
def GivesValue (name : String) (a b : Scope) : Prop :=
  ∃ kind block, a.frame = .block kind block ∧ (a.frame.here name).isSome ∧
    b = { a with
      frame := .block kind { block with
        locals := block.locals.modify name LocalVariable.withValue } }

-- The function scope lists one more module.
def Uses (id : ModuleId) (a b : Scope) : Prop :=
  ∃ block, a.frame = .block .function block ∧
    b = { a with frame := .block .function { block with uses := addOnce block.uses id } }

variable {a b : Scope} {name : String} {id : ModuleId}

theorem GivesValue.here (gives : a.GivesValue name b) :
    b.frame.here = fun other =>
      if other = name then (a.frame.here name).map LocalVariable.withValue else a.frame.here other := by
  obtain ⟨kind, block, frame, _, rfl⟩ := gives
  funext other
  rw [frame]
  exact SymbolTable.find?_modify _ _ _ _

theorem GivesValue.function (gives : a.GivesValue name b) :
    b.frame.isFunction = a.frame.isFunction := by
  obtain ⟨kind, block, frame, _, rfl⟩ := gives
  rw [frame]
  rfl

theorem GivesValue.own (gives : a.GivesValue name b) : b.own = a.own.giveValue name := by
  unfold Scope.own View.giveValue
  rw [gives.here]
  obtain ⟨kind, block, frame, _, rfl⟩ := gives
  rw [frame]
  rfl

theorem GivesValue.within (gives : a.GivesValue name b) (v : View) :
    b.within v = (a.within v).giveValue name := by
  have loop : b.frame.isLoop = a.frame.isLoop := by
    obtain ⟨kind, block, frame, _, rfl⟩ := gives
    rw [frame]
    rfl
  obtain ⟨l, found⟩ : ∃ l, a.frame.here name = some l := by
    obtain ⟨_, _, _, known, _⟩ := gives
    exact Option.isSome_iff_exists.mp known
  unfold Scope.within View.giveValue
  rw [gives.here, loop]
  congr 1
  funext other
  dsimp only
  split
  next => rw [found]; rfl
  next => rfl

theorem within_giveValue (missing : a.frame.here name = none) (v : View) :
    a.within (v.giveValue name) = (a.within v).giveValue name := by
  unfold Scope.within View.giveValue
  congr 1
  funext other
  dsimp only
  split
  next same => rw [same, missing]; rfl
  next => rfl

theorem Uses.function (uses : a.Uses id b) :
    a.frame.isFunction = true ∧ b.frame.isFunction = true := by
  obtain ⟨block, frame, rfl⟩ := uses
  rw [frame]
  exact ⟨rfl, rfl⟩

theorem Uses.here (uses : a.Uses id b) : b.frame.here = a.frame.here := by
  obtain ⟨block, frame, rfl⟩ := uses
  rw [frame]
  rfl

theorem Uses.own (uses : a.Uses id b) : b.own = a.own.use id := by
  obtain ⟨block, frame, rfl⟩ := uses
  unfold Scope.own View.use
  rw [frame]
  rfl

end Scope

namespace Scope

/-- The same names, and no further modules in use but for a function's. -/
structure Refills (a b : Scope) : Prop where
  function : b.frame.isFunction = a.frame.isFunction
  known : ∀ name, (b.frame.here name).isSome = (a.frame.here name).isSome
  block : a.frame.isFunction = false → b.frame.uses = a.frame.uses
  once : a.frame.uses.Nodup → b.frame.uses.Nodup

variable {a b : Scope} {name : String} {id : ModuleId}

theorem refills_refl (a : Scope) : a.Refills a := ⟨rfl, fun _ => rfl, fun _ => rfl, fun once => once⟩

theorem GivesValue.refills (gives : a.GivesValue name b) : a.Refills b := by
  have uses : b.frame.uses = a.frame.uses := congrArg View.uses gives.own
  refine ⟨gives.function, fun other => ?_, fun _ => uses, fun once => uses ▸ once⟩
  rw [gives.here]
  dsimp only
  split
  next same => rw [same, Option.isSome_map]
  next => rfl

theorem nodup_addOnce {ids : List ModuleId} (once : ids.Nodup) (id : ModuleId) :
    (addOnce ids id).Nodup := by
  unfold addOnce
  split
  next => exact once
  next new =>
    have fresh : id ∉ ids := fun member => new (List.contains_iff_mem.mpr member)
    exact List.nodup_append.mpr ⟨once, List.nodup_singleton id, fun other member same there equal =>
      fresh (List.mem_singleton.mp there ▸ equal ▸ member)⟩

theorem Uses.refills (uses : a.Uses id b) : a.Refills b := by
  obtain ⟨function, function'⟩ := uses.function
  refine ⟨function'.trans function.symm, fun _ => by rw [uses.here],
    fun block => absurd (function.symm.trans block) nofun, fun once => ?_⟩
  have listed : b.frame.uses = addOnce a.frame.uses id := congrArg View.uses uses.own
  rw [listed]
  exact nodup_addOnce once id

end Scope

theorem lookupIn_refilled {old new : List Scope} (refilled : List.Forall₂ Scope.Refills old new)
    (name : String) : (lookupIn new name).isSome = (lookupIn old name).isSome := by
  induction refilled with
  | nil => rfl
  | @cons a b outer outer' head tail ih =>
      have around : inFunction outer' = inFunction outer :=
        inFunction_congr (tail.imp fun _ _ same => same.function)
      cases function : a.frame.isFunction with
      | true =>
          rw [lookupIn_function function, lookupIn_function (head.function.trans function)]
          exact head.known name
      | false =>
          have function' := head.function.trans function
          cases inside : inFunction outer with
          | true =>
              rw [lookupIn_block function inside, lookupIn_block function' (around.trans inside),
                Option.isSome_or, Option.isSome_or, head.known, ih]
          | false =>
              have outside : inFunction (a :: outer) = false := by
                rw [inFunction_cons, function, inside, Bool.or_false]
              have outside' : inFunction (b :: outer') = false := by
                rw [inFunction_cons, function', around, inside, Bool.or_false]
              rw [lookupIn_outside outside, lookupIn_outside outside']

theorem Tidy.refilled {old new : List Scope} (tidy : Tidy old)
    (refilled : List.Forall₂ Scope.Refills old new) : Tidy new := by
  induction refilled with
  | nil => trivial
  | @cons a b outer outer' head tail ih =>
      obtain ⟨own, around⟩ := tidy
      refine ⟨?_, ih around⟩
      rw [head.function]
      split
      next function =>
        rw [if_pos function] at own
        exact head.once own
      next block =>
        rw [if_neg block] at own
        refine ⟨(head.block (Bool.not_eq_true _ ▸ block)).trans own.1, fun name known => ?_⟩
        have unknown := own.2 name (head.known name ▸ known)
        rw [← Option.not_isSome_iff_eq_none, lookupIn_refilled tail, unknown]
        nofun

/-- One scope of the current function is changed, after those that are passed on the way out. -/
inductive Changed (change : Scope → Scope → Prop) (passes : Scope → Prop) :
    List Scope → List Scope → Prop
  | here {a b : Scope} {outer : List Scope} : change a b →
      Changed change passes (a :: outer) (b :: outer)
  | there {a : Scope} {outer outer' : List Scope} : passes a →
      Changed change passes outer outer' → Changed change passes (a :: outer) (a :: outer')

namespace Changed

variable {change change' : Scope → Scope → Prop} {passes passes' : Scope → Prop}
  {old new X Y Z : List Scope} {y : Scope}

theorem forall₂ {R : Scope → Scope → Prop} (changed : Changed change passes old new)
    (refl : ∀ a, R a a) (each : ∀ a b, change a b → R a b) : List.Forall₂ R old new := by
  induction changed with
  | here found => exact .cons (each _ _ found) (List.forall₂_same.mpr fun a _ => refl a)
  | there _ _ ih => exact .cons (refl _) ih

theorem split (changed : Changed change passes (X ++ Y) Z) :
    (∃ X', Z = X' ++ Y ∧ Changed change passes X X') ∨
      (∀ a ∈ X, passes a) ∧ ∃ Y', Z = X ++ Y' ∧ Changed change passes Y Y' := by
  induction X generalizing Z with
  | nil => exact .inr ⟨List.forall_mem_nil _, Z, rfl, changed⟩
  | cons scope X ih =>
      cases changed with
      | here found => exact .inl ⟨_, rfl, .here found⟩
      | there passed later =>
          rcases ih later with ⟨X', rfl, inner⟩ | ⟨all, Y', rfl, beyond⟩
          · exact .inl ⟨scope :: X', rfl, .there passed inner⟩
          · exact .inr ⟨List.forall_mem_cons.mpr ⟨passed, all⟩, Y', rfl, beyond⟩

-- A change of what the changed scope shows is seen from all scopes inside of it, up to the next
-- function.
theorem view {g : View → View} (changed : Changed change passes old new)
    (function : ∀ a b, change a b → b.frame.isFunction = a.frame.isFunction)
    (own : ∀ a b, change a b → a.frame.isFunction = true → b.own = g a.own)
    (inner : ∀ a b, change a b → a.frame.isFunction = false → ∀ v, b.within v = g (a.within v))
    (passed : ∀ a, passes a → a.frame.isFunction = false ∧ ∀ v, a.within (g v) = g (a.within v))
    (inside : inFunction old = true) : inFunction new = true ∧ viewIn new = g (viewIn old) := by
  induction changed with
  | @here a b outer found =>
      rw [inFunction_cons] at inside ⊢
      rw [function a b found]
      refine ⟨inside, ?_⟩
      cases kind : a.frame.isFunction with
      | true =>
          rw [viewIn_function kind, viewIn_function ((function a b found).trans kind)]
          exact own a b found kind
      | false =>
          rw [kind, Bool.false_or] at inside
          rw [viewIn_inner kind inside, viewIn_inner ((function a b found).trans kind) inside]
          exact inner a b found kind _
  | @there a outer outer' skipped _ ih =>
      obtain ⟨kind, through⟩ := passed a skipped
      rw [inFunction_cons, kind, Bool.false_or] at inside
      obtain ⟨inside', seen⟩ := ih inside
      rw [inFunction_cons, viewIn_inner kind inside, viewIn_inner kind inside', seen, inside',
        Bool.or_true]
      exact ⟨rfl, through _⟩

variable {name : String} {id : ModuleId}

theorem givesValue (changed : Changed (Scope.GivesValue name)
    (fun a => a.frame.isFunction = false ∧ a.frame.here name = none) old new)
    (inside : inFunction old = true) :
    inFunction new = true ∧ viewIn new = (viewIn old).giveValue name :=
  changed.view (g := (·.giveValue name)) (fun _ _ found => found.function)
    (fun _ _ found _ => found.own) (fun _ _ found _ v => found.within v)
    (fun _ passed => ⟨passed.1, Scope.within_giveValue passed.2⟩) inside

theorem uses (changed : Changed (Scope.Uses id) (fun a => a.frame.isFunction = false) old new)
    (inside : inFunction old = true) :
    inFunction new = true ∧ viewIn new = (viewIn old).use id :=
  changed.view (g := (·.use id)) (fun _ _ found => found.function.2.trans found.function.1.symm)
    (fun _ _ found _ => found.own)
    (fun _ _ found kind => absurd (found.function.1.symm.trans kind) nofun)
    (fun _ passed => ⟨passed, fun _ => rfl⟩) inside

end Changed

namespace Scope

def giveValue? (name : String) (scope : Scope) : Option Scope :=
  match scope.frame with
  | .block k b =>
      if b.locals.contains name then
        some { scope with
          frame := .block k { b with locals := b.locals.modify name LocalVariable.withValue } }
      else none
  | _ => none

def use? (id : ModuleId) (scope : Scope) : Option Scope :=
  match scope.frame with
  | .block .function b =>
      some { scope with frame := .block .function { b with uses := addOnce b.uses id } }
  | _ => none

def declare (scope : Scope) (l : LocalVariable) : Scope :=
  { scope with
    frame := scope.frame.modifyBlock fun b =>
      { b with locals := b.locals.insert l.declaration.name l } }

variable {a b : Scope} {name : String} {id : ModuleId}

theorem givesValue_of_some (given : a.giveValue? name = some b) : a.GivesValue name b := by
  unfold giveValue? at given
  split at given
  next kind block frame =>
    split at given
    next known =>
      cases given
      refine ⟨kind, block, frame, ?_, rfl⟩
      rw [frame]
      exact known
    next => cases given
  next => cases given

theorem here_of_none (missing : a.giveValue? name = none) : a.frame.here name = none := by
  unfold giveValue? at missing
  split at missing
  next kind block frame =>
    split at missing
    next => cases missing
    next unknown =>
      rw [frame]
      exact Option.not_isSome_iff_eq_none.mp unknown
  next other =>
    cases frame : a.frame with
    | block kind block => exact absurd frame (other kind block)
    | _ => rfl

theorem uses_of_some (used : a.use? id = some b) : a.Uses id b := by
  unfold use? at used
  split at used
  next block frame =>
    cases used
    exact ⟨block, frame, rfl⟩
  next => cases used

theorem not_function_of_none (missing : a.use? id = none) : a.frame.isFunction = false := by
  unfold use? at missing
  split at missing
  next => cases missing
  next other =>
    cases frame : a.frame with
    | block kind block =>
        cases kind with
        | function => exact absurd frame (other block)
        | _ => rfl
    | _ => rfl

theorem declare_function (scope : Scope) (l : LocalVariable) :
    (scope.declare l).frame.isFunction = scope.frame.isFunction := by
  unfold declare
  cases scope.frame <;> rfl

theorem declare_uses (scope : Scope) (l : LocalVariable) :
    (scope.declare l).frame.uses = scope.frame.uses := by
  unfold declare
  cases scope.frame <;> rfl

theorem declare_here {scope : Scope} (block : scope.frame.isBlock = true) (l : LocalVariable) :
    (scope.declare l).frame.here = fun other =>
      if other = l.declaration.name then some l else scope.frame.here other := by
  funext other
  unfold declare
  cases frame : scope.frame with
  | block => exact SymbolTable.find?_insert _ _ _ _
  | _ => rw [frame] at block; cases block

theorem declare_own {scope : Scope} (block : scope.frame.isBlock = true) (l : LocalVariable) :
    (scope.declare l).own = scope.own.declare l.declaration.name l := by
  have type : (scope.declare l).frame.block?.bind Block.returnType =
      scope.frame.block?.bind Block.returnType := by
    unfold declare
    cases scope.frame <;> rfl
  unfold Scope.own View.declare
  rw [declare_here block, declare_uses, type]

theorem declare_within {scope : Scope} (block : scope.frame.isBlock = true) (l : LocalVariable)
    (v : View) : (scope.declare l).within v = (scope.within v).declare l.declaration.name l := by
  have loop : (scope.declare l).frame.isLoop = scope.frame.isLoop := by
    unfold declare
    cases scope.frame <;> rfl
  unfold Scope.within View.declare
  rw [declare_here block, loop]
  congr 1
  funext other
  dsimp only
  split <;> rfl

end Scope

theorem viewIn_declare {scope : Scope} {outer : List Scope} (block : scope.frame.isBlock = true)
    (inside : inFunction (scope :: outer) = true) (l : LocalVariable) :
    viewIn (scope.declare l :: outer) =
      (viewIn (scope :: outer)).declare l.declaration.name l := by
  have kind := Scope.declare_function scope l
  cases function : scope.frame.isFunction with
  | true =>
      rw [viewIn_function function, viewIn_function (kind.trans function)]
      exact Scope.declare_own block l
  | false =>
      rw [inFunction_cons, function, Bool.false_or] at inside
      rw [viewIn_inner function inside, viewIn_inner (kind.trans function) inside]
      exact Scope.declare_within block l _

theorem Tidy.declare {scope : Scope} {outer : List Scope} {l : LocalVariable}
    (tidy : Tidy (scope :: outer)) (block : scope.frame.isBlock = true)
    (inside : inFunction (scope :: outer) = true)
    (unknown : lookupIn (scope :: outer) l.declaration.name = none) :
    Tidy (scope.declare l :: outer) := by
  obtain ⟨own, around⟩ := tidy
  refine ⟨?_, around⟩
  rw [Scope.declare_function, Scope.declare_uses]
  split
  next function =>
    rw [if_pos function] at own
    exact own
  next inner =>
    rw [if_neg inner] at own
    refine ⟨own.1, fun other known => ?_⟩
    rw [Scope.declare_here block] at known
    dsimp only at known
    split at known
    next same =>
      have inner : scope.frame.isFunction = false := by simpa using inner
      rw [inFunction_cons, inner, Bool.false_or] at inside
      rw [lookupIn_block inner inside, Option.or_eq_none_iff] at unknown
      rw [same]
      exact unknown.2
    next => exact own.2 other known

section Scopes

variable {X X' : List Scope} {name : String} {id : ModuleId} {l : LocalVariable}

theorem modifyFirst_append {f : Scope → Option Scope} (found : ScopeStack.modifyFirst f X = some X')
    (Y : List Scope) : ScopeStack.modifyFirst f (X ++ Y) = some (X' ++ Y) := by
  induction X generalizing X' with
  | nil => cases found
  | cons scope X ih =>
      unfold ScopeStack.modifyFirst at found
      rw [List.cons_append, ScopeStack.modifyFirst]
      split at found
      next scope' changed =>
        cases found
        rfl
      next passed =>
        obtain ⟨X₁, later, rfl⟩ := Option.map_eq_some_iff.mp found
        rw [ih later]
        rfl

theorem modifyFirst_eq_none {f : Scope → Option Scope} (refused : ∀ scope ∈ X, f scope = none) :
    ScopeStack.modifyFirst f X = none := by
  induction X with
  | nil => rfl
  | cons scope X ih =>
      unfold ScopeStack.modifyFirst
      rw [refused scope (by simp), ih fun other member => refused other (by simp [member])]
      rfl

theorem exists_giveValue (found : lookupIn X name = some l) :
    ∃ X', ScopeStack.modifyFirst (Scope.giveValue? name) X = some X' ∧
      Changed (Scope.GivesValue name)
        (fun a => a.frame.isFunction = false ∧ a.frame.here name = none) X X' := by
  induction X with
  | nil => cases found
  | cons scope X ih =>
      unfold ScopeStack.modifyFirst
      cases given : scope.giveValue? name with
      | some scope' => exact ⟨_, rfl, .here (Scope.givesValue_of_some given)⟩
      | none =>
          have missing := Scope.here_of_none given
          cases function : scope.frame.isFunction with
          | true =>
              rw [lookupIn_function function, missing] at found
              cases found
          | false =>
              cases inside : inFunction X with
              | false =>
                  rw [lookupIn_outside (by rw [List.any_cons, function]; exact inside)] at found
                  cases found
              | true =>
                  rw [lookupIn_block function inside, missing, Option.none_or] at found
                  obtain ⟨X', later, changed⟩ := ih found
                  exact ⟨scope :: X', by rw [later]; rfl, .there ⟨function, missing⟩ changed⟩

theorem exists_use (inside : inFunction X = true) (id : ModuleId) :
    ∃ X', ScopeStack.modifyFirst (Scope.use? id) X = some X' ∧
      Changed (Scope.Uses id) (fun a => a.frame.isFunction = false) X X' := by
  induction X with
  | nil => cases inside
  | cons scope X ih =>
      unfold ScopeStack.modifyFirst
      cases used : scope.use? id with
      | some scope' => exact ⟨_, rfl, .here (Scope.uses_of_some used)⟩
      | none =>
          have function := Scope.not_function_of_none used
          rw [inFunction_cons, function, Bool.false_or] at inside
          obtain ⟨X', later, changed⟩ := ih inside
          exact ⟨scope :: X', by rw [later]; rfl, .there function changed⟩

end Scopes

end MiLanguage
