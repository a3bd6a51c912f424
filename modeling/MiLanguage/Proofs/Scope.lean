import MiLanguage.Statement.Control
import MiLanguage.Statement.Declaration
import Mathlib.Data.List.Forall2

set_option autoImplicit false

namespace MiLanguage

-- Only marks of initialization are new.
def SymbolTable.Marked (old new : SymbolTable Variable) : Prop :=
  ∀ name, new.find? name = old.find? name ∨
    ∃ v, old.find? name = some v ∧ new.find? name = some { v with initialized := true }

namespace SymbolTable

theorem Marked.trans {a b c : SymbolTable Variable} (first : a.Marked b) (second : b.Marked c) :
    a.Marked c := by
  intro name
  rcases second name with same | ⟨v, old, new⟩
  · rw [same]
    exact first name
  · rcases first name with same | ⟨w, older, newer⟩
    · exact .inr ⟨v, by rw [← same, old], new⟩
    · have : v = { w with initialized := true } := by
        rw [newer] at old
        exact (Option.some.inj old).symm
      exact .inr ⟨w, older, by rw [new, this]⟩

theorem marked_modify (t : SymbolTable Variable) (name : String) :
    t.Marked (t.modify name ({ · with initialized := true })) := by
  intro other
  rw [find?_modify]
  split
  next same =>
    subst same
    cases found : t.find? other with
    | none => exact .inl rfl
    | some v => exact .inr ⟨v, rfl, rfl⟩
  next => exact .inl rfl

end SymbolTable

/-- What a statement inside of a body leaves of a scope around it, besides its own node. -/
inductive Frame.Updated : Frame → Frame → Prop
  | refl (f : Frame) : Updated f f
  | block {kind : BlockKind} {old new : Block} :
      new.returnType = old.returnType → new.bodyOf = old.bodyOf → new.returned = old.returned →
      Updated (.block kind old) (.block kind new)
  | fields {id : ModuleId} {c : ClassDeclaration} {fields : SymbolTable Variable} :
      c.fields.Marked fields → Updated (.class id c) (.class id { c with fields })

theorem Frame.Updated.trans {a b c : Frame} (first : a.Updated b) (second : b.Updated c) :
    a.Updated c := by
  cases first with
  | refl => exact second
  | block type owner returned =>
      cases second with
      | refl => exact .block type owner returned
      | block type' owner' returned' =>
          exact .block (type'.trans type) (owner'.trans owner) (returned'.trans returned)
  | fields marked =>
      cases second with
      | refl => exact .fields marked
      | fields marked' => exact .fields (marked.trans marked')

structure Scope.Updated (old new : Scope) : Prop where
  node : new.node = old.node
  discard : new.discard = old.discard
  frame : old.frame.Updated new.frame

theorem Scope.updated_refl (s : Scope) : s.Updated s := ⟨rfl, rfl, .refl _⟩

theorem Scope.Updated.trans {a b c : Scope} (first : a.Updated b) (second : b.Updated c) :
    a.Updated c :=
  ⟨second.node.trans first.node, second.discard.trans first.discard, first.frame.trans second.frame⟩

namespace ScopeStack

structure Updated (old new : ScopeStack) : Prop where
  opened : List.Forall₂ Scope.Updated old.opened new.opened
  base : old.base.Updated new.base

theorem updated_refl (s : ScopeStack) : s.Updated s :=
  ⟨List.forall₂_same.mpr fun scope _ => scope.updated_refl, s.base.updated_refl⟩

theorem Updated.trans {a b c : ScopeStack} (first : a.Updated b) (second : b.Updated c) :
    a.Updated c := by
  refine ⟨?_, first.base.trans second.base⟩
  have opened := first.opened
  have later := second.opened
  generalize a.opened = old at opened
  generalize b.opened = middle at opened later
  generalize c.opened = new at later
  induction opened generalizing new with
  | nil => cases later; exact .nil
  | cons head _ ih =>
      cases later with
      | cons head' tail' => exact .cons (head.trans head') (ih _ tail')

theorem Updated.depth {old new : ScopeStack} (updated : old.Updated new) :
    new.depth = old.depth := by
  simp [ScopeStack.depth, updated.opened.length_eq]

@[simp] theorem all_push (s : ScopeStack) (scope : Scope) : (s.push scope).all = scope :: s.all :=
  rfl

theorem all_of_pop? {s rest : ScopeStack} {scope : Scope} (popped : s.pop? = some (scope, rest)) :
    s.all = scope :: rest.all := by
  unfold pop? at popped
  split at popped
  next => cases popped
  next opened =>
    cases popped
    simp [all, opened]

theorem all_eq_current (s : ScopeStack) :
    ∃ outer, s.all = s.current :: outer ∧ ∀ f, (s.modifyCurrent f).all = f s.current :: outer := by
  unfold modifyCurrent all ScopeStack.current
  cases opened : s.opened with
  | nil => exact ⟨[], by simp, fun f => by simp⟩
  | cons scope rest => exact ⟨rest ++ [s.base], by simp, fun f => by simp⟩

theorem all_ne_nil (s : ScopeStack) : s.all ≠ [] := by simp [all]

theorem modifyCurrent_modifyCurrent (s : ScopeStack) (f g : Scope → Scope) :
    (s.modifyCurrent f).modifyCurrent g = s.modifyCurrent fun scope => g (f scope) := by
  unfold modifyCurrent
  cases s.opened <;> rfl

theorem Updated.all {old new : ScopeStack} (updated : old.Updated new) :
    List.Forall₂ Scope.Updated old.all new.all :=
  List.rel_append updated.opened (.cons updated.base .nil)

theorem updated_modifyCurrent {s : ScopeStack} {f : Scope → Scope}
    (current : s.current.Updated (f s.current)) : s.Updated (s.modifyCurrent f) := by
  unfold modifyCurrent
  unfold ScopeStack.current at current
  cases opened : s.opened with
  | nil =>
      rw [opened] at current
      exact ⟨by simp [opened], current⟩
  | cons scope rest =>
      rw [opened] at current
      refine ⟨?_, s.base.updated_refl⟩
      rw [opened]
      exact .cons current (List.forall₂_same.mpr fun scope _ => scope.updated_refl)

theorem modifyFirst_related {R : Scope → Scope → Prop} (refl : ∀ a, R a a)
    {f : Scope → Option Scope} {old new : List Scope} (each : ∀ a b, f a = some b → R a b)
    (changed : modifyFirst f old = some new) : List.Forall₂ R old new := by
  induction old generalizing new with
  | nil => simp [modifyFirst] at changed
  | cons scope rest ih =>
      unfold modifyFirst at changed
      split at changed
      next head =>
        cases changed
        exact .cons (each _ _ head) (List.forall₂_same.mpr fun scope _ => refl scope)
      next =>
        obtain ⟨tail, found, same⟩ := Option.map_eq_some_iff.mp changed
        cases same
        exact .cons (refl scope) (ih found)

theorem updated_modifyInnermost {s t : ScopeStack} {f : Scope → Option Scope}
    (each : ∀ a b, f a = some b → a.Updated b) (changed : s.modifyInnermost f = some t) :
    s.Updated t := by
  obtain ⟨opened, found, same⟩ := Option.map_eq_some_iff.mp changed
  cases same
  exact ⟨modifyFirst_related Scope.updated_refl each found, s.base.updated_refl⟩

theorem updated_modifyCurrentBlock {s : ScopeStack} {f : Block → Block}
    (type : ∀ b, (f b).returnType = b.returnType) (owner : ∀ b, (f b).bodyOf = b.bodyOf)
    (returned : ∀ b, (f b).returned = b.returned) : s.Updated (s.modifyCurrentBlock f) := by
  refine updated_modifyCurrent ⟨rfl, rfl, ?_⟩
  cases frame : s.current.frame with
  | block kind b => exact .block (type b) (owner b) (returned b)
  | _ => exact .refl _

theorem updated_declareLocal? {s t : ScopeStack} {v : Variable}
    (declared : s.declareLocal? v = some t) : s.Updated t := by
  unfold declareLocal? at declared
  split at declared
  next => cases declared
  next =>
    cases declared
    exact updated_modifyCurrentBlock (fun _ => rfl) (fun _ => rfl) (fun _ => rfl)

theorem updated_modifyLocal (s : ScopeStack) (name : String) (f : LocalVariable → LocalVariable) :
    s.Updated (s.modifyLocal name f) := by
  unfold modifyLocal
  split
  next => exact s.updated_refl
  next =>
    generalize changed : s.modifyInnermost _ = found
    cases found with
    | none => exact s.updated_refl
    | some t =>
        refine updated_modifyInnermost ?_ changed
        intro a b same
        split at same
        next kind block frame =>
          split at same
          next =>
            cases same
            refine ⟨rfl, rfl, ?_⟩
            rw [frame]
            exact .block rfl rfl rfl
          next => cases same
        next => cases same

theorem updated_addUse? {s t : ScopeStack} {id : ModuleId} (added : s.addUse? id = some t) :
    s.Updated t := by
  refine updated_modifyInnermost ?_ added
  intro a b same
  split at same
  next block frame =>
    cases same
    refine ⟨rfl, rfl, ?_⟩
    rw [frame]
    exact .block rfl rfl rfl
  next => cases same

theorem updated_modifyFields {s t : ScopeStack}
    {f : SymbolTable Variable → SymbolTable Variable} (marks : ∀ fields, SymbolTable.Marked fields (f fields))
    (changed : s.modifyClass? (fun c => { c with fields := f c.fields }) = some t) :
    s.Updated t := by
  refine updated_modifyInnermost ?_ changed
  intro a b same
  split at same
  next id c frame =>
    cases same
    refine ⟨rfl, rfl, ?_⟩
    rw [frame]
    exact .fields (marks c.fields)
  next => cases same

end ScopeStack

/-- What a statement inside of a body leaves of the declarations: marks of initialization. -/
inductive ModuleTree.Updated (old : ModuleTree) : ModuleTree → Prop
  | refl : Updated old old
  | marked (id : ModuleId) (name : String) {new : ModuleTree} :
      Updated old new → Updated old (new.modifyVariable id name ({ · with initialized := true }))

theorem ModuleTree.Updated.trans {a b c : ModuleTree} (first : a.Updated b)
    (second : b.Updated c) : a.Updated c := by
  induction second with
  | refl => exact first
  | marked id name _ ih => exact .marked id name ih

namespace Environment

structure Updated (old new : Environment) : Prop where
  modules : old.modules.Updated new.modules
  scopes : old.scopes.Updated new.scopes
  inLibrary : new.inLibrary = old.inLibrary

theorem updated_refl (env : Environment) : env.Updated env :=
  ⟨.refl, env.scopes.updated_refl, rfl⟩

theorem updated_scopes {env : Environment} {scopes : ScopeStack}
    (updated : env.scopes.Updated scopes) : env.Updated { env with scopes } :=
  ⟨.refl, updated, rfl⟩

theorem updated_modifyBlock {env : Environment} {f : Block → Block}
    (type : ∀ b, (f b).returnType = b.returnType) (owner : ∀ b, (f b).bodyOf = b.bodyOf)
    (returned : ∀ b, (f b).returned = b.returned) : env.Updated (env.modifyBlock f) :=
  updated_scopes (ScopeStack.updated_modifyCurrentBlock type owner returned)

theorem frame_modifyCurrent (env : Environment) (frame : Frame) :
    ({ env with scopes := env.scopes.modifyCurrent ({ · with frame := frame }) } :
      Environment).frame = frame := by
  unfold Environment.frame ScopeStack.modifyCurrent ScopeStack.current
  cases opened : env.scopes.opened <;> simp

theorem updated_markInitialized (env : Environment) (v : ResolvedVariable) :
    env.Updated (env.markInitialized v) := by
  unfold markInitialized
  split
  next => exact updated_scopes (ScopeStack.updated_modifyLocal _ _ _)
  next id _ => exact ⟨.marked id v.name .refl, env.scopes.updated_refl, rfl⟩
  next =>
    refine updated_scopes ?_
    generalize changed : env.scopes.modifyClass? _ = found
    cases found with
    | none => exact env.scopes.updated_refl
    | some scopes =>
        exact ScopeStack.updated_modifyFields (fun fields => fields.marked_modify v.name) changed

theorem updated_use (env : Environment) (id : ModuleId) :
    env.Updated { env with scopes := (env.scopes.addUse? id).getD env.scopes } := by
  refine updated_scopes ?_
  cases added : env.scopes.addUse? id with
  | none => exact env.scopes.updated_refl
  | some scopes => exact ScopeStack.updated_addUse? added

theorem updated_declareLocal {env declared : Environment} {v : Variable}
    (found : env.declareVariable? .inBlock v = some declared) : env.Updated declared := by
  obtain ⟨scopes, added, same⟩ := Option.map_eq_some_iff.mp found
  cases same
  exact updated_scopes (ScopeStack.updated_declareLocal? added)

theorem Updated.trans {a b c : Environment} (first : a.Updated b) (second : b.Updated c) :
    a.Updated c :=
  ⟨first.modules.trans second.modules, first.scopes.trans second.scopes,
    second.inLibrary.trans first.inLibrary⟩

@[simp] theorem depth_push (env : Environment) (frame : Frame) (node : Node) :
    (env.push frame node).scopes.depth = env.scopes.depth + 1 := rfl

@[simp] theorem depth_append (env : Environment) (setting : Setting) (node : Node) :
    (env.append setting node).scopes.depth = env.scopes.depth := by
  unfold append
  split
  next => rfl
  next => exact ScopeStack.depth_append _ _

-- The parameters are variables of the scope that is opened.
theorem updated_openBody (env : Environment) (type : Datatype) (owner : BodyOwner)
    (parameters : List FunctionParameter) (place : Token) (node : Node) :
    (env.push (.block .function { Block.function type with bodyOf := some owner }) node).Updated
      (env.openBody type owner parameters place node) := by
  simp only [openBody]
  generalize env.push _ node = opened
  induction parameters generalizing opened with
  | nil => exact opened.updated_refl
  | cons p parameters ih =>
      refine Updated.trans ?_ (ih _)
      refine updated_scopes ?_
      generalize declared : opened.scopes.declareLocal? _ = found
      cases found with
      | none => exact opened.scopes.updated_refl
      | some scopes => exact ScopeStack.updated_declareLocal? declared

@[simp] theorem depth_openBody (env : Environment) (type : Datatype) (owner : BodyOwner)
    (parameters : List FunctionParameter) (place : Token) (node : Node) :
    (env.openBody type owner parameters place node).scopes.depth = env.scopes.depth + 1 :=
  (env.updated_openBody type owner parameters place node).scopes.depth

section Class

variable {env : Environment} {id : ModuleId} {c : ClassDeclaration}

theorem class?_of_frame (frame : env.frame = .class id c) : env.scopes.class? = some (id, c) := by
  obtain ⟨outer, all, _⟩ := env.scopes.all_eq_current
  unfold Environment.frame at frame
  simp [ScopeStack.class?, all, frame, Frame.class?]

theorem modifyClass?_of_frame (frame : env.frame = .class id c) (deep : env.scopes.opened ≠ [])
    (f : ClassDeclaration → ClassDeclaration) :
    env.scopes.modifyClass? f =
      some (env.scopes.modifyCurrent ({ · with frame := .class id (f c) })) := by
  unfold Environment.frame ScopeStack.current at frame
  cases opened : env.scopes.opened with
  | nil => exact absurd opened deep
  | cons scope rest =>
      rw [opened] at frame
      have same : scope.frame = .class id c := frame
      simp [ScopeStack.modifyClass?, ScopeStack.modifyInnermost, ScopeStack.modifyFirst, opened,
        same, ScopeStack.modifyCurrent]

end Class

end Environment

end MiLanguage
