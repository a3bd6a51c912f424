import MiLanguage.Proofs.Node
import MiLanguage.Proofs.Statement.Parts

set_option autoImplicit false

namespace MiLanguage

theorem Node.push_eq (n c : Node) : n.push c = n.withChildren [c] := rfl

theorem Node.withChildren_withChildren (n : Node) (as bs : List Node) :
    (n.withChildren as).withChildren bs = n.withChildren (as ++ bs) := by
  simp [Node.withChildren]

/-- A block that more statements have been added to. It is still a block of the same kind, and of
the same function if it is a function's. -/
structure Scope.Continued (old new : Scope) : Prop where
  discard : new.discard = old.discard
  node : ∃ more, new.node = old.node.withChildren more
  frame : ∃ kind b c, old.frame = .block kind b ∧ new.frame = .block kind c ∧
    c.returnType = b.returnType ∧ c.bodyOf = b.bodyOf

theorem Scope.continued_of_frame {a b : Scope} {kind : BlockKind} {x y : Block}
    (discard : b.discard = a.discard) (node : b.node = a.node) (frame : a.frame = .block kind x)
    (frame' : b.frame = .block kind y) (type : y.returnType = x.returnType)
    (owner : y.bodyOf = x.bodyOf) : a.Continued b :=
  ⟨discard, ⟨[], by rw [node, Node.withChildren_nil]⟩, ⟨kind, x, y, frame, frame', type, owner⟩⟩

theorem Scope.continued_refl {s : Scope} (block : s.frame.isBlock = true) : s.Continued s := by
  cases frame : s.frame with
  | block kind b => exact continued_of_frame rfl rfl frame frame rfl rfl
  | _ => rw [frame] at block; cases block

namespace Scope.Continued

variable {a b c : Scope}

theorem isBlock (kept : a.Continued b) : a.frame.isBlock = true := by
  obtain ⟨kind, x, -, frame, -⟩ := kept.frame
  rw [frame]
  rfl

theorem again (kept : a.Continued b) : b.Continued b := by
  obtain ⟨kind, -, d, -, frame, -, -⟩ := kept.frame
  exact continued_of_frame rfl rfl frame frame rfl rfl

theorem trans (first : a.Continued b) (second : b.Continued c) : a.Continued c := by
  obtain ⟨more, node⟩ := first.node
  obtain ⟨more', node'⟩ := second.node
  obtain ⟨kind, x, y, frame, frame', type, owner⟩ := first.frame
  obtain ⟨kind', y', z, frame₁, frame₂, type', owner'⟩ := second.frame
  rw [frame'] at frame₁
  cases frame₁
  exact ⟨second.discard.trans first.discard,
    ⟨more ++ more', by rw [node', node, Node.withChildren_withChildren]⟩,
    ⟨kind, x, z, frame, frame₂, type'.trans type, owner'.trans owner⟩⟩

theorem blockKind? (kept : a.Continued b) : b.frame.blockKind? = a.frame.blockKind? := by
  obtain ⟨kind, x, y, frame, frame', -, -⟩ := kept.frame
  rw [frame, frame']
  rfl

theorem isFunction (kept : a.Continued b) : b.frame.isFunction = a.frame.isFunction := by
  rw [Frame.isFunction, kept.blockKind?, Frame.isFunction]

theorem block (kept : a.Continued b) {kind : BlockKind} {x : Block} (frame : a.frame = .block kind x) :
    ∃ y, b.frame = .block kind y ∧ y.returnType = x.returnType ∧ y.bodyOf = x.bodyOf := by
  obtain ⟨kind', x', y, frame₁, frame', same⟩ := kept.frame
  rw [frame] at frame₁
  cases frame₁
  exact ⟨y, frame', same⟩

end Scope.Continued

/-- The innermost class that is open has fields marked as initialized. Nothing else has changed. -/
inductive FieldsMarked : List Scope → List Scope → Prop
  | refl (scopes : List Scope) : FieldsMarked scopes scopes
  | here {scope : Scope} {id : ModuleId} {c : ClassDeclaration} {fields : SymbolTable Variable}
      {outer : List Scope} :
      scope.frame = .class id c → c.fields.Marked fields →
      FieldsMarked (scope :: outer) ({ scope with frame := .class id { c with fields } } :: outer)
  | under {scope : Scope} {old new : List Scope} :
      scope.frame.class? = none → FieldsMarked old new → FieldsMarked (scope :: old) (scope :: new)

namespace FieldsMarked

variable {as bs cs : List Scope}

theorem trans (first : FieldsMarked as bs) (second : FieldsMarked bs cs) : FieldsMarked as cs := by
  induction first generalizing cs with
  | refl => exact second
  | @here scope id c fields outer frame marked =>
      cases second with
      | refl => exact .here frame marked
      | here frame' marked' =>
          cases frame'
          have both : FieldsMarked _ (_ :: outer) := .here frame (marked.trans marked')
          exact both
      | under none => cases none
  | under none _ ih =>
      cases second with
      | refl => exact .under none (ih (.refl _))
      | here frame => rw [frame] at none; cases none
      | under _ second => exact .under none (ih second)

theorem beneath {scope : Scope} (marked : FieldsMarked (scope :: as) bs)
    (other : scope.frame.class? = none) : ∃ later, bs = scope :: later ∧ FieldsMarked as later := by
  cases marked with
  | refl => exact ⟨as, rfl, .refl as⟩
  | here frame => rw [frame] at other; cases other
  | under _ marked => exact ⟨_, rfl, marked⟩

theorem nodes (marked : FieldsMarked as bs) : bs.map Scope.node = as.map Scope.node := by
  induction marked with
  | refl => rfl
  | here => rfl
  | under _ _ ih => rw [List.map_cons, List.map_cons, ih]

end FieldsMarked

/-- What the statements of a function may do to the scopes: to the blocks of the function, and to
the fields of the class that the function is in. -/
inductive Confined : List Scope → List Scope → Prop
  | function {a b : Scope} {as bs : List Scope} :
      a.frame.isFunction = true → a.Continued b → FieldsMarked as bs → Confined (a :: as) (b :: bs)
  | block {a b : Scope} {as bs : List Scope} :
      a.frame.isFunction = false → a.Continued b → Confined as bs → Confined (a :: as) (b :: bs)

namespace Confined

variable {a b : Scope} {as bs cs : List Scope}

theorem again (confined : Confined as bs) : Confined bs bs := by
  induction confined with
  | function function kept _ => exact .function (kept.isFunction.trans function) kept.again (.refl _)
  | block other kept _ ih => exact .block (kept.isFunction.trans other) kept.again ih

theorem trans (first : Confined as bs) (second : Confined bs cs) : Confined as cs := by
  induction first generalizing cs with
  | function function kept marked =>
      cases second with
      | function _ kept' marked' => exact .function function (kept.trans kept') (marked.trans marked')
      | block other => rw [kept.isFunction, function] at other; cases other
  | block other kept _ ih =>
      cases second with
      | function function => rw [kept.isFunction, other] at function; cases function
      | block _ kept' second => exact .block other (kept.trans kept') (ih second)

theorem head (within : Confined (a :: as) (a :: as)) (kept : a.Continued b) :
    Confined (a :: as) (b :: as) := by
  cases within with
  | function function => exact .function function kept (.refl as)
  | block other _ within => exact .block other kept within

-- A change to the first scope that it suits, which is one of the function.
theorem modifyFirst {f : Scope → Option Scope} (within : Confined as as)
    (found : ∃ s ∈ ScopeStack.upTo (·.frame.isFunction) as, (f s).isSome = true)
    (each : ∀ a b, f a = some b → a.Continued b) (changed : ScopeStack.modifyFirst f as = some bs) :
    Confined as bs := by
  induction as generalizing bs with
  | nil => cases within
  | cons a as ih =>
      unfold ScopeStack.modifyFirst at changed
      split at changed
      next b here =>
        cases changed
        exact within.head (each a b here)
      next elsewhere =>
        obtain ⟨tail, later, same⟩ := Option.map_eq_some_iff.mp changed
        cases same
        obtain ⟨s, member, suits⟩ := found
        unfold ScopeStack.upTo at member
        cases within with
        | function function =>
            rw [if_pos function, List.mem_singleton] at member
            rw [member, elsewhere] at suits
            cases suits
        | block other kept within =>
            rw [if_neg (by simp [other])] at member
            refine .block other kept (ih within ?_ later)
            split at member
            next => cases member
            next =>
              rcases List.mem_cons.mp member with rfl | member
              · rw [elsewhere] at suits
                cases suits
              · exact ⟨s, member, suits⟩

-- The class around a function is beyond its blocks.
theorem modifyFields {f : Scope → Option Scope} (within : Confined as as)
    (blocks : ∀ a : Scope, a.frame.isBlock = true → f a = none)
    (classless : ∀ a, f a = none → a.frame.class? = none)
    (each : ∀ a b outer, f a = some b → FieldsMarked (a :: outer) (b :: outer))
    (changed : ScopeStack.modifyFirst f as = some bs) : Confined as bs := by
  have beyond {as bs : List Scope} (changed : ScopeStack.modifyFirst f as = some bs) :
      FieldsMarked as bs := by
    induction as generalizing bs with
    | nil => cases changed
    | cons a as ih =>
        unfold ScopeStack.modifyFirst at changed
        split at changed
        next b here =>
          cases changed
          exact each a b as here
        next elsewhere =>
          obtain ⟨tail, later, same⟩ := Option.map_eq_some_iff.mp changed
          cases same
          exact .under (classless a elsewhere) (ih later)
  induction as generalizing bs with
  | nil => cases within
  | cons a as ih =>
      have passes (kept : a.Continued a) : ∃ tail, ScopeStack.modifyFirst f as = some tail ∧ bs = a :: tail := by
        unfold ScopeStack.modifyFirst at changed
        rw [blocks a kept.isBlock] at changed
        obtain ⟨tail, later, same⟩ := Option.map_eq_some_iff.mp changed
        exact ⟨tail, later, same.symm⟩
      cases within with
      | function function kept =>
          obtain ⟨tail, later, rfl⟩ := passes kept
          exact .function function kept (beyond later)
      | block other kept within =>
          obtain ⟨tail, later, rfl⟩ := passes kept
          exact .block other kept (ih within later)

end Confined

namespace ScopeStack

variable {s t : ScopeStack}

theorem modifyFirst_append_right {f : Scope → Option Scope} {as bs : List Scope} (cs : List Scope)
    (changed : modifyFirst f as = some bs) : modifyFirst f (as ++ cs) = some (bs ++ cs) := by
  induction as generalizing bs with
  | nil => cases changed
  | cons a as ih =>
      unfold modifyFirst at changed
      rw [List.cons_append, modifyFirst]
      split at changed
      next b here =>
        cases changed
        simp only [List.cons_append]
      next elsewhere =>
        obtain ⟨tail, later, same⟩ := Option.map_eq_some_iff.mp changed
        cases same
        simp only [ih later, Option.map_some, List.cons_append]

theorem modifyFirst_all {f : Scope → Option Scope} (changed : s.modifyInnermost f = some t) :
    modifyFirst f s.all = some t.all := by
  obtain ⟨opened, found, same⟩ := Option.map_eq_some_iff.mp changed
  cases same
  exact modifyFirst_append_right [s.base] found

theorem confined_modifyCurrent {f : Scope → Scope} (within : Confined s.all s.all)
    (kept : s.current.frame.isBlock = true → s.current.Continued (f s.current)) :
    Confined s.all (s.modifyCurrent f).all := by
  obtain ⟨outer, all, changed⟩ := s.all_eq_current
  rw [changed, all]
  rw [all] at within
  refine within.head (kept ?_)
  cases within with
  | function _ kept => exact kept.isBlock
  | block _ kept => exact kept.isBlock

theorem confined_modifyCurrentBlock {f : Block → Block} (within : Confined s.all s.all)
    (type : ∀ b, (f b).returnType = b.returnType) (owner : ∀ b, (f b).bodyOf = b.bodyOf) :
    Confined s.all (s.modifyCurrentBlock f).all := by
  refine confined_modifyCurrent within fun block => ?_
  cases frame : s.current.frame with
  | block kind b =>
      exact Scope.continued_of_frame rfl rfl frame rfl (type b) (owner b)
  | _ => rw [frame] at block; cases block

theorem confined_append (within : Confined s.all s.all) (node : Node) :
    Confined s.all (s.append node).all := by
  refine confined_modifyCurrent within fun block => ?_
  exact ⟨rfl, ⟨[node], rfl⟩, (Scope.continued_refl block).frame⟩

theorem confined_declareLocal? {v : Variable} (within : Confined s.all s.all)
    (declared : s.declareLocal? v = some t) : Confined s.all t.all := by
  unfold declareLocal? at declared
  split at declared
  next => cases declared
  next =>
    cases declared
    exact confined_modifyCurrentBlock within (fun _ => rfl) fun _ => rfl

theorem exists_of_lookupLocal? {name : String} {l : LocalVariable}
    (found : s.lookupLocal? name = some l) :
    ∃ scope ∈ s.functionScopes, ∃ kind b, scope.frame = .block kind b ∧
      b.locals.contains name = true := by
  obtain ⟨scope, member, isLocal⟩ := List.exists_of_findSome?_eq_some found
  obtain ⟨b, block, here⟩ := Option.bind_eq_some_iff.mp isLocal
  refine ⟨scope, member, ?_⟩
  cases frame : scope.frame with
  | block kind c =>
      rw [frame] at block
      cases block
      exact ⟨kind, b, rfl, by simp [SymbolTable.contains, here]⟩
  | _ => rw [frame] at block; cases block

theorem confined_modifyLocal {name : String} (f : LocalVariable → LocalVariable)
    (within : Confined s.all s.all) : Confined s.all (s.modifyLocal name f).all := by
  unfold modifyLocal
  split
  next => exact within
  next l looked =>
    obtain ⟨scope, member, kind, b, frame, known⟩ := exists_of_lookupLocal? looked
    generalize changed : s.modifyInnermost _ = found
    cases found with
    | none => exact within
    | some t =>
        refine within.modifyFirst ⟨scope, member, ?_⟩ ?_ (modifyFirst_all changed)
        · simp [frame, known]
        · intro a b same
          split at same
          next kind block frame =>
            split at same
            next =>
              cases same
              exact Scope.continued_of_frame rfl rfl frame rfl rfl rfl
            next => cases same
          next => cases same

theorem exists_isFunction {as bs : List Scope} (confined : Confined as bs) :
    ∃ scope ∈ upTo (·.frame.isFunction) as, scope.frame.isFunction = true := by
  induction confined with
  | @function a _ _ _ function =>
      exact ⟨a, by simp [upTo, function], function⟩
  | @block a b as bs other _ _ ih =>
      obtain ⟨scope, member, function⟩ := ih
      refine ⟨scope, ?_, function⟩
      unfold upTo
      rw [if_neg (by simp [other])]
      split
      next classless => rw [classless] at member; cases member
      next => exact List.mem_cons_of_mem _ member

theorem confined_addUse? {id : ModuleId} (within : Confined s.all s.all)
    (added : s.addUse? id = some t) : Confined s.all t.all := by
  obtain ⟨scope, member, function⟩ := exists_isFunction within
  refine within.modifyFirst ⟨scope, member, ?_⟩ ?_ (modifyFirst_all added)
  · cases frame : scope.frame with
    | block kind b =>
        simp only [frame, Frame.isFunction, Frame.blockKind?, Option.some.injEq,
          decide_eq_true_eq] at function
        subst function
        rfl
    | _ => simp [frame, Frame.isFunction, Frame.blockKind?] at function
  · intro a b same
    split at same
    next block frame =>
      cases same
      exact Scope.continued_of_frame rfl rfl frame rfl rfl rfl
    next => cases same

theorem confined_modifyFields {f : SymbolTable Variable → SymbolTable Variable}
    (within : Confined s.all s.all) (marks : ∀ fields, SymbolTable.Marked fields (f fields))
    (changed : s.modifyClass? (fun c => { c with fields := f c.fields }) = some t) :
    Confined s.all t.all := by
  refine within.modifyFields ?_ ?_ ?_ (modifyFirst_all changed)
  · intro a block
    cases frame : a.frame with
    | «class» => rw [frame] at block; cases block
    | _ => rfl
  · intro a classless
    cases frame : a.frame with
    | «class» => simp [frame] at classless
    | _ => rfl
  · intro a b outer same
    split at same
    next id c frame =>
      cases same
      exact .here frame (marks c.fields)
    next => cases same

end ScopeStack

namespace Environment

variable {env after : Environment} {node : Node}

theorem confined_modifyBlock {f : Block → Block} (within : Confined env.scopes.all env.scopes.all)
    (type : ∀ b, (f b).returnType = b.returnType) (owner : ∀ b, (f b).bodyOf = b.bodyOf) :
    Confined env.scopes.all (env.modifyBlock f).scopes.all :=
  ScopeStack.confined_modifyCurrentBlock within type owner

theorem confined_append (within : Confined env.scopes.all env.scopes.all) (setting : Setting)
    (node : Node) : Confined env.scopes.all (env.append setting node).scopes.all := by
  unfold Environment.append
  split
  · exact within
  · exact ScopeStack.confined_append within node

theorem confined_use (within : Confined env.scopes.all env.scopes.all) (id : ModuleId) :
    Confined env.scopes.all ((env.scopes.addUse? id).getD env.scopes).all := by
  cases added : env.scopes.addUse? id with
  | none => exact within
  | some scopes => exact ScopeStack.confined_addUse? within added

theorem confined_markInitialized (within : Confined env.scopes.all env.scopes.all)
    (v : ResolvedVariable) : Confined env.scopes.all (env.markInitialized v).scopes.all := by
  unfold markInitialized
  split
  next => exact ScopeStack.confined_modifyLocal _ within
  next => exact within
  next =>
    dsimp only
    generalize changed : env.scopes.modifyClass? _ = found
    cases found with
    | none => exact within
    | some scopes =>
        exact ScopeStack.confined_modifyFields within (fun fields => fields.marked_modify v.name) changed

theorem Defines.confined (defines : env.Defines .inBlock after node)
    (within : Confined env.scopes.all env.scopes.all) :
    Confined env.scopes.all after.scopes.all := by
  obtain ⟨_, _, _, added⟩ := defines
  obtain ⟨scopes, declared, same⟩ := Option.map_eq_some_iff.mp added
  cases same
  exact ScopeStack.confined_declareLocal? within declared

theorem Assigns.confined {implied : Bool} (assigns : env.Assigns implied after node)
    (within : Confined env.scopes.all env.scopes.all) :
    Confined env.scopes.all after.scopes.all := by
  obtain ⟨_, _, _, _, _, _, _⟩ := assigns
  exact confined_markInitialized within _

theorem Advances.confined {implied : Bool} (advances : env.Advances implied after node)
    (within : Confined env.scopes.all env.scopes.all) :
    Confined env.scopes.all after.scopes.all := by
  cases advances with
  | assigns assigns => exact assigns.confined within
  | calls => exact within

end Environment

end MiLanguage
