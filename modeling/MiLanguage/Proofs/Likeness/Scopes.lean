import MiLanguage.Proofs.Likeness.Basic
import MiLanguage.Proofs.Symbols.TypeHome

set_option autoImplicit false

namespace MiLanguage

variable {σ : Slack}

section Lists

variable {α β : Type} {R : α → α → Prop} {S : β → β → Prop} {as bs : List α}

theorem findSome?_like {f g : α → Option β} (related : List.Forall₂ R as bs)
    (each : ∀ a b, R a b → Option.Rel S (f a) (g b)) :
    Option.Rel S (as.findSome? f) (bs.findSome? g) := by
  induction related with
  | nil => exact .none
  | @cons a b as bs head _ ih =>
      rw [List.findSome?_cons, List.findSome?_cons]
      have first := each a b head
      generalize f a = found, g b = found' at first
      cases first with
      | none => exact ih
      | some same => exact .some same

theorem filterMap_like {f g : α → Option β} (related : List.Forall₂ R as bs)
    (each : ∀ a b, R a b → Option.Rel S (f a) (g b)) :
    List.Forall₂ S (as.filterMap f) (bs.filterMap g) := by
  induction related with
  | nil => exact .nil
  | @cons a b as bs head _ ih =>
      rw [List.filterMap_cons, List.filterMap_cons]
      have first := each a b head
      generalize f a = found, g b = found' at first
      cases first with
      | none => exact ih
      | some same => exact .cons same ih

theorem find?_like {p q : α → Bool} (related : List.Forall₂ R as bs)
    (each : ∀ a b, R a b → q b = p a) : Option.Rel R (as.find? p) (bs.find? q) := by
  induction related with
  | nil => exact .none
  | @cons a b as bs head _ ih =>
      rw [List.find?_cons, List.find?_cons, each a b head]
      cases p a with
      | true => exact .some head
      | false => exact ih

theorem any_like {p q : α → Bool} (related : List.Forall₂ R as bs)
    (each : ∀ a b, R a b → q b = p a) : bs.any q = as.any p := by
  induction related with
  | nil => rfl
  | cons head _ ih => rw [List.any_cons, List.any_cons, each _ _ head, ih]

end Lists

-- One list of modules in use does as well as the other.
def Slack.SameUses (σ : Slack) (ids others : List ModuleId) : Prop :=
  (σ.exact = true → others = ids) ∧ ∀ id, id ∈ others ↔ id ∈ ids

theorem Slack.sameUses_refl (σ : Slack) (ids : List ModuleId) : σ.SameUses ids ids :=
  ⟨fun _ => rfl, fun _ => .rfl⟩

structure Block.Like (σ : Slack) (b c : Block) : Prop where
  locals : c.locals = b.locals
  uses : σ.SameUses b.uses c.uses
  returnType : c.returnType = b.returnType
  bodyOf : c.bodyOf = b.bodyOf
  returned : c.returned = b.returned
  terminated : c.terminated = b.terminated
  warned : σ.exact = true → c.warned = b.warned

theorem Block.like_refl (b : Block) : b.Like σ b :=
  ⟨rfl, σ.sameUses_refl _, rfl, rfl, rfl, rfl, fun _ => rfl⟩

inductive Frame.Like (σ : Slack) : Frame → Frame → Prop
  | parent (id : ModuleId) : Like σ (.parent id) (.parent id)
  | module (id : ModuleId) : Like σ (.module id) (.module id)
  | «class» {id : ModuleId} {c d : ClassDeclaration} :
      c.Like σ (.inClass id c.name) d → Like σ (.class id c) (.class id d)
  | enum (id : ModuleId) (e : EnumDeclaration) : Like σ (.enum id e) (.enum id e)
  | block {kind : BlockKind} {b c : Block} : b.Like σ c → Like σ (.block kind b) (.block kind c)

/-- A scope and one of another run, nodes aside. -/
structure Scope.Like (σ : Slack) (a b : Scope) : Prop where
  frame : a.frame.Like σ b.frame
  discard : b.discard = a.discard

namespace Frame

variable {f g : Frame}

theorem Like.block? (like : f.Like σ g) : Option.Rel (Block.Like σ) f.block? g.block? := by
  cases like <;> first | exact .none | exact .some ‹_›

theorem Like.blockKind? (like : f.Like σ g) : g.blockKind? = f.blockKind? := by
  cases like <;> rfl

theorem Like.isBlock (like : f.Like σ g) : g.isBlock = f.isBlock := by cases like <;> rfl

theorem Like.isFunction (like : f.Like σ g) : g.isFunction = f.isFunction := by
  rw [Frame.isFunction, like.blockKind?, Frame.isFunction]

theorem Like.isLoop (like : f.Like σ g) : g.isLoop = f.isLoop := by
  rw [Frame.isLoop, like.blockKind?, Frame.isLoop]

theorem Like.moduleId? (like : f.Like σ g) : g.moduleId? = f.moduleId? := by cases like <;> rfl

/-- A class that is open, in two runs. -/
inductive ClassLike (σ : Slack) : ModuleId × ClassDeclaration → ModuleId × ClassDeclaration → Prop
  | intro {id : ModuleId} {c d : ClassDeclaration} :
      c.Like σ (.inClass id c.name) d → ClassLike σ (id, c) (id, d)

theorem Like.class? (like : f.Like σ g) : Option.Rel (ClassLike σ) f.class? g.class? := by
  cases like <;> first | exact .none | exact .some ⟨‹_›⟩

theorem Like.modifyBlock (like : f.Like σ g) {change other : Block → Block}
    (keeps : ∀ b c : Block, b.Like σ c → (change b).Like σ (other c)) :
    (f.modifyBlock change).Like σ (g.modifyBlock other) := by
  cases like with
  | block same => exact .block (keeps _ _ same)
  | parent | module | enum => constructor
  | «class» same => exact .class same

end Frame

-- If the scope is a function's, nodes in it may differ.
def Scope.Within (σ : Slack) (s : Scope) : Prop :=
  ∀ b o, s.frame = .block .function b → b.bodyOf = some o → σ.bodies o

/-- A scope after a change to its frame alone. -/
structure Scope.Reframed (σ : Slack) (old new : Scope) : Prop where
  node : new.node = old.node
  within : old.Within σ → new.Within σ

theorem Scope.reframed_refl (s : Scope) : s.Reframed σ s := ⟨rfl, fun within => within⟩

/-- The nodes of two stacks of scopes are the same, but perhaps for those of one scope on each
side. -/
inductive Apart (σ : Slack) : List Scope → List Scope → Prop
  | none {as bs : List Scope} : bs.map Scope.node = as.map Scope.node → Apart σ as bs
  | here {a b : Scope} {as bs : List Scope} : σ.nodes a.node b.node →
      bs.map Scope.node = as.map Scope.node → (∀ s ∈ a :: as, s.Within σ) →
      Apart σ (a :: as) (b :: bs)
  | outside {a b : Scope} {as bs : List Scope} : b.node = a.node → Apart σ as bs →
      Apart σ (a :: as) (b :: bs)

namespace Apart

variable {a b c d : Scope} {as bs : List Scope}

theorem refl (as : List Scope) : Apart σ as as := .none rfl

theorem tail (apart : Apart σ (a :: as) (b :: bs)) : Apart σ as bs := by
  cases apart with
  | none same => exact .none (List.cons.inj same).2
  | here _ same _ => exact .none same
  | outside _ apart => exact apart

-- What may be stored as the body of a function that ends.
theorem head (apart : Apart σ (a :: as) (b :: bs)) :
    b.node = a.node ∨ σ.nodes a.node b.node ∧ a.Within σ := by
  cases apart with
  | none same => exact .inl (List.cons.inj same).1
  | here nodes _ within => exact .inr ⟨nodes, within a List.mem_cons_self⟩
  | outside same _ => exact .inl same

theorem replace (apart : Apart σ (a :: as) (b :: bs)) {c d : Scope}
    (same : b.node = a.node → d.node = c.node) (nodes : σ.nodes a.node b.node → σ.nodes c.node d.node)
    (within : a.Within σ → c.Within σ) : Apart σ (c :: as) (d :: bs) := by
  cases apart with
  | none equal =>
      obtain ⟨head, tail⟩ := List.cons.inj equal
      exact .none (by rw [List.map_cons, List.map_cons, same head, tail])
  | here differ equal inside =>
      refine .here (nodes differ) equal fun s member => ?_
      rcases List.mem_cons.mp member with rfl | member
      · exact within (inside a List.mem_cons_self)
      · exact inside s (List.mem_cons_of_mem _ member)
  | outside equal apart => exact .outside (same equal) apart

theorem push (apart : Apart σ as bs) (same : b.node = a.node) : Apart σ (a :: as) (b :: bs) :=
  .outside same apart

-- A scope's node becomes a child of the node around it.
theorem close (apart : Apart σ (a :: c :: as) (b :: d :: bs)) :
    Apart σ ({ c with node := c.node.push a.node } :: as)
      ({ d with node := d.node.push b.node } :: bs) := by
  cases apart with
  | none equal =>
      obtain ⟨inner, outer⟩ := List.cons.inj equal
      obtain ⟨outer, rest⟩ := List.cons.inj outer
      refine .none (congrArg₂ List.cons ?_ rest)
      show d.node.push b.node = c.node.push a.node
      rw [inner, outer]
  | here nodes equal within =>
      obtain ⟨outer, rest⟩ := List.cons.inj equal
      refine .here ?_ rest fun s member => ?_
      · show σ.nodes (c.node.push a.node) (d.node.push b.node)
        rw [outer]
        exact σ.nodes_nest _ nodes
      · rcases List.mem_cons.mp member with rfl | member
        · exact within c (by simp)
        · exact within s (by simp [member])
  | outside equal apart =>
      refine apart.replace (fun same => ?_) (fun nodes => ?_) (fun within => within)
      · show d.node.push b.node = c.node.push a.node
        rw [same, equal]
      · show σ.nodes (c.node.push a.node) (d.node.push b.node)
        rw [equal]
        exact σ.nodes_push _ nodes

theorem kept {cs ds : List Scope} (apart : Apart σ as bs)
    (left : List.Forall₂ (Scope.Reframed σ) as cs) (right : List.Forall₂ (Scope.Reframed σ) bs ds) :
    Apart σ cs ds := by
  have kept {old new : List Scope} (keeps : List.Forall₂ (Scope.Reframed σ) old new) :
      new.map Scope.node = old.map Scope.node := by
    induction keeps with
    | nil => rfl
    | cons head _ ih => rw [List.map_cons, List.map_cons, head.node, ih]
  have inside {old new : List Scope} (keeps : List.Forall₂ (Scope.Reframed σ) old new)
      (within : ∀ s ∈ old, s.Within σ) : ∀ s ∈ new, s.Within σ := by
    induction keeps with
    | nil => exact within
    | cons head _ ih =>
        refine List.forall_mem_cons.mpr ⟨head.within (within _ List.mem_cons_self), ?_⟩
        exact ih fun s member => within s (List.mem_cons_of_mem _ member)
  induction apart generalizing cs ds with
  | none same => exact .none (by rw [kept right, kept left, same])
  | here nodes same within =>
      have whole := inside left within
      cases left with
      | cons first left =>
          cases right with
          | cons second right =>
              refine .here ?_ (by rw [kept right, kept left, same]) whole
              rw [first.node, second.node]
              exact nodes
  | outside same _ ih =>
      cases left with
      | cons first left =>
          cases right with
          | cons second right =>
              exact .outside (by rw [first.node, second.node, same]) (ih left right)

end Apart

theorem ScopeStack.mem_uses {s : ScopeStack} {id : ModuleId} :
    id ∈ s.uses ↔
      id ∈ s.functionScopes.flatMap fun scope => (scope.frame.block?.map Block.uses).getD [] := by
  unfold ScopeStack.uses
  generalize s.functionScopes.flatMap _ = ids
  have each (found : List ModuleId) :
      id ∈ ids.foldl (fun found id => if found.contains id then found else found ++ [id]) found ↔
        id ∈ found ∨ id ∈ ids := by
    induction ids generalizing found with
    | nil => simp
    | cons next ids ih =>
        rw [List.foldl_cons, ih, List.mem_cons]
        split
        next known =>
          have known : next ∈ found := by simpa using known
          constructor
          · rintro (old | later)
            · exact .inl old
            · exact .inr (.inr later)
          · rintro (old | rfl | later)
            · exact .inl old
            · exact .inl known
            · exact .inr later
        next => rw [List.mem_append, List.mem_singleton, or_assoc]
  simpa using each []

/-- Two stacks of scopes in two runs. -/
structure ScopeStack.Like (σ : Slack) (s t : ScopeStack) : Prop where
  scopes : List.Forall₂ (Scope.Like σ) s.all t.all
  nodes : Apart σ s.all t.all

namespace ScopeStack

variable {s t s' t' : ScopeStack}

section Reading

variable (like : List.Forall₂ (Scope.Like σ) s.all t.all)

include like

theorem opened_like : List.Forall₂ (Scope.Like σ) s.opened t.opened ∧ s.base.Like σ t.base := by
  unfold all at like
  have lengths : s.opened.length = t.opened.length := by simpa using like.length_eq
  have opened := List.forall₂_take_append _ _ _ like
  have base := List.forall₂_drop_append _ _ _ like
  rw [← lengths, List.take_left] at opened
  rw [← lengths, List.drop_left] at base
  exact ⟨opened, (List.forall₂_cons.mp base).1⟩

theorem depth_like : t.depth = s.depth := by
  simpa [depth, all] using like.length_eq.symm

theorem current_like : s.current.Like σ t.current := by
  obtain ⟨outer, all, -⟩ := s.all_eq_current
  obtain ⟨outer', all', -⟩ := t.all_eq_current
  rw [all, all'] at like
  cases like with
  | cons head _ => exact head

theorem functionScopes_like :
    List.Forall₂ (Scope.Like σ) s.functionScopes t.functionScopes := by
  unfold functionScopes
  generalize s.all = as, t.all = bs at like
  induction like with
  | nil => exact .nil
  | @cons a b as bs head _ ih =>
      unfold upTo
      rw [head.frame.isFunction]
      split
      · exact .cons head .nil
      · generalize upTo (fun scope : Scope => scope.frame.isFunction) as = found,
          upTo (fun scope : Scope => scope.frame.isFunction) bs = found' at ih
        cases ih with
        | nil => exact .nil
        | cons first rest => exact .cons head (.cons first rest)

theorem functionScope?_like : Option.Rel (Scope.Like σ) s.functionScope? t.functionScope? :=
  find?_like like fun _ _ scope => scope.frame.isFunction

theorem functionHeight_like : t.functionHeight = s.functionHeight := by
  rw [functionHeight, functionHeight, depth_like like, (functionScopes_like like).length_eq]

theorem inLoop_like : t.inLoop = s.inLoop :=
  any_like (functionScopes_like like) fun _ _ scope => scope.frame.isLoop

theorem returnType?_like : t.returnType? = s.returnType? := by
  have scope := functionScope?_like like
  unfold returnType?
  generalize s.functionScope? = found, t.functionScope? = found' at scope
  cases scope with
  | none => rfl
  | @some a b scope =>
      have block := scope.frame.block?
      simp only [Option.bind_some]
      generalize a.frame.block? = found, b.frame.block? = found' at block
      cases block with
      | none => rfl
      | some block => exact block.returnType

theorem currentModule_like : t.currentModule = s.currentModule := by
  have found := findSome?_like (S := Eq) like (f := (·.frame.moduleId?)) (g := (·.frame.moduleId?))
    fun a b scope => by
      rw [scope.frame.moduleId?]
      cases a.frame.moduleId? with
      | none => exact .none
      | some id => exact .some rfl
  unfold currentModule
  generalize s.all.findSome? (·.frame.moduleId?) = here, t.all.findSome? (·.frame.moduleId?) = there
    at found
  cases found with
  | none => rfl
  | some same => rw [same]

theorem class?_like : Option.Rel (Frame.ClassLike σ) s.class? t.class? :=
  findSome?_like like fun _ _ scope => scope.frame.class?

theorem lookupLocal?_like (name : String) : t.lookupLocal? name = s.lookupLocal? name := by
  have found := findSome?_like (S := Eq) (functionScopes_like like)
    (f := fun scope => scope.frame.block?.bind (·.locals.find? name))
    (g := fun scope => scope.frame.block?.bind (·.locals.find? name)) fun a b scope => by
      have block := scope.frame.block?
      generalize a.frame.block? = found, b.frame.block? = found' at block
      cases block with
      | none => exact .none
      | @some c d block =>
          simp only [Option.bind_some, block.locals]
          cases c.locals.find? name with
          | none => exact .none
          | some l => exact .some rfl
  unfold lookupLocal?
  generalize s.functionScopes.findSome? _ = here, t.functionScopes.findSome? _ = there at found
  cases found with
  | none => rfl
  | some same => rw [same]

theorem uses_like : σ.SameUses s.uses t.uses := by
  have collected : σ.SameUses
      (s.functionScopes.flatMap fun scope => (scope.frame.block?.map Block.uses).getD [])
      (t.functionScopes.flatMap fun scope => (scope.frame.block?.map Block.uses).getD []) := by
    have scopes := functionScopes_like like
    generalize s.functionScopes = as, t.functionScopes = bs at scopes
    induction scopes with
    | nil => exact σ.sameUses_refl []
    | @cons a b as bs head _ ih =>
        rw [List.flatMap_cons, List.flatMap_cons]
        have block := head.frame.block?
        have first : σ.SameUses ((a.frame.block?.map Block.uses).getD [])
            ((b.frame.block?.map Block.uses).getD []) := by
          generalize a.frame.block? = found, b.frame.block? = found' at block
          cases block with
          | none => exact σ.sameUses_refl []
          | some block => exact block.uses
        refine ⟨fun exact => by rw [first.1 exact, ih.1 exact], fun id => ?_⟩
        rw [List.mem_append, List.mem_append, first.2, ih.2]
  refine ⟨fun exact => ?_, fun id => ?_⟩
  · rw [uses, collected.1 exact, uses]
  · rw [mem_uses, mem_uses, collected.2]

theorem uses_perm : t.uses.Perm s.uses :=
  (List.perm_ext_iff_of_nodup t.nodup_uses s.nodup_uses).mpr fun id => (uses_like like).2 id

end Reading

section Change

theorem Like.push (like : s.Like σ t) {a b : Scope} (scope : a.Like σ b) (node : b.node = a.node) :
    (s.push a).Like σ (t.push b) :=
  ⟨.cons scope like.scopes, like.nodes.push node⟩

theorem Like.pop? (like : s.Like σ t) :
    Option.Rel (fun p q : Scope × ScopeStack => p.1.Like σ q.1 ∧
      Apart σ (p.1 :: p.2.all) (q.1 :: q.2.all) ∧ p.2.Like σ q.2) s.pop? t.pop? := by
  have depth := depth_like like.scopes
  cases popped : s.pop? with
  | none =>
      have empty : t.pop? = none := by
        rw [pop?_eq_none_iff, depth]
        exact s.pop?_eq_none_iff.mp popped
      rw [empty]
      exact .none
  | some found =>
      obtain ⟨scope, rest⟩ := found
      cases popped' : t.pop? with
      | none =>
          have shallow := t.pop?_eq_none_iff.mp popped'
          have deep := depth_pop? popped
          unfold ScopeStack.depth at shallow deep depth
          omega
      | some found' =>
          obtain ⟨scope', rest'⟩ := found'
          obtain ⟨scopes, nodes⟩ := like
          rw [all_of_pop? popped, all_of_pop? popped'] at scopes nodes
          obtain ⟨head, tail⟩ := List.forall₂_cons.mp scopes
          exact .some ⟨head, nodes, tail, nodes.tail⟩

theorem Like.modifyCurrent (like : s.Like σ t) {f g : Scope → Scope}
    (keeps : ∀ a b, a.Like σ b → (f a).Like σ (g b))
    (same : ∀ a b : Scope, b.node = a.node → (g b).node = (f a).node)
    (nodes : ∀ a b : Scope, σ.nodes a.node b.node → σ.nodes (f a).node (g b).node)
    (within : ∀ a : Scope, a.Within σ → (f a).Within σ) :
    (s.modifyCurrent f).Like σ (t.modifyCurrent g) := by
  obtain ⟨outer, all, changed⟩ := s.all_eq_current
  obtain ⟨outer', all', changed'⟩ := t.all_eq_current
  obtain ⟨scopes, apart⟩ := like
  rw [all, all'] at scopes apart
  obtain ⟨head, tail⟩ := List.forall₂_cons.mp scopes
  refine ⟨?_, ?_⟩
  · rw [changed, changed']
    exact .cons (keeps _ _ head) tail
  · rw [changed, changed']
    exact apart.replace (same _ _) (nodes _ _) (within _)

theorem Like.append (like : s.Like σ t) (node : Node) : (s.append node).Like σ (t.append node) :=
  like.modifyCurrent (fun _ _ scope => ⟨scope.frame, scope.discard⟩)
    (fun _ _ same => congrArg (Node.push · node) same) (fun _ _ nodes => σ.nodes_push node nodes)
    fun _ within => within

theorem Like.modifyCurrentBlock (like : s.Like σ t) {f g : Block → Block}
    (keeps : ∀ b c : Block, b.Like σ c → (f b).Like σ (g c))
    (owner : ∀ b : Block, (f b).bodyOf = b.bodyOf) :
    (s.modifyCurrentBlock f).Like σ (t.modifyCurrentBlock g) := by
  refine like.modifyCurrent (fun _ _ scope => ⟨scope.frame.modifyBlock keeps, scope.discard⟩)
    (fun _ _ same => same) (fun _ _ nodes => nodes) fun a within => ?_
  intro b o block body
  cases frame : a.frame with
  | block kind c =>
      simp only [frame, Frame.modifyBlock, Frame.block.injEq] at block
      obtain ⟨rfl, rfl⟩ := block
      exact within c o frame ((owner c).symm.trans body)
  | _ => simp [frame, Frame.modifyBlock] at block

theorem modifyFirst_like {f g : Scope → Option Scope} {as bs : List Scope}
    (related : List.Forall₂ (Scope.Like σ) as bs)
    (each : ∀ a b, a.Like σ b → Option.Rel (Scope.Like σ) (f a) (g b)) :
    Option.Rel (List.Forall₂ (Scope.Like σ)) (modifyFirst f as) (modifyFirst g bs) := by
  induction related with
  | nil => exact .none
  | @cons a b as bs head tail ih =>
      unfold modifyFirst
      have first := each a b head
      generalize f a = found, g b = found' at first
      cases first with
      | some scope => exact .some (.cons scope tail)
      | none =>
          simp only
          generalize modifyFirst f as = rest, modifyFirst g bs = rest' at ih
          cases ih with
          | none => exact .none
          | some later => exact .some (.cons head later)

theorem Like.modifyInnermost (like : s.Like σ t) {f g : Scope → Option Scope}
    (each : ∀ a b, a.Like σ b → Option.Rel (Scope.Like σ) (f a) (g b))
    (left : ∀ a b, f a = some b → a.Reframed σ b) (right : ∀ a b, g a = some b → a.Reframed σ b) :
    Option.Rel (ScopeStack.Like σ) (s.modifyInnermost f) (t.modifyInnermost g) := by
  obtain ⟨opened, base⟩ := opened_like like.scopes
  have changed := modifyFirst_like opened each
  unfold ScopeStack.modifyInnermost
  cases first : modifyFirst f s.opened with
  | none =>
      cases second : modifyFirst g t.opened with
      | none => exact .none
      | some => rw [first, second] at changed; cases changed
  | some as =>
      cases second : modifyFirst g t.opened with
      | none => rw [first, second] at changed; cases changed
      | some bs =>
          rw [first, second] at changed
          cases changed with
          | some scopes =>
              have kept := modifyFirst_related Scope.reframed_refl left first
              have kept' := modifyFirst_related Scope.reframed_refl right second
              exact .some ⟨List.rel_append scopes (.cons base .nil), like.nodes.kept
                (List.rel_append kept (.cons s.base.reframed_refl .nil))
                (List.rel_append kept' (.cons t.base.reframed_refl .nil))⟩

theorem reframed_class (f : ClassDeclaration → ClassDeclaration) (a b : Scope)
    (changed : (match a.frame with
      | .class id c => some { a with frame := .class id (f c) }
      | _ => none) = some b) : a.Reframed σ b := by
  split at changed
  next => cases changed; exact ⟨rfl, fun _ _ _ block => by cases block⟩
  next => cases changed

theorem Like.modifyClass? (like : s.Like σ t) {f g : ClassDeclaration → ClassDeclaration}
    (keeps : ∀ id (c d : ClassDeclaration), c.Like σ (.inClass id c.name) d →
      (f c).Like σ (.inClass id (f c).name) (g d)) :
    Option.Rel (ScopeStack.Like σ) (s.modifyClass? f) (t.modifyClass? g) := by
  refine like.modifyInnermost (fun a b scope => ?_) (reframed_class f) (reframed_class g)
  obtain ⟨frame, discard⟩ := scope
  generalize shown : a.frame = p, shown' : b.frame = q at frame
  cases frame with
  | «class» related => exact .some ⟨.class (keeps _ _ _ related), discard⟩
  | _ => exact .none

theorem reframed_local (name : String) (f : LocalVariable → LocalVariable) (a b : Scope)
    (changed : (match a.frame with
      | .block k b =>
          if b.locals.contains name then
            some { a with frame := .block k { b with locals := b.locals.modify name f } }
          else none
      | _ => none) = some b) : a.Reframed σ b := by
  split at changed
  next kind block frame =>
    split at changed
    next =>
      cases changed
      refine ⟨rfl, fun within c o same body => ?_⟩
      cases same
      exact within block o frame body
    next => cases changed
  next => cases changed

theorem Like.modifyLocal (like : s.Like σ t) (name : String) (f : LocalVariable → LocalVariable) :
    (s.modifyLocal name f).Like σ (t.modifyLocal name f) := by
  unfold ScopeStack.modifyLocal
  rw [lookupLocal?_like like.scopes]
  cases s.lookupLocal? name with
  | none => exact like
  | some l =>
      have changed := like.modifyInnermost (fun a b scope => ?_) (reframed_local name f)
        (reframed_local name f)
      · generalize s.modifyInnermost _ = found, t.modifyInnermost _ = found' at changed
        cases changed with
        | none => exact like
        | some changed => exact changed
      · obtain ⟨frame, discard⟩ := scope
        generalize shown : a.frame = p, shown' : b.frame = q at frame
        cases frame with
        | @block kind b c block =>
            simp only [block.locals]
            split
            · refine .some ⟨.block ?_, discard⟩
              exact ⟨rfl, block.uses, block.returnType, block.bodyOf, block.returned,
                block.terminated, block.warned⟩
            · exact .none
        | _ => exact .none

theorem Like.declareLocal? (like : s.Like σ t) (v : Variable) :
    Option.Rel (ScopeStack.Like σ) (s.declareLocal? v) (t.declareLocal? v) := by
  have function := functionScope?_like like.scopes
  have around : t.functionScope?.isNone = s.functionScope?.isNone := by
    generalize s.functionScope? = found, t.functionScope? = found' at function
    cases function <;> rfl
  unfold ScopeStack.declareLocal?
  rw [lookupLocal?_like like.scopes, around, (current_like like.scopes).frame.isBlock,
    functionHeight_like like.scopes]
  split
  · exact .none
  · refine .some (like.modifyCurrentBlock (fun b c block => ?_) fun _ => rfl)
    exact ⟨by rw [block.locals], block.uses, block.returnType, block.bodyOf, block.returned,
      block.terminated, block.warned⟩

theorem reframed_use (id : ModuleId) (a b : Scope)
    (changed : (match a.frame with
      | .block .function b =>
          some { a with
            frame := .block .function
              { b with uses := if b.uses.contains id then b.uses else b.uses ++ [id] } }
      | _ => none) = some b) : a.Reframed σ b := by
  split at changed
  next block frame =>
    cases changed
    refine ⟨rfl, fun within c o same body => ?_⟩
    cases same
    exact within block o frame body
  next => cases changed

theorem Like.addUse? (like : s.Like σ t) (id : ModuleId) :
    Option.Rel (ScopeStack.Like σ) (s.addUse? id) (t.addUse? id) := by
  refine like.modifyInnermost (fun a b scope => ?_) (reframed_use id) (reframed_use id)
  obtain ⟨frame, discard⟩ := scope
  generalize shown : a.frame = p, shown' : b.frame = q at frame
  cases frame with
  | @block kind b c block =>
      cases kind with
      | function =>
          refine .some ⟨.block ⟨block.locals, ?_, block.returnType, block.bodyOf, block.returned,
            block.terminated, block.warned⟩, discard⟩
          have same : c.uses.contains id = b.uses.contains id := by
            simp only [List.contains_eq_mem, block.uses.2]
          simp only [same]
          split
          · exact block.uses
          · refine ⟨fun exact => by rw [block.uses.1 exact], fun other => ?_⟩
            rw [List.mem_append, List.mem_append, block.uses.2]
      | _ => exact .none
  | _ => exact .none

end Change

end ScopeStack

end MiLanguage
