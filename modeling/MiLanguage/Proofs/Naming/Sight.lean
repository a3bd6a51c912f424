import MiLanguage.Proofs.Control.Semantics
import MiLanguage.Proofs.Typing.WellTyped

set_option autoImplicit false

namespace MiLanguage

/-- What is in sight at a place in the tree: the modules and the class around it, the class with the
file that its name stands in, and, inside of a function, its parameters and the variables defined so
far, with their types. -/
structure Sight where
  path : List String := []
  owner : Option (String × FileId) := none
  body : Bool := false
  locals : List (String × Datatype) := []

-- What is in a node of these kinds does not see what the node sees.
def NodeKind.encloses : NodeKind → Bool
  | createModule | createClass | functionDefinition | createConstructor | doStatement => true
  | _ => false

-- Nodes of these kinds bring names into sight.
def NodeKind.introduces : NodeKind → Bool
  | varDefinition | varDefAndSetValue | parameters => true
  | _ => false

namespace Node

def title? (n : Node) : Option Token := (n.child? .identifier).bind Node.token

def title (n : Node) : Option String := n.title?.map Token.lexeme

def definition? (n : Node) : Option (String × Datatype) := do
  let name ← n.title
  let type ← n.declaredType?
  some (name, type)

-- The variables that a node brings into sight of the nodes behind it.
def locals (n : Node) : List (String × Datatype) :=
  match n.kind with
  | .varDefinition | .varDefAndSetValue => n.definition?.toList
  | .parameters => n.children.filterMap fun c => if c.kind = .parameter then c.definition? else none
  | _ => []

theorem locals_of_kind {n : Node} (silent : n.kind.introduces = false) : n.locals = [] := by
  unfold locals
  split <;> simp_all [NodeKind.introduces]

theorem title_withChildren {n : Node} (titled : n.title?.isSome = true) (more : List Node) :
    (n.withChildren more).title? = n.title? := by
  unfold title? child? at titled ⊢
  cases found : n.children.find? (·.kind = .identifier) with
  | none => simp [found] at titled
  | some name => simp [Node.withChildren, found]

end Node

namespace Sight

-- What the children of a node see at first.
def inside (s : Sight) (n : Node) : Sight :=
  match n.kind with
  | .createModule => { path := s.path ++ n.title.toList }
  | .createClass => { path := s.path, owner := n.title?.map fun name => (name.lexeme, name.span.fileId) }
  | .functionDefinition | .createConstructor => { path := s.path, owner := s.owner, body := true }
  | _ => s

-- What is in sight behind a node. Only in functions it matters what stands in front.
def after (s : Sight) (n : Node) : Sight :=
  if s.body then { s with locals := s.locals ++ n.locals } else s

theorem inside_of_flat (s : Sight) {n : Node} (flat : n.kind.encloses = false) :
    s.inside n = s := by
  unfold inside
  split <;> simp_all [NodeKind.encloses]

theorem inside_doStatement (s : Sight) {n : Node} (kind : n.kind = .doStatement) :
    s.inside n = s := by
  unfold inside
  rw [kind]

theorem inside_withChildren (s : Sight) {n : Node}
    (titled : n.kind = .createModule ∨ n.kind = .createClass → n.title?.isSome = true)
    (more : List Node) : s.inside (n.withChildren more) = s.inside n := by
  have same : (n.withChildren more).kind = n.kind := rfl
  unfold inside Node.title
  rw [same]
  split
  next kind => rw [Node.title_withChildren (titled (.inl kind))]
  next kind => rw [Node.title_withChildren (titled (.inr kind))]
  next => rfl
  next => rfl
  next => rfl

def afterAll (s : Sight) (ns : List Node) : Sight := ns.foldl after s

@[simp] theorem afterAll_nil (s : Sight) : s.afterAll [] = s := rfl

@[simp] theorem afterAll_cons (s : Sight) (n : Node) (ns : List Node) :
    s.afterAll (n :: ns) = (s.after n).afterAll ns := rfl

theorem afterAll_append (s : Sight) (ns more : List Node) :
    s.afterAll (ns ++ more) = (s.afterAll ns).afterAll more :=
  List.foldl_append

theorem after_of_locals (s : Sight) {n : Node} (silent : n.locals = []) : s.after n = s := by
  unfold after
  rw [silent, List.append_nil, ite_self]

theorem afterAll_of_locals (s : Sight) {ns : List Node} (silent : ∀ n ∈ ns, n.locals = []) :
    s.afterAll ns = s := by
  induction ns with
  | nil => rfl
  | cons n ns ih =>
      rw [afterAll_cons, s.after_of_locals (silent n (by simp))]
      exact ih fun m member => silent m (by simp [member])

theorem after_of_body (s : Sight) (n : Node) (outside : s.body = false) : s.after n = s := by
  unfold after
  rw [outside]
  rfl

@[simp] theorem path_after (s : Sight) (n : Node) : (s.after n).path = s.path := by
  unfold after
  split <;> rfl

@[simp] theorem owner_after (s : Sight) (n : Node) : (s.after n).owner = s.owner := by
  unfold after
  split <;> rfl

@[simp] theorem body_after (s : Sight) (n : Node) : (s.after n).body = s.body := by
  unfold after
  split <;> rfl

@[simp] theorem body_afterAll (s : Sight) (ns : List Node) : (s.afterAll ns).body = s.body := by
  induction ns generalizing s with
  | nil => rfl
  | cons n ns ih => rw [afterAll_cons, ih, body_after]

end Sight

mutual

/-- `holds` is true of a node, where it stands, and of all that is in it. -/
inductive Throughout (holds : Sight → Node → Prop) : Sight → Node → Prop
  | node {s : Sight} {n : Node} :
      holds s n → n.kind ≠ .doStatement → ThroughoutAll holds (s.inside n) n.children →
      Throughout holds s n
  /-- The condition behind a block does not see the variables in it. -/
  | doLoop {s : Sight} {n : Node} :
      holds s n → n.kind = .doStatement →
      (∀ c ∈ n.children, c.kind = .condition → Throughout holds s c) →
      ThroughoutAll holds s (n.children.filter (·.kind ≠ .condition)) → Throughout holds s n

inductive ThroughoutAll (holds : Sight → Node → Prop) : Sight → List Node → Prop
  | nil {s : Sight} : ThroughoutAll holds s []
  | cons {s : Sight} {n : Node} {ns : List Node} :
      Throughout holds s n → ThroughoutAll holds (s.after n) ns → ThroughoutAll holds s (n :: ns)

end

section Throughout

variable {holds weaker : Sight → Node → Prop} {s : Sight} {n : Node} {ns more : List Node}

theorem Throughout.here (throughout : Throughout holds s n) : holds s n := by
  cases throughout with
  | node here => exact here
  | doLoop here => exact here

theorem ThroughoutAll.append (first : ThroughoutAll holds s ns)
    (second : ThroughoutAll holds (s.afterAll ns) more) : ThroughoutAll holds s (ns ++ more) := by
  induction ns generalizing s with
  | nil => exact second
  | cons n ns ih =>
      cases first with
      | cons here rest => exact .cons here (ih rest second)

theorem throughoutAll_of_locals (silent : ∀ n ∈ ns, n.locals = [])
    (each : ∀ n ∈ ns, Throughout holds s n) : ThroughoutAll holds s ns := by
  induction ns with
  | nil => exact .nil
  | cons n ns ih =>
      refine .cons (each n (by simp)) ?_
      rw [s.after_of_locals (silent n (by simp))]
      exact ih (fun m member => silent m (by simp [member])) fun m member => each m (by simp [member])

theorem throughout_of_flat (here : holds s n) (flat : n.kind.encloses = false)
    (children : ThroughoutAll holds s n.children) : Throughout holds s n := by
  refine .node here ?_ ?_
  · intro loop
    rw [loop] at flat
    cases flat
  · rw [s.inside_of_flat flat]
    exact children

mutual

theorem Throughout.mono (weakens : ∀ s n, holds s n → weaker s n) :
    {s : Sight} → {n : Node} → Throughout holds s n → Throughout weaker s n
  | _, _, .node here kind children =>
      .node (weakens _ _ here) kind (ThroughoutAll.mono weakens children)
  | _, _, .doLoop here kind conditions body =>
      .doLoop (weakens _ _ here) kind
        (fun c member condition => Throughout.mono weakens (conditions c member condition))
        (ThroughoutAll.mono weakens body)

theorem ThroughoutAll.mono (weakens : ∀ s n, holds s n → weaker s n) :
    {s : Sight} → {ns : List Node} → ThroughoutAll holds s ns → ThroughoutAll weaker s ns
  | _, _, .nil => .nil
  | _, _, .cons here rest => .cons (Throughout.mono weakens here) (ThroughoutAll.mono weakens rest)

end

mutual

theorem Throughout.every :
    {s : Sight} → {n : Node} → Throughout holds s n → n.Every fun m => ∃ s, holds s m
  | _, _, .node here _ children =>
      Node.every_iff.mpr ⟨⟨_, here⟩, ThroughoutAll.every children⟩
  | _, _, .doLoop here _ conditions body =>
      Node.every_iff.mpr ⟨⟨_, here⟩, fun c member =>
        if condition : c.kind = .condition then Throughout.every (conditions c member condition)
        else ThroughoutAll.every body c (List.mem_filter.mpr ⟨member, by simpa using condition⟩)⟩

theorem ThroughoutAll.every : {s : Sight} → {ns : List Node} → ThroughoutAll holds s ns →
    ∀ n ∈ ns, n.Every fun m => ∃ s, holds s m
  | _, _, .nil => by simp
  | _, _, .cons here rest =>
      List.forall_mem_cons.mpr ⟨Throughout.every here, ThroughoutAll.every rest⟩

end

-- What an expression is made of brings nothing into sight, and hides nothing.
theorem NodeKind.flat_of_inExpression {kind : NodeKind} (inside : kind.inExpression = true) :
    kind.encloses = false := by
  cases kind <;> simp_all [NodeKind.inExpression, NodeKind.isExpression, NodeKind.encloses]

theorem Node.locals_of_inExpression (every : n.Every (·.kind.inExpression = true)) :
    n.locals = [] := by
  have top := every.top
  unfold Node.locals
  split
  next kind => simp [kind, NodeKind.inExpression, NodeKind.isExpression] at top
  next kind => simp [kind, NodeKind.inExpression, NodeKind.isExpression] at top
  next =>
    apply List.filterMap_eq_nil_iff.mpr
    intro c member
    have inside := (every.child member).top
    rw [if_neg]
    intro parameter
    simp [parameter, NodeKind.inExpression, NodeKind.isExpression] at inside
  next => rfl

mutual

theorem throughout_of_every : (n : Node) →
    n.Every (fun m => m.kind.inExpression = true ∧ holds s m) → Throughout holds s n
  | ⟨kind, token, children, line, type⟩, every => by
      obtain ⟨inside, here⟩ := every.top
      refine throughout_of_flat here (NodeKind.flat_of_inExpression inside) ?_
      exact throughoutAll_of_every children fun c member => every.child member

theorem throughoutAll_of_every : (ns : List Node) →
    (∀ n ∈ ns, n.Every (fun m => m.kind.inExpression = true ∧ holds s m)) → ThroughoutAll holds s ns
  | [], _ => .nil
  | n :: ns, each => by
      have here := each n (by simp)
      refine .cons (throughout_of_every n here) ?_
      rw [s.after_of_locals (Node.locals_of_inExpression (here.mono fun _ both => both.1))]
      exact throughoutAll_of_every ns fun m member => each m (by simp [member])

end

end Throughout

end MiLanguage
