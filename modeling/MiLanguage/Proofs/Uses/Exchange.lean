import MiLanguage.Proofs.Control.Run
import MiLanguage.Proofs.Uses.Clauses

set_option autoImplicit false

namespace MiLanguage

section Nodes

variable {run others : List Node} {m n : Node}

/-- Two trees that differ in one place at most, where `others` stand instead of `run`. -/
inductive Node.Exchanged (run others : List Node) : Node → Node → Prop
  | here (n : Node) (front back : List Node) :
      Exchanged run others { n with children := front ++ run ++ back }
        { n with children := front ++ others ++ back }
  | inside {c d : Node} (n : Node) (front back : List Node) :
      Exchanged run others c d →
      Exchanged run others { n with children := front ++ c :: back }
        { n with children := front ++ d :: back }

theorem Node.Exchanged.push (exchanged : m.Exchanged run others n) (child : Node) :
    (m.push child).Exchanged run others (n.push child) := by
  cases exchanged with
  | here n front back =>
      simp only [Node.push, List.append_assoc]
      simp only [← List.append_assoc front]
      exact .here n front (back ++ [child])
  | inside n front back exchanged =>
      simp only [Node.push, List.append_assoc, List.cons_append]
      exact .inside n front (back ++ [child]) exchanged

theorem Node.Exchanged.nest (exchanged : m.Exchanged run others n) (around : Node) :
    (around.push m).Exchanged run others (around.push n) :=
  .inside around around.children [] exchanged

theorem Node.foldl_push (ns : List Node) (n : Node) :
    ns.foldl Node.push n = { n with children := n.children ++ ns } := by
  induction ns generalizing n with
  | nil => cases n; simp
  | cons c ns ih => simp [ih, Node.push]

end Nodes

/-- The same definition, but that what is stored as its body may be another tree. -/
inductive FunctionDefinition.Rebuilt (nodes : Node → Node → Prop) (mine : Prop)
    (f : FunctionDefinition) : FunctionDefinition → Prop
  | same : Rebuilt nodes mine f f
  | body {m n : Node} : mine → nodes m n → f.body = .tree m →
      Rebuilt nodes mine f { f with body := .tree n }

namespace FunctionDefinition.Rebuilt

variable {nodes : Node → Node → Prop} {mine : Prop} {f g : FunctionDefinition} {m n : Node}

theorem bare (rebuilt : f.Rebuilt nodes mine g) : g.bare = f.bare := by cases rebuilt <;> rfl

theorem paramTypes (rebuilt : f.Rebuilt nodes mine g) : g.paramTypes = f.paramTypes := by
  cases rebuilt <;> rfl

theorem filled (rebuilt : f.Rebuilt nodes mine g) (bodies : n = m ∨ nodes m n ∧ mine) :
    ({ f with body := .tree m } : FunctionDefinition).Rebuilt nodes mine
      { g with body := .tree n } := by
  have same : ({ g with body := .tree n } : FunctionDefinition) =
      { ({ f with body := .tree m } : FunctionDefinition) with body := .tree n } := by
    cases rebuilt <;> rfl
  rw [same]
  rcases bodies with rfl | ⟨differ, mine⟩
  · exact .same
  · exact .body mine differ rfl

-- The same holds of lists of them.
theorem all_bare {R : FunctionDefinition → FunctionDefinition → Prop}
    (bare : ∀ f g, R f g → g.bare = f.bare) {fs gs : List FunctionDefinition}
    (related : List.Forall₂ R fs gs) :
    gs.map FunctionDefinition.bare = fs.map FunctionDefinition.bare := by
  induction related with
  | nil => rfl
  | cons head _ ih => rw [List.map_cons, List.map_cons, bare _ _ head, ih]

theorem all_filled (mine : List Datatype → Prop) {fs gs : List FunctionDefinition}
    {types : List Datatype}
    (related : List.Forall₂ (fun f g => f.Rebuilt nodes (mine f.paramTypes) g) fs gs)
    (bodies : n = m ∨ nodes m n ∧ mine types) :
    List.Forall₂ (fun f g => f.Rebuilt nodes (mine f.paramTypes) g)
      (FunctionTable.modifyFirst (·.paramTypes = types) ({ · with body := .tree m }) fs)
      (FunctionTable.modifyFirst (·.paramTypes = types) ({ · with body := .tree n }) gs) := by
  induction related with
  | nil => exact .nil
  | @cons f g fs gs head tail ih =>
      simp only [FunctionTable.modifyFirst, head.paramTypes, decide_eq_true_eq]
      split
      next known =>
        subst known
        exact .cons (head.filled bodies) tail
      next => exact .cons head ih

end FunctionDefinition.Rebuilt

-- The constructor of a class.
def Owner.constructor? : Owner → Option BodyOwner
  | .module _ => none
  | .inClass id c => some (.constructor id c)

-- Two analyses that differ in the nodes of a run of clauses, and so in the body of the function
-- that they are in.
def Slack.exchange (run others : List Node) (owner : Option BodyOwner) : Slack where
  exact := false
  marked := false
  vars _ _ v w := w = v
  overloads o name := List.Forall₂ fun f g =>
    f.Rebuilt (Node.Exchanged run others) (owner = some (.function o name f.paramTypes)) g
  constructors o f g :=
    f.Rebuilt (Node.Exchanged run others) (o.constructor?.isSome ∧ owner = o.constructor?) g
  nodes := Node.Exchanged run others
  bodies o := owner = some o
  logs l k := k.failed = l.failed
  vars_same same := by subst same; exact ⟨rfl, rfl, fun _ => rfl⟩
  vars_marked same := by subst same; rfl
  overloads_none _ _ := .nil
  overloads_perm related :=
    .of_eq (FunctionDefinition.Rebuilt.all_bare (fun _ _ rebuilt => rebuilt.bare) related)
  overloads_filled {o name types m n fs gs} related bodies :=
    FunctionDefinition.Rebuilt.all_filled
      (fun types => owner = some (.function o name types)) related bodies
  constructors_filled rebuilt bodies :=
    rebuilt.filled (bodies.imp id fun found => ⟨found.1, rfl, found.2⟩)
  nodes_push child exchanged := exchanged.push child
  nodes_nest around exchanged := exchanged.nest around
  logs_report d same := by simp [same]
  logs_error _ same mine theirs := by simp [same, Diagnostic.isError, mine, theirs]
  logs_warning _ same warning := by simp [same, Diagnostic.isError, warning]

theorem Slack.reflexive_exchange (run others : List Node) (owner : Option BodyOwner) :
    (Slack.exchange run others owner).Reflexive where
  vars _ _ _ := rfl
  overloads _ _ _ := List.forall₂_same.mpr fun _ _ => .same
  constructors _ _ := .same

section Owner

-- The function whose body the innermost scopes are.
def Environment.bodyOwner? (env : Environment) : Option BodyOwner :=
  (env.scopes.functionScope?.bind (·.frame.block?)).bind Block.bodyOf

theorem StackSound.bare {scopes : List Scope} (sound : StackSound scopes)
    (headless : headKind? scopes = none) : ∀ s ∈ scopes, s.frame.isFunction = false := by
  induction scopes with
  | nil => simp
  | cons s outer ih =>
      obtain ⟨⟨-, placed, -⟩, below⟩ := sound
      have bare : s.frame.blockKind? = Option.none := by simpa [headKind?] using headless
      generalize frame : s.frame = f at placed bare
      cases placed with
      | declaration _ _ around =>
          refine List.forall_mem_cons.mpr ⟨?_, ih below around⟩
          simp [Frame.isFunction, frame, bare]
      | _ => cases bare

-- There is one function at most around a place.
theorem StackSound.function_unique {scopes : List Scope} (sound : StackSound scopes) {s : Scope}
    (member : s ∈ scopes) (function : s.frame.isFunction = true) :
    scopes.find? (·.frame.isFunction) = some s := by
  induction scopes with
  | nil => cases member
  | cons head outer ih =>
      obtain ⟨⟨-, placed, -⟩, below⟩ := sound
      rw [List.find?_cons]
      cases innermost : head.frame.isFunction with
      | false =>
          rcases List.mem_cons.mp member with rfl | member
          · rw [function] at innermost
            cases innermost
          · exact ih below member
      | true =>
          obtain ⟨b, frame⟩ := Frame.eq_of_isFunction innermost
          rw [frame] at placed
          rcases List.mem_cons.mp member with rfl | member
          · rfl
          · have bare : headKind? outer = none := by
              cases placed with
              | declaration block => cases block
              | function _ _ _ bare => exact bare
              | block builds => cases builds
            rw [below.bare bare s member] at function
            cases function

theorem AnalysisState.Tracked.within {s : AnalysisState} (tracked : s.Tracked)
    {run others : List Node} {scope : Scope} (member : scope ∈ s.environment.scopes.all) :
    scope.Within (.exchange run others s.environment.bodyOwner?) := by
  intro b o frame body
  have found := StackSound.function_unique tracked.scopes member
    (by simp [frame, Frame.isFunction, Frame.blockKind?])
  show s.environment.bodyOwner? = some o
  unfold Environment.bodyOwner? ScopeStack.functionScope?
  rw [found]
  simpa [frame, Frame.block?] using body

end Owner

namespace Puts

variable {S T : ModuleId → Prop} {ns ms : List Node} {as bs cs : List Scope} {σ : Slack}

theorem nodes {a : Scope} (puts : Puts S ns (a :: as) bs) :
    ∃ b later, bs = b :: later ∧ b.node = ns.foldl Node.push a.node ∧
      later.map Scope.node = as.map Scope.node := by
  cases puts with
  | function _ _ _ _ node => exact ⟨_, _, rfl, node, rfl⟩
  | inner _ _ _ node puts => exact ⟨_, _, rfl, node, puts.map_node⟩

theorem like (exact : σ.exact = false) (reflexive : σ.Reflexive) (first : Puts S ns as bs)
    (second : Puts T ms as cs)
    (same : ∀ a c, as.find? (·.frame.isFunction) = some a → a.frame = .block .function c →
      ∀ id, (id ∈ c.uses ∨ T id) ↔ (id ∈ c.uses ∨ S id)) :
    List.Forall₂ (Scope.Like σ) bs cs := by
  have inexact {p : Prop} (is : σ.exact = true) : p := by
    rw [exact] at is
    cases is
  induction first generalizing ms cs with
  | none => cases second; exact .nil
  | @function ns a b c d as frame frame' block discard node =>
      have tail : List.Forall₂ (Scope.Like σ) as as := List.forall₂_same.mpr fun s _ =>
        ⟨Frame.like_of_silenced exact reflexive rfl, rfl⟩
      cases second with
      | inner other => simp [Frame.isFunction, frame, Frame.blockKind?] at other
      | @function _ _ b' _ e _ frame₁ frame₂ block' discard' =>
          rw [frame] at frame₁
          cases frame₁
          have uses := same a c (by simp [frame, Frame.isFunction, Frame.blockKind?]) frame
          have equal := block'.same.trans block.same.symm
          simp only [Block.mk.injEq] at equal
          obtain ⟨locals, -, returnType, bodyOf, returned, terminated, -⟩ := equal
          refine .cons ⟨?_, discard'.trans discard.symm⟩ tail
          rw [frame', frame₂]
          refine .block ⟨locals, ⟨fun is => inexact is, fun id => ?_⟩, returnType, bodyOf, returned,
            terminated, fun is => inexact is⟩
          rw [block'.uses, block.uses, uses]
  | @inner ns a b as bs other frame discard node puts ih =>
      cases second with
      | function frame₁ => simp [Frame.isFunction, frame₁, Frame.blockKind?] at other
      | inner _ frame' discard' _ puts' =>
          refine .cons ⟨Frame.like_of_silenced exact reflexive (frame'.trans frame.symm),
            discard'.trans discard.symm⟩ (ih puts' fun a c found => same a c ?_)
          rw [List.find?_cons, other]
          exact found

end Puts

-- The innermost function has the module in use.
def Environment.Using (env : Environment) (id : ModuleId) : Prop :=
  ∃ a c, env.scopes.functionScope? = some a ∧ a.frame = .block .function c ∧ id ∈ c.uses

instance (env : Environment) (id : ModuleId) : Decidable (env.Using id) :=
  match around : env.scopes.functionScope? with
  | none => isFalse (by simp [Environment.Using, around])
  | some a =>
      match frame : a.frame with
      | .block .function c =>
          decidable_of_iff (id ∈ c.uses) (by simp [Environment.Using, around, frame])
      | .block .branch _ | .block .whileLoop _ | .block .doLoop _ | .block .forLoop _
      | .block .loopHead _ | .parent _ | .module _ | .class _ _ | .enum _ _ =>
          isFalse (by simp [Environment.Using, around, frame])

section Likeness

variable {S T : ModuleId → Prop} {ns ms : List Node} {owner : Option BodyOwner}

theorem Environment.Puts.like {env left right : Environment} (first : env.Puts S ns left)
    (second : env.Puts T ms right) (deep : env.scopes.opened ≠ []) (proper : env.modules.Proper)
    (same : ∀ id, (env.Using id ∨ T id) ↔ (env.Using id ∨ S id))
    (within : ∀ s ∈ left.scopes.all, s.Within (.exchange ns ms owner)) :
    left.Like (.exchange ns ms owner) right := by
  have reflexive := Slack.reflexive_exchange ns ms owner
  refine ⟨?_, ⟨?_, ?_⟩, second.inLibrary.trans first.inLibrary.symm⟩
  · rw [first.modules, second.modules]
    exact ModuleTree.like_refl reflexive proper
  · have base : env.scopes.base.Like (.exchange ns ms owner) env.scopes.base :=
      ⟨Frame.like_of_silenced rfl reflexive rfl, rfl⟩
    unfold ScopeStack.all
    rw [first.base, second.base]
    refine List.rel_append (first.opened.like rfl reflexive second.opened ?_) (.cons base .nil)
    intro a c found frame id
    have around : env.scopes.functionScope? = some a := by
      simp [ScopeStack.functionScope?, ScopeStack.all, found]
    have using_iff : env.Using id ↔ id ∈ c.uses := by
      constructor
      · rintro ⟨a', c', around', frame', member⟩
        rw [around] at around'
        cases around'
        rw [frame] at frame'
        cases frame'
        exact member
      · exact fun member => ⟨a, c, around, frame, member⟩
    rw [← using_iff]
    exact same id
  · have opened := first.opened
    have opened' := second.opened
    unfold ScopeStack.all at within ⊢
    rw [first.base] at within ⊢
    rw [second.base]
    cases scopes : env.scopes.opened with
    | nil => exact absurd scopes deep
    | cons a as =>
        rw [scopes] at opened opened'
        obtain ⟨b, later, shown, node, nodes⟩ := opened.nodes
        obtain ⟨b', later', shown', node', nodes'⟩ := opened'.nodes
        rw [shown] at within ⊢
        rw [shown']
        refine .here ?_ ?_ within
        · show b.node.Exchanged ns ms b'.node
          rw [node, node', Node.foldl_push, Node.foldl_push]
          have exchanged := @Node.Exchanged.here ns ms a.node a.node.children []
          simpa using exchanged
        · simp [nodes, nodes']

namespace AnalysisState

variable {s t v : AnalysisState} {us vs : List UseClause} {text : List Token}

theorem Passes.alike (first : s.Passes us t) (second : (s.facing text).Passes vs v)
    (bodies : s.declaring = false) (deep : s.environment.scopes.opened ≠ [])
    (proper : s.environment.modules.Proper) (tracked : t.Tracked)
    (remaining : v.remaining = t.remaining)
    (same : ∀ id, (s.environment.Using id ∨ UseClause.Named vs s.environment id) ↔
      (s.environment.Using id ∨ UseClause.Named us s.environment id)) :
    t.Idle (.exchange (UseClause.nodes us s.environment) (UseClause.nodes vs s.environment)
      t.environment.bodyOwner?) v where
  declares declaring := by
    rw [first.setting] at declaring
    cases declaring.symm.trans bodies
  setting := second.setting.trans first.setting.symm
  remaining := remaining
  environment := first.puts.like second.puts deep proper same fun _ member => tracked.within member
  mine := first.idle
  theirs := second.idle
  log := second.failed.trans first.failed.symm

end AnalysisState

end Likeness

end MiLanguage
