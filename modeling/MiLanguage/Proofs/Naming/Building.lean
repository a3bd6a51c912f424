import MiLanguage.Proofs.Analysis.Clean
import MiLanguage.Proofs.Naming.Declared
import MiLanguage.Proofs.Naming.Scopes
import MiLanguage.Proofs.Passes.InStep

set_option autoImplicit false

namespace MiLanguage

theorem Scope.marked_refl (s : Scope) : s.Marked s := ⟨rfl, rfl, .refl _⟩

theorem marked_refl (scopes : List Scope) : List.Forall₂ Scope.Marked scopes scopes :=
  List.forall₂_same.mpr fun scope _ => scope.marked_refl

theorem SymbolTable.map_find?_modify {α β : Type} {f : α → α} {g : α → β}
    (keeps : ∀ a, g (f a) = g a) (t : SymbolTable α) (name other : String) :
    ((t.modify name f).find? other).map g = (t.find? other).map g := by
  rw [find?_modify]
  split
  next same =>
    subst same
    rw [Option.map_map]
    congr 1
    funext a
    exact keeps a
  next => rfl

namespace ScopeStack

variable {s new : ScopeStack}

theorem marked_modifyInnermost {f : Scope → Option Scope} (each : ∀ a b, f a = some b → a.Marked b)
    (changed : s.modifyInnermost f = some new) : List.Forall₂ Scope.Marked s.all new.all := by
  obtain ⟨opened, found, rfl⟩ := Option.map_eq_some_iff.mp changed
  exact List.rel_append (modifyFirst_related Scope.marked_refl each found)
    (.cons s.base.marked_refl .nil)

theorem marked_modifyLocal (s : ScopeStack) (name : String) {f : LocalVariable → LocalVariable}
    (keeps : ∀ l, (f l).declaration.type = l.declaration.type) :
    List.Forall₂ Scope.Marked s.all (s.modifyLocal name f).all := by
  unfold modifyLocal
  split
  next => exact marked_refl _
  next =>
    generalize changed : s.modifyInnermost _ = found
    cases found with
    | none => exact marked_refl _
    | some t =>
        apply marked_modifyInnermost _ changed
        intro a b same
        split at same
        next kind block frame =>
          split at same
          next =>
            cases same
            refine ⟨rfl, rfl, ?_⟩
            rw [frame]
            exact .block fun other => SymbolTable.map_find?_modify keeps _ name other
          next => cases same
        next => cases same

theorem marked_addUse? {id : ModuleId} (added : s.addUse? id = some new) :
    List.Forall₂ Scope.Marked s.all new.all := by
  apply marked_modifyInnermost _ added
  intro a b same
  split at same
  next block frame =>
    cases same
    refine ⟨rfl, rfl, ?_⟩
    rw [frame]
    exact .block fun _ => rfl
  next => cases same

theorem marked_modifyFields {f : SymbolTable Variable → SymbolTable Variable}
    (marks : ∀ fields, SymbolTable.Marked fields (f fields))
    (changed : s.modifyClass? (fun c => { c with fields := f c.fields }) = some new) :
    List.Forall₂ Scope.Marked s.all new.all := by
  apply marked_modifyInnermost _ changed
  intro a b same
  split at same
  next id c frame =>
    cases same
    refine ⟨rfl, rfl, ?_⟩
    rw [frame]
    exact .fields (marks c.fields)
  next => cases same

theorem marked_modifyCurrentBlock {f : Block → Block} (keeps : ∀ b, (f b).locals = b.locals) :
    List.Forall₂ Scope.Marked s.all (s.modifyCurrentBlock f).all := by
  obtain ⟨outer, all, changed⟩ := s.all_eq_current
  rw [modifyCurrentBlock, changed, all]
  refine .cons ⟨rfl, rfl, ?_⟩ (marked_refl outer)
  cases s.current.frame with
  | block kind b => exact .block fun name => by rw [keeps]
  | _ => exact .refl _

end ScopeStack

namespace Environment

/-- What a statement that declares nothing leaves of what names mean. -/
structure Marked (old new : Environment) : Prop where
  modules : old.modules.Updated new.modules
  scopes : List.Forall₂ Scope.Marked old.scopes.all new.scopes.all

variable {env new : Environment}

theorem marked_refl (env : Environment) : env.Marked env := ⟨.refl, MiLanguage.marked_refl _⟩

theorem marked_markInitialized (env : Environment) (v : ResolvedVariable) :
    env.Marked (env.markInitialized v) := by
  unfold markInitialized
  split
  next =>
    refine ⟨.refl, env.scopes.marked_modifyLocal v.name ?_⟩
    exact fun _ => rfl
  next id _ => exact ⟨.marked id v.name .refl, MiLanguage.marked_refl _⟩
  next =>
    refine ⟨.refl, ?_⟩
    dsimp only
    generalize changed : env.scopes.modifyClass? _ = found
    cases found with
    | none => exact MiLanguage.marked_refl _
    | some scopes =>
        exact ScopeStack.marked_modifyFields (fun fields => fields.marked_modify v.name) changed

theorem marked_use (env : Environment) (id : ModuleId) :
    env.Marked { env with scopes := (env.scopes.addUse? id).getD env.scopes } := by
  refine ⟨.refl, ?_⟩
  dsimp only
  cases added : env.scopes.addUse? id with
  | none => exact MiLanguage.marked_refl _
  | some scopes => exact ScopeStack.marked_addUse? added

theorem marked_modifyBlock {f : Block → Block} (keeps : ∀ b, (f b).locals = b.locals) :
    env.Marked (env.modifyBlock f) :=
  ⟨.refl, ScopeStack.marked_modifyCurrentBlock keeps⟩

theorem Warned.marks (warns : env.Warned new) : env.Marked new := by
  cases warns with
  | same => exact env.marked_refl
  | marked => exact marked_modifyBlock fun _ => rfl

theorem Assigns.marked {implied : Bool} {n : Node} (assigns : env.Assigns implied new n) :
    env.Marked new := by
  obtain ⟨_, _, _, _, _, _, _⟩ := assigns
  exact env.marked_markInitialized _

theorem Advances.marked {implied : Bool} {n : Node} (advances : env.Advances implied new n) :
    env.Marked new := by
  cases advances with
  | assigns assigns => exact assigns.marked
  | calls => exact env.marked_refl

end Environment

variable {t : ModuleTree} {asks : Sight → Node → Prop} {s here : Sight} {scope scope' : Scope} {outer outer' : List Scope}
  {n : Node} {new : List Node}

/-- The node of an open scope as far as it is built. It stands where `s` is in sight, and the next
statement in it where `here` is. -/
structure Scope.Grows (t : ModuleTree) (asks : Sight → Node → Prop) (s : Sight) (scope : Scope)
    (here : Sight) : Prop where
  untyped : scope.node.type = none
  plain : scope.node.kind.asked = false
  silent : scope.node.kind.introduces = false
  condition : scope.node.kind ≠ .condition
  titled : scope.node.kind = .createModule ∨ scope.node.kind = .createClass →
    scope.node.title?.isSome = true
  loop : scope.node.kind = .doStatement ↔ scope.sketch.title = .block .doLoop
  body : scope.node.kind = .doStatement → ∀ c ∈ scope.node.children, c.kind ≠ .condition
  children : ThroughoutAll (t.Sound asks) (s.inside scope.node) scope.node.children
  sight : (s.inside scope.node).afterAll scope.node.children = here

namespace Scope.Grows

theorem throughout (grows : scope.Grows t asks s here) : Throughout (t.Sound asks) s scope.node := by
  have sound : t.Sound asks s scope.node := ModuleTree.sound_untyped grows.untyped grows.plain
  by_cases loop : scope.node.kind = .doStatement
  · have plain := grows.body loop
    have children := grows.children
    rw [s.inside_doStatement loop] at children
    refine .doLoop sound loop (fun c member condition => absurd condition (plain c member)) ?_
    rw [List.filter_eq_self.mpr fun c member => by simpa using plain c member]
    exact children
  · exact .node sound loop grows.children

theorem grow (grows : scope.Grows t asks s here) (sketch : scope'.sketch = scope.sketch)
    (node : scope'.node = scope.node.withChildren new) (throughout : ThroughoutAll (t.Sound asks) here new)
    (body : scope.node.kind = .doStatement → ∀ c ∈ new, c.kind ≠ .condition) :
    scope'.Grows t asks s (here.afterAll new) := by
  have inside := s.inside_withChildren grows.titled new
  have kind : scope'.node.kind = scope.node.kind := by rw [node]; rfl
  have children : scope'.node.children = scope.node.children ++ new := by rw [node]; rfl
  refine ⟨?_, ?_, ?_, ?_, ?_, ?_, ?_, ?_, ?_⟩
  · rw [node]
    exact grows.untyped
  · rw [kind]
    exact grows.plain
  · rw [kind]
    exact grows.silent
  · rw [kind]
    exact grows.condition
  · intro which
    rw [kind] at which
    have titled := grows.titled which
    rw [node, Node.title_withChildren titled]
    exact titled
  · rw [kind, sketch]
    exact grows.loop
  · intro loop c member
    rw [kind] at loop
    rw [children, List.mem_append] at member
    exact member.elim (grows.body loop c) (body loop c)
  · rw [node, inside]
    refine grows.children.append ?_
    rw [grows.sight]
    exact throughout
  · rw [node, inside]
    show (s.inside scope.node).afterAll (scope.node.children ++ new) = _
    rw [Sight.afterAll_append, grows.sight]

end Scope.Grows

theorem Scope.Marked.sketch (marked : scope.Marked scope') : scope'.sketch = scope.sketch := by
  have frame : ∀ {a b : Frame}, a.Marked b → b.title = a.title ∧ b.isParent = a.isParent := by
    intro a b marked
    cases marked <;> exact ⟨rfl, rfl⟩
  unfold Scope.sketch
  rw [(frame marked.frame).1, (frame marked.frame).2, marked.discard]

/-- The open scopes, of which none is discarded, hold the tree as far as it is built. -/
inductive Grown (t : ModuleTree) (asks : Sight → Node → Prop) : List Scope → Sight → Prop
  | base {scope : Scope} {here : Sight} :
      scope.discard = false → scope.Grows t asks {} here → Stands t true [scope] here →
      Grown t asks [scope] here
  | inner {scope : Scope} {outer : List Scope} {s here : Sight} :
      Grown t asks outer s → scope.discard = false → scope.Grows t asks s here →
      Stands t true (scope :: outer) here → Grown t asks (scope :: outer) here

namespace Grown

variable {scopes scopes' : List Scope}

theorem stands (grown : Grown t asks scopes here) : Stands t true scopes here := by
  cases grown with
  | base _ _ stands => exact stands
  | inner _ _ _ stands => exact stands

theorem ne_nil (grown : Grown t asks scopes here) : scopes ≠ [] := by
  cases grown <;> exact List.cons_ne_nil _ _

theorem kept (grown : Grown t asks scopes here) : ∀ scope ∈ scopes, scope.discard = false := by
  induction grown with
  | base kept => simpa using kept
  | inner _ kept _ _ ih => simpa using ⟨kept, ih⟩

theorem frames (marked : List.Forall₂ Scope.Marked scopes scopes') :
    List.Forall₂ (fun a b : Scope => a.frame.Marked b.frame) scopes scopes' :=
  marked.imp fun _ _ marked => marked.frame

theorem marked (grown : Grown t asks scopes here) (marked : List.Forall₂ Scope.Marked scopes scopes') :
    Grown t asks scopes' here := by
  have grows : ∀ {a b : Scope} {s here : Sight}, a.Marked b → a.Grows t asks s here → b.Grows t asks s here :=
    fun marked grows => grows.grow marked.sketch (show _ = Node.withChildren _ [] by
      rw [marked.node, Node.withChildren_nil]) .nil fun _ => nofun
  induction grown generalizing scopes' with
  | base kept here stands =>
      have stands' := stands.marked (frames marked)
      cases marked with
      | cons head tail =>
          cases tail
          exact .base (head.discard.trans kept) (grows head here) stands'
  | inner _ kept here stands ih =>
      have stands' := stands.marked (frames marked)
      cases marked with
      | cons head tail => exact .inner (ih tail) (head.discard.trans kept) (grows head here) stands'

theorem grow (grown : Grown t asks (scope :: outer) here)
    (outers : List.Forall₂ Scope.Marked outer outer') (sketch : scope'.sketch = scope.sketch)
    (node : scope'.node = scope.node.withChildren new) (throughout : ThroughoutAll (t.Sound asks) here new)
    (body : scope.node.kind = .doStatement → ∀ c ∈ new, c.kind ≠ .condition)
    (stands : Stands t true (scope' :: outer') (here.afterAll new)) :
    Grown t asks (scope' :: outer') (here.afterAll new) := by
  have kept : scope'.discard = scope.discard := congrArg Sketch.discard sketch
  cases grown with
  | base base grows =>
      cases outers
      exact .base (kept.trans base) (grows.grow sketch node throughout body) stands
  | inner around inner grows =>
      exact .inner (around.marked outers) (kept.trans inner) (grows.grow sketch node throughout body)
        stands

theorem closed (grown : Grown t asks (scope :: outer) here) (deep : outer ≠ []) :
    ∃ s, Grown t asks outer s ∧ scope.Grows t asks s here := by
  cases grown with
  | base => exact absurd rfl deep
  | inner around _ grows => exact ⟨_, around, grows⟩

end Grown

theorem Scope.Grows.locals (grows : scope.Grows t asks s here) : scope.node.locals = [] :=
  Node.locals_of_kind grows.silent

namespace Grown

theorem append (grown : Grown t asks (scope :: outer) here) (throughout : Throughout (t.Sound asks) here n)
    (silent : n.locals = [] ∨ here.body = false) (condition : n.kind ≠ .condition) :
    Grown t asks ({ scope with node := scope.node.push n } :: outer) here := by
  have same : here.afterAll [n] = here := by
    rcases silent with silent | outside
    · exact here.after_of_locals silent
    · exact here.after_of_body n outside
  have stands := grown.stands
  rw [← same]
  refine grown.grow (List.forall₂_same.mpr fun scope _ => ⟨rfl, rfl, .refl _⟩) rfl rfl
    (.cons throughout .nil) (fun _ => by simpa using condition) ?_
  rw [same]
  exact stands.marked (.cons (.refl _) (List.forall₂_same.mpr fun scope _ => .refl _))

theorem closeAll {opened : List Scope} {base : Scope} {inner : List Node}
    (grown : Grown t asks (opened ++ [base]) here) (throughout : ThroughoutAll (t.Sound asks) here inner)
    (conditions : ∀ c ∈ inner, c.kind ≠ .condition) :
    Throughout (t.Sound asks) {} (base.node.withChildren (opened.foldl
      (fun inner scope => if scope.discard then [] else [scope.node.withChildren inner]) inner)) := by
  have node : ∀ {scope : Scope} {s here : Sight} {inner : List Node}, scope.Grows t asks s here →
      ThroughoutAll (t.Sound asks) here inner → (∀ c ∈ inner, c.kind ≠ .condition) →
      ({ scope with node := scope.node.withChildren inner } : Scope).Grows t asks s
        (here.afterAll inner) :=
    fun grows throughout conditions => grows.grow rfl rfl throughout fun _ => conditions
  induction opened generalizing here inner with
  | nil =>
      cases grown with
      | base _ grows => exact (node grows throughout conditions).throughout
      | inner around => exact absurd rfl around.ne_nil
  | cons scope opened ih =>
      obtain ⟨s, around, grows⟩ := grown.closed (by simp)
      have kept := grown.kept scope (by simp)
      have closed := node grows throughout conditions
      rw [List.foldl_cons, if_neg (by simp [kept])]
      exact ih around (.cons closed.throughout .nil) (by simpa using closed.condition)

end Grown

/-- The scopes from a rejected statement on, of which nothing stays. -/
inductive Hidden : List Sketch → Prop
  | recovery {s : Sketch} : s.discard = true → Hidden [s]
  | inner {s : Sketch} {rest : List Sketch} :
      (s.title = .block .forLoop → s.discard = true) → Hidden rest → Hidden (s :: rest)
  | loop {rest : List Sketch} : Hidden rest →
      Hidden (⟨.block .forLoop, false, false⟩ :: ⟨.block .loopHead, false, false⟩ :: rest)

end MiLanguage
