import MiLanguage.Proofs.Naming.Growing

set_option autoImplicit false

namespace MiLanguage

variable {env after : Environment} {setting : Setting} {old new scopes : List Scope} {n : Node}

theorem Frame.Marked.trans {a b c : Frame} (first : a.Marked b) (second : b.Marked c) :
    a.Marked c := by
  cases first with
  | refl => exact second
  | block same =>
      cases second with
      | refl => exact .block same
      | block same' => exact .block fun name => (same' name).trans (same name)
  | fields marks =>
      cases second with
      | refl => exact .fields marks
      | fields marks' => exact .fields (marks.trans marks')

theorem Scope.Marked.trans {a b c : Scope} (first : a.Marked b) (second : b.Marked c) :
    a.Marked c :=
  ⟨second.node.trans first.node, second.discard.trans first.discard, first.frame.trans second.frame⟩

theorem marked_trans (first : List.Forall₂ Scope.Marked old new)
    (second : List.Forall₂ Scope.Marked new scopes) : List.Forall₂ Scope.Marked old scopes := by
  induction first generalizing scopes with
  | nil => exact second
  | cons head _ ih =>
      cases second with
      | cons head' tail' => exact .cons (head.trans head') (ih tail')

theorem marked_split {upper lower : List Scope}
    (marked : List.Forall₂ Scope.Marked (upper ++ lower) new) :
    ∃ upper' lower', new = upper' ++ lower' ∧ upper'.length = upper.length ∧
      List.Forall₂ Scope.Marked lower lower' := by
  refine ⟨new.take upper.length, new.drop upper.length, (List.take_append_drop _ _).symm, ?_, ?_⟩
  · have length := marked.length_eq
    rw [List.length_append] at length
    rw [List.length_take]
    omega
  · have dropped := List.forall₂_drop upper.length marked
    rwa [List.drop_left] at dropped

-- Below the innermost of the `old` scopes, nothing changes but marks.
def Touches (old new : List Scope) : Prop :=
  ∃ front below, new = front ++ below ∧ front ≠ [] ∧ List.Forall₂ Scope.Marked old.tail below

namespace Touches

theorem of_marked (filled : old ≠ []) (marked : List.Forall₂ Scope.Marked old new) :
    Touches old new := by
  cases marked with
  | nil => exact absurd rfl filled
  | @cons _ top _ below _ tail => exact ⟨[top], below, rfl, by simp, tail⟩

theorem push (filled : old ≠ []) (scope : Scope) : Touches old (scope :: old) := by
  obtain ⟨top, below, rfl⟩ := List.exists_cons_of_ne_nil filled
  exact ⟨[scope, top], below, rfl, by simp, marked_refl below⟩

theorem top (scope scope' : Scope) (below : List Scope) :
    Touches (scope :: below) (scope' :: below) :=
  ⟨[scope'], below, rfl, by simp, marked_refl below⟩

theorem trans (first : Touches old new) (second : Touches new scopes) : Touches old scopes := by
  obtain ⟨front, below, rfl, filled, marked⟩ := first
  obtain ⟨front', below', rfl, filled', marked'⟩ := second
  obtain ⟨top, front, rfl⟩ := List.exists_cons_of_ne_nil filled
  obtain ⟨between, lower, rfl, _, marked''⟩ := marked_split marked'
  refine ⟨front' ++ between, lower, (List.append_assoc _ _ _).symm, by simp [filled'], ?_⟩
  exact marked_trans marked marked''

end Touches

namespace Environment

-- What a statement of the second pass leaves of the scopes.
def Touches (env after : Environment) : Prop :=
  MiLanguage.Touches env.scopes.all after.scopes.all

theorem Marked.touches (marked : env.Marked after) : env.Touches after :=
  .of_marked env.scopes.all_ne_nil marked.scopes

theorem touches_push (env : Environment) (frame : Frame) (n : Node) : env.Touches (env.push frame n) :=
  .push env.scopes.all_ne_nil _

theorem touches_modifyCurrent (f : Scope → Scope) :
    env.Touches { env with scopes := env.scopes.modifyCurrent f } := by
  obtain ⟨outer, all, changed⟩ := env.scopes.all_eq_current
  unfold Environment.Touches
  rw [all, changed]
  exact .top _ _ _

theorem touches_append (pass : setting.declaring = false) (env : Environment) (n : Node) :
    env.Touches (env.append setting n) := by
  rw [append, if_neg (by simp [pass])]
  exact touches_modifyCurrent _

theorem touches_appendAll (pass : setting.declaring = false) (nodes : List Node) :
    env.Touches (nodes.foldl (fun env node => env.append setting node) env) := by
  induction nodes generalizing env with
  | nil => exact env.marked_refl.touches
  | cons n nodes ih => exact (touches_append pass env n).trans ih

theorem touches_declareLocal {scopes : ScopeStack} {v : Variable}
    (added : env.scopes.declareLocal? v = some scopes) : env.Touches { env with scopes } := by
  unfold ScopeStack.declareLocal? at added
  split at added
  next => cases added
  next =>
    cases added
    exact touches_modifyCurrent _

theorem touches_parameters (parameters : List FunctionParameter) (place : Token) :
    env.Touches (parameters.foldl (declareParameter place) env) := by
  induction parameters generalizing env with
  | nil => exact env.marked_refl.touches
  | cons p parameters ih =>
      have later : (declareParameter place env p).Touches _ := ih
      refine MiLanguage.Touches.trans ?_ later
      unfold declareParameter
      cases added : env.scopes.declareLocal? (env.parameterVariable place p) with
      | none => exact env.marked_refl.touches
      | some scopes => exact touches_declareLocal added

theorem touches_openBody (type : Datatype) (owner : BodyOwner)
    (parameters : List FunctionParameter) (place : Token) (n : Node) :
    env.Touches (env.openBody type owner parameters place n) := by
  rw [openBody_eq]
  exact MiLanguage.Touches.trans (env.touches_push _ _) (touches_parameters _ _)

theorem Defines.touches (defines : env.Defines .inBlock after n) : env.Touches after := by
  obtain ⟨_, _, _, added⟩ := defines
  obtain ⟨scopes, declares, rfl⟩ := Option.map_eq_some_iff.mp added
  exact touches_declareLocal declares

end Environment

open Environment in
theorem Accepts.touches {mods : LeadingModifiers} {head : Token} {tail : List Token}
    {accepted : Accepted} (pass : setting.declaring = false)
    (accepts : Accepts env setting mods head tail accepted) :
    env.Touches (accepted.settled setting) := by
  have declaring : ¬setting.declaring = true := by simp [pass]
  suffices touches : env.Touches accepted.environment by
    unfold Accepted.settled
    split
    next => exact touches.trans (touches_append pass _ _)
    next => exact touches
  cases accepts with
  | moduleDeclared _ _ _ first | classDeclared _ _ _ first | enumDeclared _ _ _ first
  | membersDeclared _ _ _ first | functionDeclared _ _ _ first | nativeDeclared _ _ _ first
  | constructorDeclared _ _ _ first => exact absurd first declaring
  | moduleEntered | classEntered | enumEntered | conditional | doLoop => exact env.touches_push _ _
  | functionOpened | constructorOpened => exact touches_openBody _ _ _ _ _
  | forLoop _ _ _ defines _ advances =>
      exact ((((env.touches_push _ _).trans defines.touches).trans advances.marked.touches).trans
        (touches_appendAll pass _)).trans (touches_push _ _ _)
  | returned | exited => exact touches_modifyCurrent _
  | used => exact (env.marked_use _).touches
  | variableDefined _ _ _ inBlock defines =>
      rcases inBlock with first | rfl
      · exact absurd first declaring
      · exact defines.touches
  | assigned _ _ _ assigns => exact assigns.marked.touches
  | _ => exact env.marked_refl.touches

/-- What a rejected statement has opened, and below it the scopes that hold the tree. -/
structure Concealed (t : ModuleTree) (asks : Sight → Node → Prop) (scopes upper lower : List Scope) (here : Sight) : Prop where
  split : scopes = upper ++ lower
  hidden : Hidden (upper.map Scope.sketch)
  grown : Grown t asks lower here

theorem Hidden.ne_nil {upper : List Scope} (hidden : Hidden (upper.map Scope.sketch)) :
    upper ≠ [] := by
  rintro rfl
  cases hidden

theorem Hidden.opens {block : Bool} {opened rest : List Sketch} (opens : Opening block opened)
    (hidden : Hidden rest) : Hidden (opened ++ rest) := by
  cases opens with
  | declaration declaration =>
      refine .inner ?_ hidden
      rintro rfl
      cases declaration
  | function => exact .inner nofun hidden
  | block kind =>
      refine .inner ?_ hidden
      intro loop
      cases loop
      simp at kind
  | loop => exact .loop hidden

theorem Hidden.closeAll {upper : List Scope} (hidden : Hidden (upper.map Scope.sketch))
    (inner : List Node) :
    upper.foldl (fun inner scope => if scope.discard then [] else [scope.node.withChildren inner])
      inner = [] := by
  generalize sketched : upper.map Scope.sketch = sketches at hidden
  induction hidden generalizing upper inner with
  | recovery discard =>
      obtain ⟨scope, rfl, rfl⟩ := List.map_eq_singleton_iff.mp sketched
      have discard : scope.discard = true := discard
      simp [discard]
  | inner _ _ ih =>
      obtain ⟨scope, rest, rfl, _, below⟩ := List.map_eq_cons_iff.mp sketched
      rw [List.foldl_cons]
      exact ih _ below
  | loop _ ih =>
      obtain ⟨scope, rest, rfl, _, below⟩ := List.map_eq_cons_iff.mp sketched
      obtain ⟨head, rest, rfl, _, below⟩ := List.map_eq_cons_iff.mp below
      rw [List.foldl_cons, List.foldl_cons]
      exact ih _ below

namespace Concealed

variable {t : ModuleTree} {asks : Sight → Node → Prop} {upper lower : List Scope} {here : Sight}

theorem touches {front : List Sketch} (concealed : Concealed t asks old upper lower here)
    (touches : Touches old new) (sketches : new.map Scope.sketch = front ++ old.map Scope.sketch)
    (hidden : Hidden (front ++ upper.map Scope.sketch)) :
    ∃ upper' lower', Concealed t asks new upper' lower' here := by
  obtain ⟨first, below, rfl, filled, marked⟩ := touches
  obtain ⟨top, upper, rfl⟩ := List.exists_cons_of_ne_nil concealed.hidden.ne_nil
  rw [concealed.split] at marked sketches
  obtain ⟨between, lower', rfl, _, marked⟩ := marked_split marked
  refine ⟨first ++ between, lower', (List.append_assoc _ _ _).symm, ?_, concealed.grown.marked marked⟩
  have same : (first ++ between).map Scope.sketch = front ++ (top :: upper).map Scope.sketch := by
    have sketches : (first ++ between).map Scope.sketch ++ lower'.map Scope.sketch =
        (front ++ (top :: upper).map Scope.sketch) ++ lower.map Scope.sketch := by
      rw [← List.map_append, List.append_assoc, sketches, List.map_append, List.append_assoc]
    exact (List.append_inj' sketches (by simp [marked.length_eq])).1
  rw [same]
  exact hidden

theorem stays (concealed : Concealed t asks old upper lower here) (touches : Touches old new)
    (sketches : new.map Scope.sketch = old.map Scope.sketch) :
    ∃ upper' lower', Concealed t asks new upper' lower' here :=
  concealed.touches touches (show _ = [] ++ _ from sketches) concealed.hidden

theorem recovers (concealed : Concealed t asks old upper lower here) {scope : Scope}
    (discard : scope.discard = true) : Concealed t asks (scope :: old) (scope :: upper) lower here where
  split := by rw [concealed.split]; rfl
  hidden := .inner (fun _ => discard) concealed.hidden
  grown := concealed.grown

end Concealed

namespace Environment

variable {t : ModuleTree} {asks : Sight → Node → Prop} {upper lower : List Scope} {s here : Sight} {scope : Scope}
  {waiting : Option Node}

theorem Closes.touches (pass : setting.declaring = false)
    (closes : Closes setting env scope after waiting)
    (other : scope.frame.title = .block .forLoop → scope.discard = true) : env.Touches after := by
  have declaring : ¬setting.declaring = true := by simp [pass]
  cases closes with
  | discarded | doLoop => exact env.marked_refl.touches
  | «class» | enum =>
      rw [if_neg declaring]
      exact touches_append pass env _
  | module | bare | block => exact touches_append pass env _
  | function =>
      exact touches_append pass { env with modules := _ } _
  | forLoop kept frame =>
      rw [other (by rw [frame]; rfl)] at kept
      cases kept

theorem Closes.conceals (pass : setting.declaring = false)
    (closes : Closes setting env scope after waiting)
    (concealed : Concealed t asks (scope :: env.scopes.all) upper lower here) :
    (waiting = none ∧ Grown t asks after.scopes.all here) ∨
      ∃ upper' lower', Concealed t asks after.scopes.all upper' lower' here := by
  have split := concealed.split
  have hidden := concealed.hidden
  obtain ⟨top, upper, rfl⟩ := List.exists_cons_of_ne_nil hidden.ne_nil
  obtain ⟨rfl, all⟩ := List.cons.inj split
  have sketches := closes.leaves.2.1
  rw [List.map_cons] at hidden
  generalize sketched : scope.sketch = sketch at hidden
  generalize below : upper.map Scope.sketch = rest at hidden
  cases hidden with
  | recovery discard =>
      have discard : scope.discard = true := by rw [← discard, ← sketched]; rfl
      have upper : upper = [] := List.map_eq_nil_iff.mp below
      subst upper
      cases closes with
      | discarded =>
          refine .inl ⟨rfl, ?_⟩
          rw [all]
          exact concealed.grown
      | «class» kept | enum kept | module kept | function kept | doLoop kept | forLoop kept
      | bare kept | block kept => rw [discard] at kept; cases kept
  | inner loop hidden =>
      have other : scope.frame.title = .block .forLoop → scope.discard = true := by
        rw [← sketched] at loop
        exact loop
      have around : Concealed t asks env.scopes.all upper lower here :=
        ⟨all, by rw [below]; exact hidden, concealed.grown⟩
      exact .inr (around.stays (closes.touches pass other) (sketches other))
  | loop hidden =>
      have kept : scope.discard = false := congrArg Sketch.discard sketched
      have frame : scope.frame.title = .block .forLoop := congrArg Sketch.title sketched
      obtain ⟨head, upper, rfl⟩ := List.exists_cons_of_ne_nil
        (show upper ≠ [] by rintro rfl; cases below)
      obtain ⟨_, below⟩ := List.cons.inj below
      have filled : upper ≠ [] := by
        rintro rfl
        cases below
        cases hidden
      have all : env.scopes.all = head :: (upper ++ lower) := all
      cases closes with
      | discarded discard => rw [discard] at kept; cases kept
      | «class» _ other => rw [other] at frame; cases frame
      | enum _ other => rw [other] at frame; cases frame
      | module _ isModule =>
          have module := isModule_title isModule
          rw [frame] at module
          cases module
      | function _ other => rw [other] at frame; cases frame
      | doLoop _ other => rw [other] at frame; cases frame
      | block _ other kind =>
          rw [other] at frame
          cases frame
          simp at kind
      | bare _ _ popped =>
          have deep := (ScopeStack.pop?_eq_none_iff _).mp popped
          rw [depth_append, ← length_sketches, Environment.sketches, all] at deep
          simp [filled] at deep
      | @forLoop _ head' scopes _ _ popped =>
          obtain ⟨outer, all', appended⟩ := all_append pass env scope.node
          rw [all'] at all
          have rest := ScopeStack.all_of_pop? popped
          rw [appended] at rest
          obtain ⟨_, rest⟩ := List.cons.inj rest
          obtain ⟨_, all⟩ := List.cons.inj all
          have around : Concealed t asks scopes.all upper lower here :=
            ⟨rest ▸ all, by rw [below]; exact hidden, concealed.grown⟩
          have touched := touches_append pass
            { env.append setting scope.node with scopes } head'.node
          have same : (({ env.append setting scope.node with scopes } : Environment).append setting
              head'.node).sketches = scopes.all.map Scope.sketch := sketches_append _
          exact .inr (around.stays touched same)

end Environment

end MiLanguage
