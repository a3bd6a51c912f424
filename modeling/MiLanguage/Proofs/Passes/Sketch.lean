import MiLanguage.Proofs.Analysis.Turns
import MiLanguage.Proofs.Passes.Lockstep

set_option autoImplicit false

namespace MiLanguage

/-- What stays of a scope while it is open. -/
structure Sketch where
  title : Title
  isParent : Bool := false
  discard : Bool := false

def Frame.isParent : Frame → Bool
  | parent _ => true
  | _ => false

def Scope.sketch (s : Scope) : Sketch := ⟨s.frame.title, s.frame.isParent, s.discard⟩

-- The title of a scope that is not discarded.
def Sketch.shown (s : Sketch) : Title := if s.discard then .discarded else s.title

/-- What a statement opens: a declaration or a function, or a block in a block. -/
inductive Opening : Bool → List Sketch → Prop
  | declaration {title : Title} : title.isDeclaration = true → Opening false [⟨title, false, false⟩]
  | function : Opening false [⟨.block .function, false, false⟩]
  | block {kind : BlockKind} :
      kind = .branch ∨ kind = .whileLoop ∨ kind = .doLoop → Opening true [⟨.block kind, false, false⟩]
  | loop : Opening true [⟨.block .forLoop, false, false⟩, ⟨.block .loopHead, false, false⟩]

theorem Opening.isParent {block : Bool} {new : List Sketch} (opens : Opening block new) :
    ∀ s ∈ new, s.isParent = false := by
  cases opens <;> simp

theorem Opening.ne_nil {block : Bool} {new : List Sketch} (opens : Opening block new) : new ≠ [] := by
  cases opens <;> simp

theorem Scope.Updated.sketch {old new : Scope} (updated : old.Updated new) :
    new.sketch = old.sketch := by
  have frame : ∀ {a b : Frame}, a.Updated b → b.isParent = a.isParent := by
    intro a b updated
    cases updated <;> rfl
  unfold Scope.sketch
  rw [updated.frame.title, frame updated.frame, updated.discard]

namespace Environment

def sketches (env : Environment) : List Sketch := env.scopes.all.map Scope.sketch

variable {env after : Environment} {setting : Setting}

theorem titles_eq_sketches (env : Environment) : env.titles = env.sketches.map Sketch.shown := by
  rw [titles, sketches, List.map_map]
  rfl

theorem length_sketches (env : Environment) : env.sketches.length = env.scopes.depth := by
  rw [← length_titles, titles_eq_sketches, List.length_map]

@[simp] theorem sketches_push (frame : Frame) (n : Node) :
    (env.push frame n).sketches = ⟨frame.title, frame.isParent, false⟩ :: env.sketches := rfl

theorem sketches_modifyCurrent {f : Scope → Scope}
    (same : (f env.scopes.current).sketch = env.scopes.current.sketch) :
    ({ env with scopes := env.scopes.modifyCurrent f } : Environment).sketches = env.sketches := by
  obtain ⟨outer, all, changed⟩ := env.scopes.all_eq_current
  simp only [sketches, all, changed, List.map_cons, same]

theorem Updated.sketches (updated : env.Updated after) : after.sketches = env.sketches := by
  have all := updated.scopes.all
  unfold Environment.sketches
  generalize env.scopes.all = old at all
  generalize after.scopes.all = new at all
  induction all with
  | nil => rfl
  | cons head _ ih => rw [List.map_cons, List.map_cons, head.sketch, ih]

@[simp] theorem sketches_append (n : Node) : (env.append setting n).sketches = env.sketches := by
  unfold Environment.append
  split
  next => rfl
  next => exact sketches_modifyCurrent rfl

@[simp] theorem inLibrary_append (n : Node) : (env.append setting n).inLibrary = env.inLibrary := by
  unfold Environment.append
  split <;> rfl

theorem sketches_modifyBlock {f : Block → Block} : (env.modifyBlock f).sketches = env.sketches := by
  apply sketches_modifyCurrent
  unfold Scope.sketch
  cases env.scopes.current.frame <;> rfl

theorem sketches_modifyFrame {frame : Frame} (title : frame.title = env.frame.title)
    (parent : frame.isParent = env.frame.isParent) :
    ({ env with scopes := env.scopes.modifyCurrent ({ · with frame }) } : Environment).sketches =
      env.sketches := by
  apply sketches_modifyCurrent
  unfold Scope.sketch
  rw [title, parent]
  rfl

theorem sketches_modifyFirst {f : Scope → Option Scope} {old new : List Scope}
    (each : ∀ a b, f a = some b → b.sketch = a.sketch)
    (changed : ScopeStack.modifyFirst f old = some new) :
    new.map Scope.sketch = old.map Scope.sketch := by
  have related := ScopeStack.modifyFirst_related (R := fun a b => b.sketch = a.sketch)
    (fun _ => rfl) each changed
  clear changed
  induction related with
  | nil => rfl
  | cons head _ ih => rw [List.map_cons, List.map_cons, head, ih]

theorem sketches_modifyClass? {f : ClassDeclaration → ClassDeclaration} {scopes : ScopeStack}
    (changed : env.scopes.modifyClass? f = some scopes) (named : ∀ c, (f c).name = c.name) :
    ({ env with scopes } : Environment).sketches = env.sketches := by
  obtain ⟨opened, found, rfl⟩ := Option.map_eq_some_iff.mp changed
  have same := sketches_modifyFirst (by
    intro a b same
    split at same
    next id c frame =>
      cases same
      unfold Scope.sketch
      rw [frame]
      simp [Frame.title, Frame.isParent, named]
    next => cases same) found
  simp [Environment.sketches, ScopeStack.all, same]

theorem sketches_addFunction? {f : FunctionDefinition} (added : env.addFunction? f = some after) :
    after.sketches = env.sketches ∧ after.inLibrary = env.inLibrary := by
  unfold addFunction? at added
  split at added
  next => cases added
  next =>
    obtain ⟨methods, _, added⟩ := Option.bind_eq_some_iff.mp added
    obtain ⟨scopes, changed, same⟩ := Option.bind_eq_some_iff.mp added
    cases same
    exact ⟨sketches_modifyClass? changed fun _ => rfl, rfl⟩
  next =>
    obtain ⟨modules, _, same⟩ := Option.map_eq_some_iff.mp added
    cases same
    exact ⟨rfl, rfl⟩

theorem sketches_declareVariable? {placement : Placement} {v : Variable}
    (found : env.declareVariable? placement v = some after) :
    after.sketches = env.sketches ∧ after.inLibrary = env.inLibrary := by
  cases placement with
  | inBlock =>
      have updated := updated_declareLocal found
      exact ⟨updated.sketches, updated.inLibrary⟩
  | global =>
      simp only [declareVariable?] at found
      split at found
      next => cases found
      next => cases found; exact ⟨rfl, rfl⟩
  | field =>
      simp only [declareVariable?] at found
      split at found
      next => cases found
      next =>
        obtain ⟨scopes, changed, same⟩ := Option.map_eq_some_iff.mp found
        cases same
        exact ⟨sketches_modifyClass? changed fun _ => rfl, rfl⟩

theorem Defines.sketches {placement : Placement} {n : Node} (defines : env.Defines placement after n) :
    after.sketches = env.sketches ∧ after.inLibrary = env.inLibrary := by
  obtain ⟨_, _, _, added⟩ := defines
  exact sketches_declareVariable? added

/-- What a statement leaves of the scopes and of the library's right to stand at root level. -/
structure Leaves (env after : Environment) (head : Token) (tail : List Token) : Prop where
  scopes : after.sketches = env.sketches ∨ Ends head tail .leftBrace ∧
    ∃ new, Opening env.frame.isBlock new ∧ after.sketches = new ++ env.sketches
  inLibrary : after.inLibrary = env.inLibrary ∨
    head.kind = .keyword .libraryEnd ∧ env.scopes.depth = 1 ∧ after.inLibrary = false

end Environment

open Environment in
theorem Accepts.leaves {env : Environment} {setting : Setting} {mods : LeadingModifiers}
    {head : Token} {tail : List Token} {accepted : Accepted}
    (accepts : Accepts env setting mods head tail accepted) :
    env.Leaves (accepted.settled setting) head tail := by
  have kept : (accepted.settled setting).sketches = accepted.environment.sketches ∧
      (accepted.settled setting).inLibrary = accepted.environment.inLibrary := by
    unfold Accepted.settled
    split
    next => exact ⟨sketches_append _, inLibrary_append _⟩
    next => exact ⟨rfl, rfl⟩
  suffices leaves : env.Leaves accepted.environment head tail by
    refine ⟨?_, ?_⟩
    · rw [kept.1]
      exact leaves.scopes
    · rw [kept.2]
      exact leaves.inLibrary
  have stays : ∀ {after : Environment}, after.sketches = env.sketches →
      after.inLibrary = env.inLibrary → env.Leaves after head tail :=
    fun same inLibrary => ⟨.inl same, .inl inLibrary⟩
  have opens : ∀ {after : Environment} (new : List Sketch), Ends head tail .leftBrace →
      Opening env.frame.isBlock new → after.sketches = new ++ env.sketches →
      after.inLibrary = env.inLibrary → env.Leaves after head tail :=
    fun new ends opens same inLibrary => ⟨.inr ⟨ends, new, opens, same⟩, .inl inLibrary⟩
  have declares : ∀ {title : Title}, env.frame.isModule = true → title.isDeclaration = true →
      Opening env.frame.isBlock [⟨title, false, false⟩] := by
    intro title isModule declaration
    rw [isBlock_of_isModule isModule]
    exact .declaration declaration
  have body : ∀ (type : Datatype) (owner : BodyOwner) (parameters : List FunctionParameter)
      (place : Token) (n : Node), Ends head tail .leftBrace → env.frame.isBlock = false →
      env.Leaves (env.openBody type owner parameters place n) head tail := by
    intro type owner parameters place n brace bare
    have updated := env.updated_openBody type owner parameters place n
    refine opens [⟨.block .function, false, false⟩] brace ?_ updated.sketches updated.inLibrary
    rw [bare]
    exact .function
  cases accepts with
  | moduleDeclared _ title isModule | moduleEntered _ title isModule
  | classDeclared _ title isModule | classEntered _ title isModule
  | enumDeclared _ title isModule | enumEntered _ title isModule =>
      exact opens _ title.ends (declares isModule (by rfl)) rfl rfl
  | functionOpened _ brace host => exact body _ _ _ _ _ brace (isBlock_of_host host)
  | constructorOpened _ brace frame => exact body _ _ _ _ _ brace (by rw [frame]; rfl)
  | @conditional kind _ _ starts brace block =>
      refine opens [⟨.block kind, false, false⟩] brace ?_ rfl rfl
      rw [block]
      refine .block ?_
      rcases conditional_eq_some starts with ⟨_, same, _⟩ | ⟨_, same, _⟩ <;> simp [same]
  | doLoop _ brace block =>
      refine opens [⟨.block .doLoop, false, false⟩] brace ?_ rfl rfl
      rw [block]
      exact .block (.inr (.inr rfl))
  | forLoop _ brace block defines _ advances =>
      have updated := defines.updated.trans advances.updated
      refine opens [⟨.block .forLoop, false, false⟩, ⟨.block .loopHead, false, false⟩] brace ?_ ?_ ?_
      · rw [block]
        exact .loop
      · simp only [List.foldl_cons, List.foldl_nil, sketches_push, sketches_append, updated.sketches]
        rfl
      · simp only [List.foldl_cons, List.foldl_nil]
        show (Environment.append _ setting _).inLibrary = _
        simp only [inLibrary_append, updated.inLibrary]
        rfl
  | membersDeclared _ _ frame =>
      refine stays (sketches_modifyFrame ?_ ?_) rfl
      · rw [frame]
        rfl
      · rw [frame]
        rfl
  | functionDeclared _ _ _ _ _ _ added =>
      obtain ⟨same, inLibrary⟩ := sketches_addFunction? added
      exact stays same inLibrary
  | nativeDeclared _ _ _ _ _ added =>
      obtain ⟨same, inLibrary⟩ := sketches_addFunction? added
      exact stays same inLibrary
  | constructorDeclared _ _ frame =>
      refine stays (sketches_modifyFrame ?_ ?_) rfl
      · rw [frame]
        rfl
      · rw [frame]
        rfl
  | returned | exited => exact stays sketches_modifyBlock rfl
  | @used id _ _ _ _ =>
      have updated := env.updated_use id
      exact stays updated.sketches updated.inLibrary
  | libraryEnded kind _ level => exact ⟨.inl rfl, .inr ⟨kind, level, rfl⟩⟩
  | variableDefined _ _ _ _ defines =>
      obtain ⟨same, inLibrary⟩ := defines.sketches
      exact stays same inLibrary
  | assigned _ _ _ assigns => exact stays assigns.updated.sketches assigns.updated.inLibrary
  | _ => exact stays rfl rfl

theorem Accepts.endsLibrary {env : Environment} {setting : Setting} {mods : LeadingModifiers}
    {head : Token} {tail : List Token} {accepted : Accepted}
    (accepts : Accepts env setting mods head tail accepted)
    (ends : head.kind = .keyword .libraryEnd) :
    env.scopes.depth = 1 ∧ (accepted.settled setting).inLibrary = false := by
  cases accepts with
  | libraryEnded _ _ level => exact ⟨level, Environment.inLibrary_append _⟩
  | conditional starts =>
      rcases conditional_eq_some starts with ⟨kind, _⟩ | ⟨kind, _⟩ <;> (rw [kind] at ends; cases ends)
  | exited starts =>
      rcases exitKind_eq_some starts with ⟨kind, _⟩ | ⟨kind, _⟩ <;> (rw [kind] at ends; cases ends)
  | variableDefined starts | variableKept starts =>
      rw [startsVariable, ends] at starts
      cases starts
  | moduleDeclared kind | moduleEntered kind | classDeclared kind | classEntered kind
  | classMissing kind | enumDeclared kind | enumEntered kind | enumMissing kind
  | membersDeclared kind | membersKept kind | functionDeclared kind | functionOpened kind
  | nativeDeclared kind | nativeKept kind | constructorDeclared kind | constructorOpened kind
  | doLoop kind | forLoop kind | returned kind | used kind | called kind | assigned kind =>
      rw [kind] at ends
      cases ends

namespace Environment

variable {env after : Environment} {setting : Setting}

theorem sketches_of_pop? {scope : Scope} {scopes : ScopeStack}
    (popped : env.scopes.pop? = some (scope, scopes)) :
    env.sketches = scope.sketch :: ({ env with scopes } : Environment).sketches := by
  simp [sketches, ScopeStack.all_of_pop? popped]

-- The scope of a loop takes the one around it along.
theorem Closes.leaves {scope : Scope} {waiting : Option Node}
    (closes : Closes setting env scope after waiting) : after.inLibrary = env.inLibrary ∧
      ((scope.frame.title = .block .forLoop → scope.discard = true) → after.sketches = env.sketches) ∧
      (scope.frame.title = .block .forLoop → scope.discard = false → ∀ head rest,
        env.sketches = head :: rest → rest ≠ [] → after.sketches = rest) ∧
      (scope.frame.title = .block .function → waiting = none) ∧
      (scope.frame.title.isDeclaration = true → waiting = none) := by
  cases closes with
  | discarded discard =>
      refine ⟨rfl, fun _ => rfl, ?_, fun _ => rfl, fun _ => rfl⟩
      intro _ kept
      rw [discard] at kept
      cases kept
  | «class» _ frame =>
      rw [frame]
      exact ⟨inLibrary_append _, fun _ => sketches_append _, nofun, nofun, fun _ => rfl⟩
  | enum _ frame =>
      rw [frame]
      exact ⟨inLibrary_append _, fun _ => sketches_append _, nofun, nofun, fun _ => rfl⟩
  | module _ isModule =>
      refine ⟨inLibrary_append _, fun _ => sketches_append _, ?_, fun _ => rfl, fun _ => rfl⟩
      intro loop
      have module := isModule_title isModule
      rw [loop] at module
      cases module
  | function _ frame =>
      rw [frame]
      exact ⟨inLibrary_append _, fun _ => sketches_append _, nofun, fun _ => rfl, nofun⟩
  | doLoop _ frame =>
      rw [frame]
      exact ⟨rfl, fun _ => rfl, nofun, nofun, nofun⟩
  | @forLoop b head scopes kept frame popped =>
      have whole := sketches_of_pop? popped
      rw [sketches_append] at whole
      refine ⟨(inLibrary_append _).trans (inLibrary_append _), ?_, ?_, ?_, ?_⟩
      · intro discards
        rw [discards (by rw [frame]; rfl)] at kept
        cases kept
      · intro _ _ top rest same _
        rw [whole] at same
        rw [sketches_append]
        exact (List.cons.inj same).2
      · rw [frame]
        nofun
      · rw [frame]
        nofun
  | @bare b kept frame popped =>
      refine ⟨inLibrary_append _, fun _ => sketches_append _, ?_, ?_, ?_⟩
      · intro _ _ top rest same deep
        have only := (ScopeStack.pop?_eq_none_iff _).mp popped
        rw [← length_sketches, sketches_append, same] at only
        simp only [List.length_cons, Nat.add_eq_right, List.length_eq_zero_iff] at only
        exact absurd only deep
      · rw [frame]
        nofun
      · rw [frame]
        nofun
  | @block kind _ kept frame which =>
      refine ⟨inLibrary_append _, fun _ => sketches_append _, ?_, fun _ => rfl, fun _ => rfl⟩
      intro loop
      rw [frame] at loop
      cases loop
      simp at which

end Environment

end MiLanguage
