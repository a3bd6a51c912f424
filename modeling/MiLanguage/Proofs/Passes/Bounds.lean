import MiLanguage.Proofs.ModulePaths
import MiLanguage.Proofs.Passes.Sketch

set_option autoImplicit false

namespace MiLanguage

variable {env after : Environment} {setting : Setting}

theorem ModuleTree.Arena.updated {old new : ModuleTree} (arena : old.Arena)
    (updated : old.Updated new) : new.Arena := by
  induction updated with
  | refl => exact arena
  | marked id name _ ih => exact ih.modifyMembers id _

theorem ModuleTree.Updated.size {old new : ModuleTree} (updated : old.Updated new) :
    new.size = old.size := by
  induction updated with
  | refl => rfl
  | marked id name _ ih => exact (size_modifyMembers _ _ _).trans ih

theorem ModuleTree.attachBody_modifies (t : ModuleTree) (body : Node) (owner : BodyOwner) :
    ∃ id f, AnalysisState.attachBody t body owner = t.modifyMembers id f := by
  unfold AnalysisState.attachBody ModuleTree.modifyFunction ModuleTree.modifyClass
  split <;> exact ⟨_, _, rfl⟩

/-- The modules hang together, and the open scopes are of modules that are there. -/
structure Environment.Bounded (env : Environment) : Prop where
  arena : env.modules.Arena
  scopes : ∀ s ∈ env.sketches, ∀ id, s.title.moduleId? = some id → id.index < env.modules.size

namespace Environment

theorem currentModule_mem (env : Environment) : env.currentModule = ModuleTree.root ∨
    ∃ s ∈ env.sketches, s.title.moduleId? = some env.currentModule := by
  have found : env.currentModule =
      (env.scopes.all.findSome? (·.frame.moduleId?)).getD ModuleTree.root := rfl
  cases first : env.scopes.all.findSome? (·.frame.moduleId?) with
  | none =>
      rw [first] at found
      exact .inl found
  | some id =>
      rw [first] at found
      obtain ⟨scope, member, here⟩ := List.exists_of_findSome?_eq_some first
      refine .inr ⟨scope.sketch, List.mem_map_of_mem member, ?_⟩
      rw [found]
      exact (Frame.moduleId?_title _).trans here

namespace Bounded

theorem currentModule (bounded : env.Bounded) : env.currentModule.index < env.modules.size := by
  rcases env.currentModule_mem with root | ⟨s, member, here⟩
  · rw [root]
    exact bounded.arena.root
  · exact bounded.scopes s member _ here

theorem of_sketches (bounded : env.Bounded) (arena : after.modules.Arena)
    (size : env.modules.size ≤ after.modules.size) (sketches : after.sketches ⊆ env.sketches) :
    after.Bounded :=
  ⟨arena, fun s member id here =>
    Nat.lt_of_lt_of_le (bounded.scopes s (sketches member) id here) size⟩

theorem updated (bounded : env.Bounded) (updated : env.Updated after) : after.Bounded :=
  bounded.of_sketches (bounded.arena.updated updated.modules) (Nat.le_of_eq updated.modules.size.symm)
    (by rw [updated.sketches]; exact List.Subset.refl _)

theorem push (bounded : env.Bounded) {frame : Frame} {n : Node}
    (inside : ∀ id, frame.moduleId? = some id → id.index < env.modules.size) :
    (env.push frame n).Bounded := by
  refine ⟨bounded.arena, ?_⟩
  intro s member id here
  rw [sketches_push] at member
  rcases List.mem_cons.mp member with rfl | member
  · exact inside id ((Frame.moduleId?_title _).symm.trans here)
  · exact bounded.scopes s member id here

theorem append (bounded : env.Bounded) (n : Node) : (env.append setting n).Bounded := by
  refine bounded.of_sketches ?_ ?_ ?_
  · rw [modules_append]
    exact bounded.arena
  · exact Nat.le_of_eq (by rw [modules_append])
  · rw [sketches_append]
    exact List.Subset.refl _

theorem modifyMembers (bounded : env.Bounded) (id : ModuleId) (f : Members → Members) :
    ({ env with modules := env.modules.modifyMembers id f } : Environment).Bounded :=
  bounded.of_sketches (bounded.arena.modifyMembers id f) (Nat.le_of_eq (by simp))
    (List.Subset.refl _)

theorem addFunction? (bounded : env.Bounded) {f : FunctionDefinition}
    (added : env.addFunction? f = some after) : after.Bounded := by
  have sketches : after.sketches ⊆ env.sketches := by
    rw [(sketches_addFunction? added).1]
    exact List.Subset.refl _
  unfold Environment.addFunction? at added
  split at added
  next => cases added
  next =>
    obtain ⟨methods, _, added⟩ := Option.bind_eq_some_iff.mp added
    obtain ⟨scopes, _, same⟩ := Option.bind_eq_some_iff.mp added
    cases same
    exact bounded.of_sketches bounded.arena (Nat.le_refl _) sketches
  next =>
    obtain ⟨modules, grown, same⟩ := Option.map_eq_some_iff.mp added
    cases same
    obtain ⟨functions, _, rfl⟩ := Option.map_eq_some_iff.mp grown
    exact bounded.modifyMembers _ _

theorem defines (bounded : env.Bounded) {placement : Placement} {n : Node}
    (defines : env.Defines placement after n) : after.Bounded := by
  have sketches : after.sketches ⊆ env.sketches := by
    rw [defines.sketches.1]
    exact List.Subset.refl _
  obtain ⟨_, _, _, added⟩ := defines
  cases placement with
  | inBlock => exact bounded.updated (updated_declareLocal added)
  | global =>
      simp only [declareVariable?] at added
      split at added
      next => cases added
      next =>
        cases added
        exact bounded.modifyMembers _ _
  | field =>
      simp only [declareVariable?] at added
      split at added
      next => cases added
      next =>
        obtain ⟨scopes, _, same⟩ := Option.map_eq_some_iff.mp added
        cases same
        exact bounded.of_sketches bounded.arena (Nat.le_refl _) sketches

theorem openBody (bounded : env.Bounded) (type : Datatype) (owner : BodyOwner)
    (parameters : List FunctionParameter) (place : Token) (n : Node) :
    (env.openBody type owner parameters place n).Bounded := by
  have opened : (env.push (.block .function { Block.function type with bodyOf := some owner })
      n).Bounded := bounded.push nofun
  exact opened.updated (env.updated_openBody type owner parameters place n)

theorem modifyFrame (bounded : env.Bounded) {frame : Frame} (title : frame.title = env.frame.title)
    (parent : frame.isParent = env.frame.isParent) :
    ({ env with scopes := env.scopes.modifyCurrent ({ · with frame }) } : Environment).Bounded :=
  bounded.of_sketches bounded.arena (Nat.le_refl _)
    (by rw [sketches_modifyFrame title parent]; exact List.Subset.refl _)

end Bounded

end Environment

open Environment in
theorem Accepts.bounded {mods : LeadingModifiers} {head : Token} {tail : List Token}
    {accepted : Accepted} (accepts : Accepts env setting mods head tail accepted)
    (bounded : env.Bounded) : (accepted.settled setting).Bounded := by
  suffices bounded : accepted.environment.Bounded by
    unfold Accepted.settled
    split
    next => exact bounded.append _
    next => exact bounded
  cases accepts with
  | @moduleDeclared name id modules _ _ _ _ added =>
      have grown : modules = (env.modules.addChild env.currentModule name.lexeme).2 := by rw [added]
      have inside := bounded.currentModule
      have arena : modules.Arena := grown ▸ bounded.arena.addChild inside name.lexeme
      have child : modules.child? env.currentModule name.lexeme = some id := by
        have child := ModuleTree.addChild_child inside name.lexeme
        rw [added] at child
        exact child
      have larger : ({ env with modules } : Environment).Bounded := by
        refine bounded.of_sketches arena ?_ (List.Subset.refl _)
        show env.modules.size ≤ modules.size
        rw [grown]
        exact (env.modules.grows_addChild _ _).size
      refine larger.push ?_
      rintro _ same
      cases same
      exact (arena.children _ _ _ child).1
  | moduleEntered _ _ _ _ child =>
      refine bounded.push ?_
      rintro _ same
      cases same
      exact (bounded.arena.children _ _ _ child).1
  | classDeclared =>
      refine (bounded.modifyMembers _ _).push ?_
      rintro _ same
      cases same
      simpa using bounded.currentModule
  | enumDeclared =>
      refine (bounded.modifyMembers _ _).push ?_
      rintro _ same
      cases same
      simpa using bounded.currentModule
  | classEntered | enumEntered =>
      refine bounded.push ?_
      rintro _ same
      cases same
      exact bounded.currentModule
  | membersDeclared _ _ frame =>
      refine bounded.modifyFrame ?_ ?_
      · rw [frame]
        rfl
      · rw [frame]
        rfl
  | constructorDeclared _ _ frame =>
      refine bounded.modifyFrame ?_ ?_
      · rw [frame]
        rfl
      · rw [frame]
        rfl
  | functionDeclared _ _ _ _ _ _ added => exact bounded.addFunction? added
  | nativeDeclared _ _ _ _ _ added => exact bounded.addFunction? added
  | functionOpened | constructorOpened => exact bounded.openBody _ _ _ _ _
  | conditional | doLoop => exact bounded.push nofun
  | @forLoop _ _ _ _ _ _ _ _ _ defines _ advances =>
      have head : (env.push (.block .loopHead {})
          (.new .forFakeScope head.streamLine)).Bounded := bounded.push nofun
      have stepped := (head.defines defines).updated advances.updated
      simp only [List.foldl_cons, List.foldl_nil]
      exact (((stepped.append _).append _).append _).push nofun
  | returned | exited =>
      exact bounded.of_sketches bounded.arena (Nat.le_refl _)
        (by rw [sketches_modifyBlock]; exact List.Subset.refl _)
  | @used id => exact bounded.updated (env.updated_use id)
  | libraryEnded => exact bounded.of_sketches bounded.arena (Nat.le_refl _) (List.Subset.refl _)
  | variableDefined _ _ _ _ defines => exact bounded.defines defines
  | assigned _ _ _ assigns => exact bounded.updated assigns.updated
  | _ => exact bounded

namespace Environment

theorem Bounded.pop (bounded : env.Bounded) {scope : Scope} {scopes : ScopeStack}
    (popped : env.scopes.pop? = some (scope, scopes)) :
    ({ env with scopes } : Environment).Bounded :=
  bounded.of_sketches bounded.arena (Nat.le_refl _)
    (by rw [sketches_of_pop? popped]; exact List.subset_cons_self _ _)

theorem Closes.bounded {scope : Scope} {waiting : Option Node}
    (closes : Closes setting env scope after waiting) (bounded : env.Bounded) : after.Bounded := by
  cases closes with
  | discarded | doLoop => exact bounded
  | «class» =>
      refine Bounded.append ?_ _
      split
      next => exact bounded.modifyMembers _ _
      next => exact bounded
  | enum =>
      refine Bounded.append ?_ _
      split
      next => exact bounded.modifyMembers _ _
      next => exact bounded
  | module | bare | block => exact bounded.append _
  | forLoop _ _ popped => exact ((bounded.append _).pop popped).append _
  | @function b =>
      refine Bounded.append ?_ _
      unfold Block.attached
      split
      next owner _ =>
        obtain ⟨id, f, same⟩ := ModuleTree.attachBody_modifies env.modules scope.node owner
        rw [same]
        exact bounded.modifyMembers id f
      next => exact bounded

end Environment

theorem AnalysisState.Turns.bounded {s t : AnalysisState} (turns : s.Turns t)
    (bounded : s.environment.Bounded) : t.environment.Bounded := by
  cases turns with
  | reports | breaksOff | stray | rejects | skips | runsOff => exact bounded
  | flushes | completes | fails => exact bounded.append _
  | closes _ _ _ _ popped closes => exact closes.bounded (bounded.pop popped)
  | warns _ _ warns => exact bounded.updated warns.updated
  | accepts _ _ _ _ accepts => exact accepts.bounded bounded
  | @recovers first rest =>
      refine ⟨bounded.arena, ?_⟩
      intro sketch member id same
      rcases List.mem_cons.mp (show sketch ∈ _ :: s.environment.sketches from member) with rfl | member
      · have same := (Frame.moduleId?_title _).symm.trans same
        unfold recoveryFrame at same
        split at same
        all_goals first | cases same | skip
        split at same
        next => cases same
        next =>
          cases same
          exact bounded.currentModule
      · exact bounded.scopes sketch member id same

end MiLanguage
