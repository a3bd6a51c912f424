import MiLanguage.Analysis.Run
import MiLanguage.Proofs.Typing.Statement

set_option autoImplicit false

namespace MiLanguage

structure AnalysisState.WellTyped (s : AnalysisState) : Prop where
  environment : s.environment.WellTyped
  pendingDo : ∀ node, s.pendingDo = some node → node.WellTyped ∧ node.kind.isPlain = true

namespace AnalysisState

variable {s : AnalysisState}

theorem WellTyped.report (wellTyped : s.WellTyped) (fault : Fault) (place : Token) :
    (s.report fault place).WellTyped :=
  ⟨wellTyped.environment, wellTyped.pendingDo⟩

theorem WellTyped.append (wellTyped : s.WellTyped) {node : Node} (typed : node.WellTyped) :
    (s.append node).WellTyped :=
  ⟨wellTyped.environment.append s.setting typed, wellTyped.pendingDo⟩

theorem WellTyped.waiting (wellTyped : s.WellTyped) {pendingDo : Option Node}
    (typed : ∀ node, pendingDo = some node → node.WellTyped ∧ node.kind.isPlain = true) :
    AnalysisState.WellTyped { s with pendingDo } :=
  ⟨wellTyped.environment, typed⟩

theorem WellTyped.modifyModules (wellTyped : s.WellTyped) {f : ModuleTree → ModuleTree}
    (keeps : s.environment.modules.WellTyped → (f s.environment.modules).WellTyped) :
    (s.modifyModules f).WellTyped :=
  ⟨⟨keeps wellTyped.environment.modules, wellTyped.environment.scopes⟩, wellTyped.pendingDo⟩

theorem WellTyped.flushDo (wellTyped : s.WellTyped) : s.flushDo.WellTyped := by
  unfold AnalysisState.flushDo
  split
  next node waiting =>
    exact (wellTyped.waiting (by simp)).append (wellTyped.pendingDo node waiting).1
  next => exact wellTyped

theorem WellTyped.checkReachable (wellTyped : s.WellTyped) (first : Token) :
    (s.checkReachable first).WellTyped := by
  unfold AnalysisState.checkReachable
  split
  next =>
    split
    next => exact wellTyped
    next => exact ⟨wellTyped.environment.modifyBlock _, wellTyped.pendingDo⟩
  next => exact wellTyped

theorem WellTyped.recover (wellTyped : s.WellTyped) (head brace : Token) :
    (s.recover head brace).WellTyped := by
  unfold AnalysisState.recover
  split
  next =>
    unfold AnalysisState.skipBlock
    have taken : ∀ remaining, AnalysisState.WellTyped { s with remaining } :=
      fun _ => ⟨wellTyped.environment, wellTyped.pendingDo⟩
    split
    next rest _ => exact taken rest
    next => exact (taken []).report _ _
  next =>
    refine ⟨⟨wellTyped.environment.modules, wellTyped.environment.scopes.push ⟨?_, rfl, ?_⟩⟩,
      wellTyped.pendingDo⟩
    · exact Node.wellTyped_new rfl (by simp)
    · intro id c frame
      simp only [recoveryFrame] at frame
      split at frame
      all_goals try cases frame
      split at frame <;> cases frame

theorem statement_wellTyped {env : Environment} (wellTyped : env.WellTyped) (setting : Setting)
    (first : Token) (rest : List Token) :
    (env.statement setting first rest).environment.WellTyped ∧
      ∀ node, (env.statement setting first rest).result = .ok (some node) → node.WellTyped := by
  generalize read : env.statement setting first rest = outcome
  obtain ⟨after, result⟩ := outcome
  cases result with
  | ok node =>
      obtain ⟨mods, head, tail, _, accepts⟩ := Environment.statement_accepts read
      obtain ⟨typed, node⟩ := accepts.wellTyped wellTyped
      exact ⟨typed, by simpa using node⟩
  | error =>
      refine ⟨?_, by simp⟩
      rcases Environment.statement_rejects read with rfl | ⟨id, _, extended, _, rfl⟩
      · exact wellTyped
      · have current := wellTyped.scopes.current
        exact wellTyped.modifyCurrent ⟨current.node, current.plain, by simp⟩

theorem WellTyped.readStatement (wellTyped : s.WellTyped) (first : Token) (rest : List Token) :
    (s.readStatement first rest).WellTyped := by
  have checked := wellTyped.checkReachable first
  simp only [AnalysisState.readStatement]
  generalize s.checkReachable first = s at checked ⊢
  obtain ⟨typed, node⟩ := statement_wellTyped checked.environment s.setting first rest
  generalize s.environment.statement s.setting first rest = outcome at typed node ⊢
  obtain ⟨after, result⟩ := outcome
  have moved : AnalysisState.WellTyped { s with environment := after } := ⟨typed, checked.pendingDo⟩
  cases result with
  | error r =>
      dsimp only
      split
      next => exact (moved.report r.fault r.place).recover _ _
      next => exact moved.report r.fault r.place
  | ok found =>
      cases found with
      | none =>
          dsimp only
          split
          next => exact moved.recover _ _
          next => exact moved
      | some found =>
          dsimp only
          split
          next => exact (moved.recover _ _).append (node found rfl)
          next => exact moved.append (node found rfl)

theorem wellTyped_attachBody {modules : ModuleTree} (wellTyped : modules.WellTyped) (body : Node)
    (owner : BodyOwner) : (attachBody modules body owner).WellTyped := by
  unfold attachBody
  split
  next => exact wellTyped.modifyFunction _ _ _ _
  next => exact wellTyped.modifyClass _ _ fun c fields => fields
  next => exact wellTyped.modifyClass _ _ fun c fields => fields

theorem WellTyped.closeFunction (wellTyped : s.WellTyped) (b : Block) {node : Node}
    (typed : node.WellTyped) (brace : Token) : (s.closeFunction b node brace).WellTyped := by
  have attached : ∀ {t : AnalysisState} owner, t.WellTyped →
      (t.modifyModules (attachBody · node owner)).WellTyped := by
    intro t owner wellTyped
    exact wellTyped.modifyModules fun modules => wellTyped_attachBody modules node owner
  unfold AnalysisState.closeFunction
  cases b.bodyOf with
  | none =>
      refine WellTyped.append ?_ typed
      dsimp only
      split
      next => split <;> first | exact wellTyped | exact wellTyped.report _ _
      next => exact wellTyped
  | some owner =>
      refine WellTyped.append (attached owner ?_) typed
      split
      next => split <;> first | exact wellTyped | exact wellTyped.report _ _
      next => exact wellTyped

theorem WellTyped.closeFrame (wellTyped : s.WellTyped) {scope : Scope} (typed : scope.WellTyped)
    (brace : Token) : (s.closeFrame scope.frame scope.node brace).WellTyped := by
  have node := typed.node
  unfold AnalysisState.closeFrame
  split
  next id c frame =>
    split
    next =>
      exact (wellTyped.modifyModules fun modules =>
        modules.insertClass id (typed.class id c frame)).append node
    next => exact wellTyped.append node
  next id e _ =>
    split
    next => exact (wellTyped.modifyModules fun modules => modules.insertEnum id e).append node
    next => exact wellTyped.append node
  next => exact wellTyped.append node
  next => exact wellTyped.append node
  next b _ => exact wellTyped.closeFunction b node brace
  next =>
    refine wellTyped.waiting ?_
    intro other same
    cases same
    exact ⟨node, typed.plain⟩
  next =>
    have appended := wellTyped.append node
    dsimp only
    split
    next head scopes popped =>
      obtain ⟨headTyped, rest⟩ := appended.environment.scopes.pop popped
      have left : AnalysisState.WellTyped
          { s.append scope.node with
            environment := { (s.append scope.node).environment with scopes } } :=
        ⟨⟨appended.environment.modules, rest⟩, appended.pendingDo⟩
      exact left.append headTyped.node
    next => exact appended
  next => exact wellTyped.append node

theorem WellTyped.closeScope (wellTyped : s.WellTyped) (brace : Token) :
    (s.closeScope brace).WellTyped := by
  unfold AnalysisState.closeScope
  split
  next => exact wellTyped.report _ _
  next scope scopes popped =>
    obtain ⟨typed, rest⟩ := wellTyped.environment.scopes.pop popped
    have left : AnalysisState.WellTyped
        { s with environment := { s.environment with scopes } } :=
      ⟨⟨wellTyped.environment.modules, rest⟩, wellTyped.pendingDo⟩
    dsimp only
    split
    next => exact left
    next => exact left.closeFrame typed brace

theorem wellTyped_push {block condition : Node} (typed : block.WellTyped)
    (plain : block.kind.isPlain = true) (conditionTyped : condition.WellTyped) :
    (block.push condition).WellTyped := by
  have top : (block.push condition).LocallyTyped :=
    Node.locallyTyped_plain plain (typed.top.untyped plain)
  refine Node.every_iff.mpr ⟨top, ?_⟩
  intro c member
  rcases List.mem_append.mp member with member | member
  · exact typed.child member
  · rw [List.mem_singleton.mp member]
    exact conditionTyped

theorem WellTyped.finishDo (wellTyped : s.WellTyped) {block : Node} (typed : block.WellTyped)
    (plain : block.kind.isPlain = true) (keyword : Token) (condition : List Token) :
    (s.finishDo block keyword condition).WellTyped := by
  have idle : AnalysisState.WellTyped { s with pendingDo := none } := wellTyped.waiting (by simp)
  simp only [AnalysisState.finishDo]
  split
  next node read =>
    exact idle.append
      (wellTyped_push typed plain (Environment.wrappedCondition_decides read).wellTyped)
  next r _ => exact (idle.report r.fault r.place).append typed

theorem WellTyped.statementOrBrace (wellTyped : s.WellTyped) (first : Token) (rest : List Token) :
    (s.statementOrBrace first rest).WellTyped := by
  unfold AnalysisState.statementOrBrace
  split
  next => exact wellTyped.closeScope first
  next => exact wellTyped.readStatement first rest

theorem WellTyped.statement (wellTyped : s.WellTyped) (first : Token) (rest : List Token) :
    (s.statement first rest).WellTyped := by
  unfold AnalysisState.statement
  split
  next => exact wellTyped.statementOrBrace first rest
  next block waiting =>
    obtain ⟨typed, plain⟩ := wellTyped.pendingDo block waiting
    split
    next => exact wellTyped.finishDo typed plain _ _
    next => exact (wellTyped.report _ _).flushDo.statementOrBrace first rest

theorem WellTyped.step (wellTyped : s.WellTyped) {next : AnalysisState}
    (stepped : s.step = some next) : next.WellTyped := by
  unfold AnalysisState.step at stepped
  split at stepped
  next => cases stepped
  next first rest _ =>
    have taken : ∀ remaining, AnalysisState.WellTyped { s with remaining } :=
      fun _ => ⟨wellTyped.environment, wellTyped.pendingDo⟩
    dsimp only at stepped
    split at stepped
    · cases stepped
      exact (taken _).statement _ _
    · cases stepped
      exact (taken _).report _ _
    · cases stepped
      exact (taken _).report _ _

theorem WellTyped.steps (wellTyped : s.WellTyped) (bound : Nat) : (steps bound s).WellTyped := by
  induction bound generalizing s with
  | zero => exact wellTyped
  | succ bound ih =>
      unfold AnalysisState.steps
      split
      next => exact wellTyped
      next next stepped => exact ih (wellTyped.step stepped)

theorem WellTyped.finish (wellTyped : s.WellTyped) (last : Option Token) :
    (s.finish last).WellTyped := by
  obtain ⟨u, flushes, ends⟩ := s.finish_cases last
  have flushed : u.WellTyped := by
    rcases flushes with rfl | ⟨t, rfl⟩
    · exact wellTyped.flushDo
    · exact (wellTyped.report _ _).flushDo
  rcases ends with same | ⟨t, same⟩
  · exact same ▸ flushed
  · exact same ▸ flushed.report _ t

end AnalysisState

namespace Analysis

theorem emptyRoot_wellTyped : emptyRoot.WellTyped := Node.wellTyped_new rfl (by simp)

theorem startPass_wellTyped (setting : Setting) {modules : ModuleTree} (typed : modules.WellTyped)
    (log : DiagnosticLog) (tokens : List Token) :
    (startPass setting modules log tokens).WellTyped := by
  refine ⟨⟨typed, ⟨by simp [startPass, ScopeStack.start], emptyRoot_wellTyped, rfl, ?_⟩⟩, ?_⟩
  · intro id c frame
    cases frame
  · simp [startPass]

theorem runPass_wellTyped (setting : Setting) {modules : ModuleTree} (typed : modules.WellTyped)
    (log : DiagnosticLog) (tokens : List Token) :
    (runPass setting modules log tokens).WellTyped :=
  ((startPass_wellTyped setting typed log tokens).steps _).finish _

end Analysis

namespace AnalysisState

theorem withChildren_wellTyped {n : Node} (typed : n.WellTyped) (plain : n.kind.isPlain = true)
    {children : List Node} (childrenTyped : ∀ c ∈ children, c.WellTyped) :
    (n.withChildren children).WellTyped := by
  have top : (n.withChildren children).LocallyTyped :=
    Node.locallyTyped_plain plain (typed.top.untyped plain)
  refine Node.every_iff.mpr ⟨top, ?_⟩
  intro c member
  rcases List.mem_append.mp member with member | member
  · exact typed.child member
  · exact childrenTyped c member

theorem closeAll_wellTyped {opened : List Scope} (typed : ∀ scope ∈ opened, scope.WellTyped) :
    ∀ n ∈ closeAll opened, n.WellTyped := by
  have folded : ∀ (scopes : List Scope) (inner : List Node), (∀ scope ∈ scopes, scope.WellTyped) →
      (∀ n ∈ inner, n.WellTyped) →
      ∀ n ∈ scopes.foldl (fun inner scope =>
        if scope.discard then [] else [scope.node.withChildren inner]) inner, n.WellTyped := by
    intro scopes
    induction scopes with
    | nil => exact fun _ _ innerTyped => innerTyped
    | cons scope rest ih =>
        intro inner scopesTyped innerTyped
        have head := scopesTyped scope (by simp)
        refine ih _ (fun other member => scopesTyped other (by simp [member])) ?_
        intro n member
        dsimp only at member
        split at member
        next => simp at member
        next =>
          rw [List.mem_singleton.mp member]
          exact withChildren_wellTyped head.node head.plain innerTyped
  exact folded opened [] typed (by simp)

theorem WellTyped.root {s : AnalysisState} (wellTyped : s.WellTyped) : s.root.WellTyped := by
  obtain ⟨opened, base⟩ := wellTyped.environment.scopes
  simp only [AnalysisState.root]
  split
  next => exact base.node
  next => exact withChildren_wellTyped base.node base.plain (closeAll_wellTyped opened)

end AnalysisState

-- A property of every locally typed node is one of every node of the tree that an analysis returns.
theorem Analysis.root_every_of_typed (host : Host) (maxErrors : Nat) (tokens : List Token)
    {P : Node → Prop} (holds : ∀ n : Node, n.LocallyTyped → P n) :
    (ofTokens host maxErrors tokens).root.Every P := by
  have first := runPass_wellTyped ⟨.declarations, host⟩ ModuleTree.wellTyped_empty { maxErrors }
    tokens
  simp only [ofTokens]
  split
  next => exact emptyRoot_wellTyped.mono holds
  next => exact (runPass_wellTyped ⟨.bodies, host⟩ first.environment.modules _ tokens).root.mono holds

/-- Whatever the tokens are, every node of the tree that an analysis returns is locally typed. -/
theorem Analysis.root_wellTyped (host : Host) (maxErrors : Nat) (tokens : List Token) :
    (ofTokens host maxErrors tokens).root.WellTyped :=
  root_every_of_typed host maxErrors tokens fun _ typed => typed

end MiLanguage
