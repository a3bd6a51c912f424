import MiLanguage.Proofs.Analysis.Pass
import MiLanguage.Proofs.Likeness.Declaration

set_option autoImplicit false

namespace MiLanguage

variable {σ : Slack} {s t : AnalysisState}

theorem Environment.modifyBlock_same (env : Environment) : env.modifyBlock (fun b => b) = env := by
  have same (f : Frame) : f.modifyBlock (fun b => b) = f := by cases f <;> rfl
  obtain ⟨modules, ⟨opened, base⟩, inLibrary⟩ := env
  cases opened <;>
    simp only [Environment.modifyBlock, ScopeStack.modifyCurrentBlock, ScopeStack.modifyCurrent, same]

namespace AnalysisState

-- The nodes that are open: those of the scopes, and above them that of a `do` block that waits.
def nested (s : AnalysisState) : List Scope :=
  match s.pendingDo with
  | some node => { frame := .block .doLoop {}, node } :: s.environment.scopes.all
  | none => s.environment.scopes.all

/-- A pass in two runs, between two statements. -/
structure Like (σ : Slack) (s t : AnalysisState) : Prop where
  declares : s.setting.declaring = true → σ.Declares
  setting : t.setting = s.setting
  remaining : t.remaining = s.remaining
  environment : s.environment.Like σ t.environment
  waiting : t.pendingDo.isSome = s.pendingDo.isSome
  nested : Apart σ s.nested t.nested
  log : σ.logs s.log t.log

/-- The same, while no `do` block waits. -/
structure Idle (σ : Slack) (s t : AnalysisState) : Prop where
  declares : s.setting.declaring = true → σ.Declares
  setting : t.setting = s.setting
  remaining : t.remaining = s.remaining
  environment : s.environment.Like σ t.environment
  mine : s.pendingDo = none
  theirs : t.pendingDo = none
  log : σ.logs s.log t.log

theorem Idle.like (idle : s.Idle σ t) : s.Like σ t where
  declares := idle.declares
  setting := idle.setting
  remaining := idle.remaining
  environment := idle.environment
  waiting := by rw [idle.mine, idle.theirs]
  nested := by
    rw [AnalysisState.nested, AnalysisState.nested, idle.mine, idle.theirs]
    exact idle.environment.scopes.nodes
  log := idle.log

theorem Like.idle (like : s.Like σ t) (mine : s.pendingDo = none) : s.Idle σ t where
  declares := like.declares
  setting := like.setting
  remaining := like.remaining
  environment := like.environment
  mine := mine
  theirs := by simpa [mine] using like.waiting
  log := like.log

theorem Like.declaring (like : s.Like σ t) : t.declaring = s.declaring := by
  rw [AnalysisState.declaring, like.setting, AnalysisState.declaring]

theorem Like.report (like : s.Like σ t) (fault : Fault) (place : Token) :
    (s.report fault place).Like σ (t.report fault place) :=
  ⟨like.declares, like.setting, like.remaining, like.environment, like.waiting, like.nested,
    σ.logs_report (.ofFault .error fault place) like.log⟩

section Reports

variable (idle : s.Idle σ t)

include idle

theorem Idle.report (fault : Fault) (place : Token) :
    (s.report fault place).Idle σ (t.report fault place) :=
  (idle.like.report fault place).idle idle.mine

theorem Idle.reportTo {r r' : Report} (same : σ.exact = true → r' = r) :
    (s.reportTo r).Idle σ (t.reportTo r') := by
  cases exact : σ.exact with
  | true =>
      rw [same exact]
      exact idle.report r.fault r.place
  | false =>
      have log := σ.logs_error (d := .ofFault .error r.fault r.place)
        (e := .ofFault .error r'.fault r'.place) exact idle.log rfl rfl
      exact ⟨idle.declares, idle.setting, idle.remaining, idle.environment, idle.mine, idle.theirs, log⟩

theorem Idle.withEnvironment {env env' : Environment} (changed : env.Like σ env') :
    ({ s with environment := env } : AnalysisState).Idle σ { t with environment := env' } :=
  ⟨idle.declares, idle.setting, idle.remaining, changed, idle.mine, idle.theirs, idle.log⟩

theorem Idle.withModules {modules modules' : ModuleTree} (changed : modules.Like σ modules') :
    ({ s with environment := { s.environment with modules } } : AnalysisState).Idle σ
      { t with environment := { t.environment with modules := modules' } } :=
  idle.withEnvironment ⟨changed, idle.environment.scopes, idle.environment.inLibrary⟩

theorem Idle.append (node : Node) : (s.append node).Idle σ (t.append node) := by
  have appended := idle.environment.append s.setting node
  rw [← idle.setting] at appended
  refine idle.withEnvironment ?_
  rw [idle.setting] at appended ⊢
  exact appended

-- Where faults need not be exact, one run may warn and the other not.
theorem Idle.checkReachable (first : Token) :
    (s.checkReachable first).Idle σ (t.checkReachable first) := by
  have block := idle.environment.frame.block?
  have declaring := idle.like.declaring
  have warns (exact : σ.exact = false) := σ.logs_warning (l := s.log) (k := t.log)
    (d := .ofFault .warning SyntaxFault.unreachable first) exact idle.log rfl
  have both := idle.environment.modifyBlock (f := ({ · with warned := true }))
    (g := ({ · with warned := true })) (fun _ _ block => ⟨block.locals, block.uses,
      block.returnType, block.bodyOf, block.returned, block.terminated, fun _ => rfl⟩) fun _ => rfl
  have mine (exact : σ.exact = false) := idle.environment.modifyBlock
    (f := ({ · with warned := true })) (g := fun b => b) (fun _ _ block => ⟨block.locals, block.uses,
      block.returnType, block.bodyOf, block.returned, block.terminated,
      fun exact' => by simp [exact] at exact'⟩) fun _ => rfl
  have theirs (exact : σ.exact = false) := idle.environment.modifyBlock
    (f := fun b => b) (g := ({ · with warned := true })) (fun _ _ block => ⟨block.locals, block.uses,
      block.returnType, block.bodyOf, block.returned, block.terminated,
      fun exact' => by simp [exact] at exact'⟩) fun _ => rfl
  simp only [Environment.modifyBlock_same] at mine theirs
  unfold AnalysisState.checkReachable
  generalize s.environment.frame.block? = b, t.environment.frame.block? = c at block
  cases block with
  | none => exact idle
  | @some b c related =>
      have warned := related.warned
      dsimp only
      rw [declaring, related.terminated]
      cases s.declaring with
      | true => exact idle
      | false =>
          cases b.terminated with
          | false => exact idle
          | true =>
              cases mark : b.warned <;> cases mark' : c.warned
              · exact ⟨idle.declares, idle.setting, idle.remaining, both, idle.mine, idle.theirs,
                  σ.logs_report (.ofFault .warning SyntaxFault.unreachable first) idle.log⟩
              · cases exact : σ.exact with
                | true => simp [mark, mark', exact] at warned
                | false =>
                    exact ⟨idle.declares, idle.setting, idle.remaining, mine exact, idle.mine, idle.theirs,
                      (warns exact).1⟩
              · cases exact : σ.exact with
                | true => simp [mark, mark', exact] at warned
                | false =>
                    exact ⟨idle.declares, idle.setting, idle.remaining, theirs exact, idle.mine, idle.theirs,
                      (warns exact).2⟩
              · exact idle

end Reports

section Statements

variable (idle : s.Idle σ t)

include idle

theorem Idle.pushRecovery (head : Token) : (s.pushRecovery head).Idle σ (t.pushRecovery head) := by
  have frame : (recoveryFrame s.environment head).Like σ (recoveryFrame t.environment head) := by
    unfold recoveryFrame
    rw [idle.environment.frame.isBlock, idle.environment.currentModule]
    split
    · exact .block (Block.like_refl _)
    · exact .block (Block.like_refl _)
    · exact .block (Block.like_refl _)
    · exact .block (Block.like_refl _)
    · exact .block (Block.like_refl _)
    · exact .block (Block.like_refl _)
    · split
      · exact .block (Block.like_refl _)
      · exact .module _
  exact idle.withEnvironment
    (idle.environment.withScopes (idle.environment.scopes.push ⟨frame, rfl⟩ rfl))

theorem Idle.skipBlock (brace : Token) : (s.skipBlock brace).Idle σ (t.skipBlock brace) := by
  have left (rest : List Token) : ({ s with remaining := rest } : AnalysisState).Idle σ
      { t with remaining := rest } :=
    ⟨idle.declares, idle.setting, rfl, idle.environment, idle.mine, idle.theirs, idle.log⟩
  unfold AnalysisState.skipBlock
  rw [idle.remaining]
  split
  · exact left _
  · exact (left []).report _ brace

theorem Idle.recover (head brace : Token) :
    (s.recover head brace).Idle σ (t.recover head brace) := by
  have skips : t.skipsBody head = s.skipsBody head := by
    unfold AnalysisState.skipsBody
    rw [idle.like.declaring]
  unfold AnalysisState.recover
  rw [skips]
  split
  · exact idle.skipBlock brace
  · exact idle.pushRecovery head

theorem Idle.readStatement (first : Token) (rest : List Token) :
    (s.readStatement first rest).Idle σ (t.readStatement first rest) := by
  have checked := idle.checkReachable first
  unfold AnalysisState.readStatement
  generalize s.checkReachable first = s', t.checkReachable first = t' at checked
  have read : (s'.environment.statement s'.setting first rest).Like σ
      (t'.environment.statement t'.setting first rest) := by
    rw [checked.setting]
    exact checked.environment.statement checked.declares first rest
  have depth := ScopeStack.depth_like checked.environment.scopes.scopes
  dsimp only
  rw [depth]
  generalize s'.environment.statement s'.setting first rest = o,
    t'.environment.statement t'.setting first rest = p at read
  obtain ⟨env, x⟩ := o
  obtain ⟨env', y⟩ := p
  obtain ⟨after, result⟩ := read
  have changed := checked.withEnvironment after
  have depth' := ScopeStack.depth_like after.scopes.scopes
  -- The brace at the end is taken care of in the same way in both runs.
  have recovered (u v : AnalysisState) (idle : u.Idle σ v) (left : u.environment = env)
      (right : v.environment = env') :
      (if (rest.getLast?.getD first).is .leftBrace &&
            u.environment.scopes.depth = s'.environment.scopes.depth then
          u.recover (((first :: rest).find? (!·.kind.isModifier)).getD first)
            (rest.getLast?.getD first)
        else u).Idle σ
      (if (rest.getLast?.getD first).is .leftBrace &&
            v.environment.scopes.depth = s'.environment.scopes.depth then
          v.recover (((first :: rest).find? (!·.kind.isModifier)).getD first)
            (rest.getLast?.getD first)
        else v) := by
    dsimp only at depth'
    rw [left, right, depth']
    split
    · exact idle.recover _ _
    · exact idle
  dsimp only at result
  cases result with
  | error same => exact recovered _ _ (changed.reportTo same) rfl rfl
  | @ok node node' same =>
      subst same
      have done := recovered _ _ changed rfl rfl
      cases node with
      | none => exact done
      | some node => exact done.append node

end Statements

section Closing

variable (idle : s.Idle σ t) {a b : Scope}

-- The node of a scope that is gone goes to the scope around it.
theorem Idle.appendClosed (idle : s.Idle σ t)
    (apart : Apart σ (a :: s.environment.scopes.all) (b :: t.environment.scopes.all)) :
    (s.append a.node).Idle σ (t.append b.node) := by
  refine idle.withEnvironment ?_
  rw [idle.setting]
  unfold Environment.append
  split
  · exact idle.environment
  · obtain ⟨outer, all, changed⟩ := s.environment.scopes.all_eq_current
    obtain ⟨outer', all', changed'⟩ := t.environment.scopes.all_eq_current
    refine ⟨idle.environment.modules, ⟨?_, ?_⟩, idle.environment.inLibrary⟩
    · have scopes := idle.environment.scopes.scopes
      rw [all, all'] at scopes
      obtain ⟨head, tail⟩ := List.forall₂_cons.mp scopes
      show List.Forall₂ (Scope.Like σ) (ScopeStack.modifyCurrent _ _).all
        (ScopeStack.modifyCurrent _ _).all
      rw [changed, changed']
      exact .cons ⟨head.frame, head.discard⟩ tail
    · rw [all, all'] at apart
      show Apart σ (ScopeStack.modifyCurrent _ _).all (ScopeStack.modifyCurrent _ _).all
      rw [changed, changed']
      exact apart.close

-- Where a function's body is stored, the bodies may differ if that is allowed there.
theorem Idle.closeBody (idle : s.Idle σ t)
    (apart : Apart σ (a :: s.environment.scopes.all) (b :: t.environment.scopes.all)) {c : Block}
    (frame : a.frame = .block .function c) :
    ((match c.bodyOf with
      | some owner => s.modifyModules (attachBody · a.node owner)
      | none => s).append a.node).Idle σ
    ((match c.bodyOf with
      | some owner => t.modifyModules (attachBody · b.node owner)
      | none => t).append b.node) := by
  cases owner : c.bodyOf with
  | none => exact idle.appendClosed apart
  | some o =>
      have bodies : b.node = a.node ∨ σ.nodes a.node b.node ∧ σ.bodies o := by
        rcases apart.head with same | ⟨nodes, within⟩
        · exact .inl same
        · exact .inr ⟨nodes, within c o frame owner⟩
      have attached := idle.withModules (idle.environment.modules.attachBody bodies)
      exact attached.appendClosed apart

theorem Idle.closeFunction (idle : s.Idle σ t)
    (apart : Apart σ (a :: s.environment.scopes.all) (b :: t.environment.scopes.all))
    {c d : Block} (frame : a.frame = .block .function c) (block : c.Like σ d)
    (brace : Token) : (s.closeFunction c a.node brace).Idle σ (t.closeFunction d b.node brace) := by
  unfold AnalysisState.closeFunction
  dsimp only
  rw [block.returnType, block.bodyOf, block.returned]
  cases c.returnType with
  | none => exact idle.closeBody apart frame
  | some type =>
      cases fulfilled : type.isVoid || c.returned with
      | true =>
          simp only [fulfilled, if_true]
          exact idle.closeBody apart frame
      | false =>
          simp only [fulfilled, Bool.false_eq_true, if_false]
          exact (idle.report (TypeFault.missingReturn type) brace).closeBody apart frame

theorem Idle.closeFrame (idle : s.Idle σ t)
    (apart : Apart σ (a :: s.environment.scopes.all) (b :: t.environment.scopes.all))
    (frames : a.frame.Like σ b.frame) (brace : Token) :
    (s.closeFrame a.frame a.node brace).Like σ (t.closeFrame b.frame b.node brace) := by
  have appended := (idle.appendClosed apart).like
  generalize shown : a.frame = f, shown' : b.frame = g at frames
  cases frames with
  | parent | module => exact appended
  | @«class» id c d related =>
      unfold AnalysisState.closeFrame
      dsimp only
      rw [idle.like.declaring]
      split
      · have changed := idle.withModules (idle.environment.modules.insertClass related)
        exact (changed.appendClosed apart).like
      · exact appended
  | enum id e =>
      unfold AnalysisState.closeFrame
      dsimp only
      rw [idle.like.declaring]
      split
      · have changed := idle.withModules (idle.environment.modules.insertEnum id e)
        exact (changed.appendClosed apart).like
      · exact appended
  | @block kind c d block =>
      cases kind with
      | function => exact (idle.closeFunction apart shown block brace).like
      | branch | whileLoop | loopHead => exact appended
      | doLoop =>
          refine ⟨idle.declares, idle.setting, idle.remaining, idle.environment, rfl, ?_, idle.log⟩
          exact apart.replace (fun same => same) (fun nodes => nodes)
            fun _ _ _ block => by cases block
      | forLoop =>
          unfold AnalysisState.closeFrame
          dsimp only
          have looped := idle.appendClosed apart
          have popped := looped.environment.scopes.pop?
          generalize s.append a.node = u, t.append b.node = v at looped popped
          generalize u.environment.scopes.pop? = found, v.environment.scopes.pop? = found' at popped
          cases popped with
          | none => exact looped.like
          | @some p q popped =>
              obtain ⟨-, apart, rest⟩ := popped
              obtain ⟨head, scopes⟩ := p
              obtain ⟨head', scopes'⟩ := q
              exact ((looped.withEnvironment (looped.environment.withScopes rest)).appendClosed
                apart).like

theorem Idle.closeScope (idle : s.Idle σ t) (brace : Token) :
    (s.closeScope brace).Like σ (t.closeScope brace) := by
  have popped := idle.environment.scopes.pop?
  unfold AnalysisState.closeScope
  generalize s.environment.scopes.pop? = found, t.environment.scopes.pop? = found' at popped
  cases popped with
  | none => exact (idle.report _ brace).like
  | @some p q popped =>
      obtain ⟨scope, apart, rest⟩ := popped
      obtain ⟨a, scopes⟩ := p
      obtain ⟨b, scopes'⟩ := q
      have closed := idle.withEnvironment (idle.environment.withScopes rest)
      dsimp only
      rw [scope.discard]
      split
      · exact closed.like
      · exact closed.closeFrame apart scope.frame brace

end Closing

section Steps

variable (like : s.Like σ t)

include like

theorem Like.finishDo {block block' : Node} (mine : s.pendingDo = some block)
    (theirs : t.pendingDo = some block') (keyword : Token) (condition : List Token) :
    (s.finishDo block keyword condition).Idle σ (t.finishDo block' keyword condition) := by
  have idle : ({ s with pendingDo := none } : AnalysisState).Idle σ { t with pendingDo := none } :=
    ⟨like.declares, like.setting, like.remaining, like.environment, rfl, rfl, like.log⟩
  have nested := like.nested
  unfold AnalysisState.nested at nested
  rw [mine, theirs] at nested
  have read := like.environment.wrappedCondition condition keyword
  unfold AnalysisState.finishDo
  dsimp only
  generalize s.environment.wrappedCondition condition keyword = x,
    t.environment.wrappedCondition condition keyword = y at read
  cases read with
  | @ok node node' same =>
      subst same
      exact idle.appendClosed (a := { frame := .block .doLoop {}, node := block.push node })
        (b := { frame := .block .doLoop {}, node := block'.push node })
        (nested.replace (congrArg (Node.push · node)) (σ.nodes_push node) fun within => within)
  | error same => exact (idle.reportTo same).appendClosed nested

theorem Like.flushDo : s.flushDo.Idle σ t.flushDo := by
  have nested := like.nested
  have waiting := like.waiting
  unfold AnalysisState.flushDo
  unfold AnalysisState.nested at nested
  cases mine : s.pendingDo with
  | none =>
      cases theirs : t.pendingDo with
      | none => exact like.idle mine
      | some => simp [mine, theirs] at waiting
  | some block =>
      cases theirs : t.pendingDo with
      | none => simp [mine, theirs] at waiting
      | some block' =>
          rw [mine, theirs] at nested
          have idle : ({ s with pendingDo := none } : AnalysisState).Idle σ
              { t with pendingDo := none } :=
            ⟨like.declares, like.setting, like.remaining, like.environment, rfl, rfl, like.log⟩
          exact idle.appendClosed nested

end Steps

section Run

theorem Idle.statementOrBrace (idle : s.Idle σ t) (first : Token) (rest : List Token) :
    (s.statementOrBrace first rest).Like σ (t.statementOrBrace first rest) := by
  unfold AnalysisState.statementOrBrace
  split
  · exact idle.closeScope first
  · exact (idle.readStatement first rest).like

variable (like : s.Like σ t)

include like

theorem Like.statement (first : Token) (rest : List Token) :
    (s.statement first rest).Like σ (t.statement first rest) := by
  have waiting := like.waiting
  have flushed := (like.report (SyntaxFault.doWithoutWhile false) first).flushDo
  unfold AnalysisState.statement
  cases mine : s.pendingDo with
  | none =>
      cases theirs : t.pendingDo with
      | none => exact (like.idle mine).statementOrBrace first rest
      | some => simp [mine, theirs] at waiting
  | some block =>
      cases theirs : t.pendingDo with
      | none => simp [mine, theirs] at waiting
      | some block' =>
          dsimp only
          split
          · exact (like.finishDo mine theirs first rest.dropLast).like
          · exact flushed.statementOrBrace first rest

theorem Like.step : Option.Rel (Like σ) s.step t.step := by
  unfold AnalysisState.step
  rw [like.remaining]
  cases s.remaining with
  | nil => exact .none
  | cons first rest =>
      have taken : ({ s with remaining := (Chunk.next first rest).2 } : AnalysisState).Like σ
          { t with remaining := (Chunk.next first rest).2 } :=
        ⟨like.declares, like.setting, rfl, like.environment, like.waiting, like.nested, like.log⟩
      dsimp only
      split
      · exact .some (taken.statement _ _)
      · exact .some (taken.report _ _)
      · exact .some (taken.report _ _)

theorem Like.leads {last : AnalysisState} (fails : ∀ l k, σ.logs l k → k.failed = l.failed)
    (leads : s.Leads last) : ∃ last', t.Leads last' ∧ last.Like σ last' := by
  induction leads using Relation.ReflTransGen.head_induction_on generalizing t with
  | refl => exact ⟨t, .refl, like⟩
  | @head s u step leads ih =>
      have stepped := like.step
      rw [step.1] at stepped
      generalize other : t.step = v at stepped
      cases stepped with
      | @some _ v alike =>
          obtain ⟨last', leads', alike'⟩ := ih alike
          exact ⟨last', .head ⟨other, (fails _ _ alike.log).trans step.2⟩ leads', alike'⟩

omit like in
theorem Idle.unclosed (idle : s.Idle σ t) (last : Option Token) :
    (match s.environment.scopes.opened, last with
      | _ :: _, some t => s.report SyntaxFault.unclosedScope t
      | _, _ => s).Idle σ
    (match t.environment.scopes.opened, last with
      | _ :: _, some u => t.report SyntaxFault.unclosedScope u
      | _, _ => t) := by
  have scopes := (ScopeStack.opened_like idle.environment.scopes.scopes).1
  generalize s.environment.scopes.opened = as, t.environment.scopes.opened = bs at scopes
  cases scopes with
  | nil => exact idle
  | cons => cases last with
      | none => exact idle
      | some t => exact idle.report _ t

theorem Like.finish (last : Option Token) : (s.finish last).Idle σ (t.finish last) := by
  have waiting := like.waiting
  unfold AnalysisState.finish
  refine Idle.unclosed ?_ last
  cases mine : s.pendingDo with
  | none =>
      cases theirs : t.pendingDo with
      | none => exact like.flushDo
      | some => simp [mine, theirs] at waiting
  | some block =>
      cases theirs : t.pendingDo with
      | none => simp [mine, theirs] at waiting
      | some block' =>
          cases last with
          | none => exact like.flushDo
          | some t => exact (like.report _ t).flushDo

end Run

end AnalysisState

end MiLanguage
