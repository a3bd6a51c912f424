import MiLanguage.Proofs.Diagnostic.Limit
import MiLanguage.Proofs.Relocation.Statement

set_option autoImplicit false

namespace MiLanguage

variable {m : Relocation}

section Diagnostics

instance : Movable Diagnostic where
  move m d :=
    match d.span with
    | none => d
    | some span =>
        let site := m.site span.fileId ⟨d.line, d.column, span.start, span.stop⟩
        { d with
          line := site.line
          column := site.column
          span := some ⟨site.start, site.stop, span.fileId⟩ }

@[simp] theorem ofFault_move (severity : Severity) (f : Fault) (place : Token) :
    Diagnostic.ofFault severity f (move m place) = move m (.ofFault severity f place) := rfl

@[simp] theorem isError_move (d : Diagnostic) : (move m d).isError = d.isError := by
  obtain ⟨severity, kind, message, hints, line, column, span⟩ := d
  cases span <;> rfl

instance : Movable DiagnosticLog := ⟨fun m log => { log with entries := move m log.entries }⟩

namespace DiagnosticLog

@[simp] theorem entries_move (log : DiagnosticLog) : (move m log).entries = move m log.entries := rfl
@[simp] theorem failed_move (log : DiagnosticLog) : (move m log).failed = log.failed := rfl

@[simp] theorem errors_move (log : DiagnosticLog) : (move m log).errors = move m log.errors :=
  filter_move isError_move log.entries

@[simp] theorem warnings_move (log : DiagnosticLog) :
    (move m log).warnings = move m log.warnings := by
  have same (d : Diagnostic) : (!(move m d).isError) = !d.isError := by rw [isError_move]
  exact filter_move same log.entries

@[simp] theorem errorCount_move (log : DiagnosticLog) : (move m log).errorCount = log.errorCount := by
  rw [errorCount, errors_move, length_move, errorCount]

@[simp] theorem isFull_move (log : DiagnosticLog) : (move m log).isFull = log.isFull := by
  unfold isFull
  rw [errorCount_move]
  rfl

@[simp] theorem report_move (log : DiagnosticLog) (d : Diagnostic) :
    (move m log).report (move m d) = move m (log.report d) := by
  have longer : move m log.entries ++ [move m d] = move m (log.entries ++ [d]) :=
    (move_append log.entries [d]).symm
  unfold report
  rw [isError_move, isFull_move, entries_move, longer]
  exact ite_move (ite_move rfl rfl) rfl

end DiagnosticLog

end Diagnostics

section Chunks

instance : Movable Chunk where
  move m
    | .statement first rest => .statement (move m first) (move m rest)
    | .endsAtBrace brace => .endsAtBrace (move m brace)
    | .endsAtInput last => .endsAtInput (move m last)

namespace Chunk

theorem readFrom_move (first : Token) (read tokens : List Token) :
    readFrom (move m first) (move m read) (move m tokens) = move m (readFrom first read tokens) := by
  induction tokens generalizing read with
  | nil =>
      simp only [move_nil, readFrom, getLast?_move, getD_move]
      rfl
  | cons t rest ih =>
      have longer : move m read ++ [move m t] = move m (read ++ [t]) := (move_append read [t]).symm
      simp only [move_cons, readFrom, kind_move, longer, ih]
      split <;> rfl

theorem next_move (first : Token) (rest : List Token) :
    next (move m first) (move m rest) = move m (next first rest) :=
  ite_move rfl (readFrom_move first [] rest)

theorem skipBlock_move (depth : Nat) (tokens : List Token) :
    skipBlock depth (move m tokens) = move m (skipBlock depth tokens) := by
  induction tokens generalizing depth with
  | nil => rfl
  | cons t rest ih =>
      simp only [move_cons, skipBlock, kind_move, ih]
      split <;> rfl

end Chunk

end Chunks

namespace AnalysisState

instance : Movable AnalysisState where
  move m s :=
    { s with
      remaining := move m s.remaining
      environment := move m s.environment
      log := move m s.log
      pendingDo := move m s.pendingDo }

@[simp] theorem setting_move (s : AnalysisState) : (move m s).setting = s.setting := rfl
@[simp] theorem declaring_move (s : AnalysisState) : (move m s).declaring = s.declaring := rfl
@[simp] theorem remaining_move (s : AnalysisState) : (move m s).remaining = move m s.remaining := rfl
@[simp] theorem environment_move (s : AnalysisState) :
    (move m s).environment = move m s.environment := rfl
@[simp] theorem log_move (s : AnalysisState) : (move m s).log = move m s.log := rfl
@[simp] theorem pendingDo_move (s : AnalysisState) : (move m s).pendingDo = move m s.pendingDo := rfl

@[simp] theorem report_move (s : AnalysisState) (fault : Fault) (place : Token) :
    (move m s).report fault (move m place) = move m (s.report fault place) :=
  congrArg (fun log => { move m s with log }) (DiagnosticLog.report_move s.log (.ofFault .error fault place))

@[simp] theorem reportTo_move (s : AnalysisState) (r : Report) :
    (move m s).reportTo (move m r) = move m (s.reportTo r) := report_move s r.fault r.place

@[simp] theorem append_move (s : AnalysisState) (node : Node) :
    (move m s).append (move m node) = move m (s.append node) :=
  congrArg (fun environment => { move m s with environment })
    (Environment.append_move s.environment s.setting node)

theorem modifyModules_move {f g : ModuleTree → ModuleTree} (same : ∀ t, f (move m t) = move m (g t))
    (s : AnalysisState) : (move m s).modifyModules f = move m (s.modifyModules g) :=
  congrArg (fun modules => { move m s with environment := { move m s.environment with modules } })
    (same s.environment.modules)

@[simp] theorem flushDo_move (s : AnalysisState) : (move m s).flushDo = move m s.flushDo := by
  unfold flushDo
  rw [pendingDo_move]
  cases s.pendingDo with
  | none => rfl
  | some node => exact append_move { s with pendingDo := none } node

@[simp] theorem checkReachable_move (s : AnalysisState) (first : Token) :
    (move m s).checkReachable (move m first) = move m (s.checkReachable first) := by
  unfold checkReachable
  rw [environment_move, Environment.frame_move, Frame.block?_move]
  cases s.environment.frame.block? with
  | none => rfl
  | some b =>
      refine ite_move rfl ?_
      have warned : (move m s.environment).modifyBlock ({ · with warned := true }) =
          move m (s.environment.modifyBlock ({ · with warned := true })) :=
        Environment.modifyBlock_move (by exact fun _ => rfl) s.environment
      have logged := DiagnosticLog.report_move (m := m) s.log
        (.ofFault .warning SyntaxFault.unreachable first)
      simp only [warned, log_move, ofFault_move, logged]
      rfl

@[simp] theorem recoveryFrame_move (env : Environment) (head : Token) :
    recoveryFrame (move m env) (move m head) = move m (recoveryFrame env head) := by
  unfold recoveryFrame
  rw [kind_move, Environment.frame_move, Frame.isBlock_move, Environment.currentModule_move]
  split <;> first | rfl | exact ite_move rfl rfl

@[simp] theorem pushRecovery_move (s : AnalysisState) (head : Token) :
    (move m s).pushRecovery (move m head) = move m (s.pushRecovery head) := by
  have scope : (⟨recoveryFrame (move m s.environment) (move m head),
      .new .parent (m.streamLine head.streamLine), true⟩ : Scope) =
      move m ⟨recoveryFrame s.environment head, .new .parent head.streamLine, true⟩ := by
    rw [recoveryFrame_move, node_empty_move]
    rfl
  exact congrArg (fun scope => { move m s with
    environment := { move m s.environment with
      scopes := (move m s.environment.scopes).push scope } }) scope

@[simp] theorem skipBlock_move (s : AnalysisState) (brace : Token) :
    (move m s).skipBlock (move m brace) = move m (s.skipBlock brace) := by
  unfold skipBlock
  rw [remaining_move, Chunk.skipBlock_move]
  cases Chunk.skipBlock 0 s.remaining with
  | some rest => rfl
  | none => exact report_move { s with remaining := [] } _ brace

@[simp] theorem recover_move (s : AnalysisState) (head brace : Token) :
    (move m s).recover (move m head) (move m brace) = move m (s.recover head brace) := by
  have skips : (move m s).skipsBody (move m head) = s.skipsBody head := rfl
  unfold recover
  rw [skips]
  exact ite_move (skipBlock_move s brace) (pushRecovery_move s head)

theorem settle_move (outcome : Outcome) (depth : Nat) (first : Token) (rest : List Token)
    (s : AnalysisState) :
    settle (move m outcome) depth (move m first) (move m rest) (move m s) =
      move m (settle outcome depth first rest s) := by
  obtain ⟨env, result⟩ := outcome
  have head : (((move m first) :: move m rest).find? (!·.kind.isModifier)).getD (move m first) =
      move m (((first :: rest).find? (!·.kind.isModifier)).getD first) := by
    rw [← move_cons, find?_move fun _ => rfl, getD_move]
  have goesOn (s : AnalysisState) :
      (if ((move m rest).getLast?.getD (move m first)).is .leftBrace &&
          (move m s).environment.scopes.depth = depth then
        (move m s).recover
          (((move m first :: move m rest).find? (!·.kind.isModifier)).getD (move m first))
          ((move m rest).getLast?.getD (move m first))
      else move m s) =
      move m (if (rest.getLast?.getD first).is .leftBrace && s.environment.scopes.depth = depth then
        s.recover (((first :: rest).find? (!·.kind.isModifier)).getD first)
          (rest.getLast?.getD first)
      else s) := by
    rw [head, getLast?_move, getD_move, is_move, environment_move, Environment.scopes_move,
      ScopeStack.depth_move]
    exact ite_move (recover_move s _ _) rfl
  have entered : { move m s with environment := move m env } =
      move m { s with environment := env } := rfl
  cases result with
  | error r =>
      have reported := goesOn ({ s with environment := env }.reportTo r)
      rw [← reportTo_move, ← entered] at reported
      exact reported
  | ok node =>
      have quiet := goesOn { s with environment := env }
      cases node with
      | none => exact quiet
      | some node =>
          exact (congrArg (AnalysisState.append · (move m node)) quiet).trans (append_move _ node)

theorem readStatement_move (s : AnalysisState) (first : Token) (rest : List Token) :
    (move m s).readStatement (move m first) (move m rest) = move m (s.readStatement first rest) := by
  show settle (((move m s).checkReachable (move m first)).environment.statement _ _ _) _ _ _ _ = _
  rw [checkReachable_move, environment_move, setting_move, Environment.statement_move,
    Environment.scopes_move, ScopeStack.depth_move, settle_move]
  rfl

theorem attachBody_move (modules : ModuleTree) (body : Node) (owner : BodyOwner) :
    attachBody (move m modules) (move m body) owner = move m (attachBody modules body owner) := by
  cases owner with
  | function owner name types =>
      cases owner with
      | module id => exact ModuleTree.modifyFunction_move (by exact fun _ => rfl) modules id name types
      | inClass id c =>
          refine ModuleTree.modifyClass_move (fun a => ?_) modules id c
          refine congrArg (fun methods => { move m a with methods }) ?_
          exact functions_modify_move (by exact fun _ => rfl) a.methods name types
  | constructor id c =>
      refine ModuleTree.modifyClass_move (fun a => ?_) modules id c
      refine congrArg (fun constructor => { move m a with constructor }) ?_
      exact option_map_move (by exact fun _ => rfl) a.constructor

theorem attached_move (s : AnalysisState) (b : Block) (node : Node) :
    (match b.bodyOf with
      | some owner => (move m s).modifyModules (attachBody · (move m node) owner)
      | none => move m s).append (move m node) = move m ((match b.bodyOf with
      | some owner => s.modifyModules (attachBody · node owner)
      | none => s).append node) := by
  cases b.bodyOf with
  | none => exact append_move s node
  | some owner =>
      have attached := modifyModules_move (m := m) (f := (attachBody · (move m node) owner))
        (fun modules => attachBody_move modules node owner) s
      exact (congrArg (AnalysisState.append · (move m node)) attached).trans (append_move _ node)

theorem closeFunction_move (s : AnalysisState) (b : Block) (node : Node) (brace : Token) :
    (move m s).closeFunction (move m b) (move m node) (move m brace) =
      move m (s.closeFunction b node brace) := by
  unfold closeFunction
  rw [returnType_move, returned_move, bodyOf_move]
  cases b.returnType with
  | none => exact attached_move s b node
  | some type =>
      have checked : (if type.isVoid || b.returned then move m s
          else (move m s).report (TypeFault.missingReturn type) (move m brace)) =
          move m (if type.isVoid || b.returned then s
            else s.report (TypeFault.missingReturn type) brace) :=
        ite_move rfl (report_move s _ brace)
      simp only [checked]
      exact attached_move _ b node

theorem closeFrame_move (s : AnalysisState) (frame : Frame) (node : Node) (brace : Token) :
    (move m s).closeFrame (move m frame) (move m node) (move m brace) =
      move m (s.closeFrame frame node brace) := by
  cases frame with
  | parent | module => exact append_move s node
  | «class» id c =>
      have declared : (if s.declaring then (move m s).modifyModules (·.insertClass id (move m c))
          else move m s) = move m (if s.declaring then s.modifyModules (·.insertClass id c) else s) :=
        ite_move (modifyModules_move (fun t => ModuleTree.insertClass_move t id c) s) rfl
      exact (congrArg (AnalysisState.append · (move m node)) declared).trans (append_move _ node)
  | enum id e =>
      have declared : (if s.declaring then (move m s).modifyModules (·.insertEnum id e)
          else move m s) = move m (if s.declaring then s.modifyModules (·.insertEnum id e) else s) :=
        ite_move (modifyModules_move (fun t => ModuleTree.insertEnum_move t id e) s) rfl
      exact (congrArg (AnalysisState.append · (move m node)) declared).trans (append_move _ node)
  | block kind b =>
      cases kind with
      | function => exact closeFunction_move s b node brace
      | doLoop => rfl
      | branch | whileLoop | loopHead => exact append_move s node
      | forLoop =>
          simp only [move_block, closeFrame, append_move]
          generalize s.append node = s
          rw [environment_move, Environment.scopes_move, ScopeStack.pop?_move]
          cases s.environment.scopes.pop? with
          | none => rfl
          | some found =>
              exact append_move
                { s with environment := { s.environment with scopes := found.2 } } found.1.node

theorem closeScope_move (s : AnalysisState) (brace : Token) :
    (move m s).closeScope (move m brace) = move m (s.closeScope brace) := by
  unfold closeScope
  rw [environment_move, Environment.scopes_move, ScopeStack.pop?_move]
  cases s.environment.scopes.pop? with
  | none => exact report_move s _ brace
  | some found =>
      obtain ⟨scope, scopes⟩ := found
      refine ite_move rfl ?_
      exact closeFrame_move { s with environment := { s.environment with scopes } } scope.frame
        scope.node brace

theorem finishDo_move (s : AnalysisState) (block : Node) (keyword : Token)
    (condition : List Token) :
    (move m s).finishDo (move m block) (move m keyword) (move m condition) =
      move m (s.finishDo block keyword condition) := by
  unfold finishDo
  have read := Environment.wrappedCondition_move (m := m) s.environment condition keyword
  simp only [environment_move, read]
  cases s.environment.wrappedCondition condition keyword with
  | ok node =>
      simp only [move_ok, MiLanguage.push_move]
      exact append_move { s with pendingDo := none } (block.push node)
  | error r =>
      have reported := reportTo_move (m := m) { s with pendingDo := none } r
      exact (congrArg (AnalysisState.append · (move m block)) reported).trans (append_move _ block)

theorem statementOrBrace_move (s : AnalysisState) (first : Token) (rest : List Token) :
    (move m s).statementOrBrace (move m first) (move m rest) =
      move m (s.statementOrBrace first rest) :=
  ite_move (closeScope_move s first) (readStatement_move s first rest)

theorem statement_move (s : AnalysisState) (first : Token) (rest : List Token) :
    (move m s).statement (move m first) (move m rest) = move m (s.statement first rest) := by
  unfold statement
  rw [pendingDo_move, getLast?_move, getD_move, dropLast_move]
  cases s.pendingDo with
  | none => exact statementOrBrace_move s first rest
  | some block =>
      simp only [move_some, is_move]
      refine ite_move (finishDo_move s block first rest.dropLast) ?_
      rw [report_move, flushDo_move, statementOrBrace_move]

theorem step_move (s : AnalysisState) : (move m s).step = move m s.step := by
  unfold step
  rw [remaining_move]
  cases s.remaining with
  | nil => rfl
  | cons first rest =>
      simp only [move_cons, Chunk.next_move]
      obtain ⟨chunk, rest⟩ := Chunk.next first rest
      cases chunk with
      | statement first taken => exact congrArg some (statement_move { s with remaining := rest } first taken)
      | endsAtBrace t => exact congrArg some (report_move { s with remaining := rest } _ t)
      | endsAtInput t => exact congrArg some (report_move { s with remaining := rest } _ t)

theorem steps_move (bound : Nat) (s : AnalysisState) :
    steps bound (move m s) = move m (steps bound s) := by
  induction bound generalizing s with
  | zero => rfl
  | succ bound ih =>
      simp only [steps, step_move]
      cases s.step with
      | none => rfl
      | some next => exact ih next

theorem unclosed_move (s : AnalysisState) (last : Option Token) :
    (match (move m s).environment.scopes.opened, move m last with
      | _ :: _, some t => (move m s).report SyntaxFault.unclosedScope t
      | _, _ => move m s) = move m (match s.environment.scopes.opened, last with
      | _ :: _, some t => s.report SyntaxFault.unclosedScope t
      | _, _ => s) := by
  rw [environment_move, Environment.scopes_move, ScopeStack.opened_move]
  cases s.environment.scopes.opened with
  | nil => rfl
  | cons scope scopes =>
      cases last with
      | none => rfl
      | some t => exact report_move s _ t

theorem finish_move (s : AnalysisState) (last : Option Token) :
    (move m s).finish (move m last) = move m (s.finish last) := by
  unfold finish
  rw [pendingDo_move]
  cases s.pendingDo with
  | none =>
      simp only [move_none, flushDo_move]
      exact unclosed_move (m := m) s.flushDo last
  | some _ =>
      cases last with
      | none =>
          simp only [move_some, move_none, flushDo_move]
          exact unclosed_move (m := m) s.flushDo none
      | some t =>
          simp only [move_some, report_move, flushDo_move]
          exact unclosed_move (m := m) _ (some t)

theorem closeAll_move (opened : List Scope) : closeAll (move m opened) = move m (closeAll opened) := by
  refine foldl_move (β := List Node) (fun inner scope => ?_) opened []
  rw [discard_move, scope_node_move, withChildren_move]
  exact ite_move rfl rfl

theorem root_move (s : AnalysisState) : (move m s).root = move m s.root := by
  unfold root
  simp only [declaring_move, environment_move, Environment.scopes_move, ScopeStack.opened_move,
    ScopeStack.base_move, scope_node_move, closeAll_move, withChildren_move]
  exact ite_move rfl rfl

end AnalysisState

namespace Analysis

instance : Movable Analysis := ⟨fun m a => ⟨move m a.root, move m a.modules, move m a.log⟩⟩

theorem emptyRoot_move : move m emptyRoot = emptyRoot := by
  rw [emptyRoot, move_new, m.streamLine_zero]
  rfl

theorem startPass_move (setting : Setting) (modules : ModuleTree) (log : DiagnosticLog)
    (tokens : List Token) :
    startPass setting (move m modules) (move m log) (move m tokens) =
      move m (startPass setting modules log tokens) := by
  have scopes : ScopeStack.start ModuleTree.root emptyRoot =
      move m (ScopeStack.start ModuleTree.root emptyRoot) :=
    congrArg (fun root => (⟨[], ⟨.parent ModuleTree.root, root, false⟩⟩ : ScopeStack))
      emptyRoot_move.symm
  have library : (move m tokens).head?.any (·.span.isLibrary) =
      tokens.head?.any (·.span.isLibrary) := by
    rw [head?_move, option_any_move fun _ => rfl]
  unfold startPass
  rw [library]
  exact congrArg (fun scopes => (⟨setting, move m tokens,
    ⟨move m modules, scopes, tokens.head?.any (·.span.isLibrary)⟩, move m log, none⟩ :
    AnalysisState)) scopes

theorem runPass_move (setting : Setting) (modules : ModuleTree) (log : DiagnosticLog)
    (tokens : List Token) :
    runPass setting (move m modules) (move m log) (move m tokens) =
      move m (runPass setting modules log tokens) := by
  unfold runPass
  rw [startPass_move, length_move, getLast?_move, AnalysisState.steps_move, AnalysisState.finish_move]

-- An analysis does not hang on where the tokens stand: from the same tokens in other places comes
-- the same analysis, in those places.
theorem ofTokens_move (host : Host) (maxErrors : Nat) (tokens : List Token) :
    ofTokens host maxErrors (move m tokens) = move m (ofTokens host maxErrors tokens) := by
  have declares := runPass_move (m := m) ⟨.declarations, host⟩ .empty { maxErrors } tokens
  have quiet : move m ({ maxErrors } : DiagnosticLog) = { maxErrors } := rfl
  rw [ModuleTree.empty_move, quiet] at declares
  unfold ofTokens
  simp only [declares, AnalysisState.log_move, DiagnosticLog.failed_move,
    AnalysisState.environment_move, Environment.modules_move, runPass_move, AnalysisState.root_move]
  refine ite_move ?_ rfl
  exact congrArg (Analysis.mk · _ _) emptyRoot_move.symm

end Analysis

end MiLanguage
