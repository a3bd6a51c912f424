import MiLanguage.Proofs.Analysis.Pass
import MiLanguage.Proofs.Nesting.Step

set_option autoImplicit false

namespace MiLanguage

-- The scope as it would be if its function had returned.
def Scope.fulfilled (s : Scope) : Scope :=
  { s with frame := s.frame.modifyBlock ({ · with returned := true }) }

@[simp] theorem Scope.fulfilled_node (s : Scope) : s.fulfilled.node = s.node := rfl

@[simp] theorem Scope.fulfilled_discard (s : Scope) : s.fulfilled.discard = s.discard := rfl

namespace AnalysisState

-- The first token of a statement that is no modifier.
def leading (first : Token) (rest : List Token) : Token :=
  ((first :: rest).find? (!·.kind.isModifier)).getD first

/-- What a step of the second pass is made of, whatever it reports. -/
inductive Turns (s : AnalysisState) : AnalysisState → Prop
  | reports (log : DiagnosticLog) : Turns s { s with log }
  | breaksOff {head : Token} {tail later : List Token} {chunk : Chunk} (log : DiagnosticLog) :
      s.remaining = head :: tail → Chunk.next head tail = (chunk, later) →
      chunk.breaksOff = true → Turns s { s with remaining := later, log }
  | flushes {block : Node} :
      s.pendingDo = some block →
      Turns s { s with environment := s.environment.append s.setting block, pendingDo := none }
  | completes {block condition : Node} {first : Token} {rest later : List Token} :
      s.pendingDo = some block → s.Takes first rest later → first.kind = .keyword .«while» →
      Ends first rest .semicolon →
      s.environment.wrappedCondition rest.dropLast first = .ok condition →
      Turns s { s with
        remaining := later
        environment := s.environment.append s.setting (block.push condition)
        pendingDo := none }
  | fails {block : Node} {first : Token} {rest later : List Token} (log : DiagnosticLog) :
      s.pendingDo = some block → s.Takes first rest later → first.kind = .keyword .«while» →
      Ends first rest .semicolon →
      Turns s { s with
        remaining := later, environment := s.environment.append s.setting block, log
        pendingDo := none }
  | closes {brace : Token} {later : List Token} {scope : Scope} {scopes : ScopeStack}
      {after : Environment} {waiting : Option Node} (log : DiagnosticLog) :
      s.pendingDo = none → s.remaining = brace :: later → brace.kind = .rightBrace →
      s.environment.scopes.pop? = some (scope, scopes) →
      Environment.Closes s.setting { s.environment with scopes } scope.fulfilled after waiting →
      Turns s { s with remaining := later, environment := after, log, pendingDo := waiting }
  | stray {brace : Token} {later : List Token} (log : DiagnosticLog) :
      s.pendingDo = none → s.remaining = brace :: later → brace.kind = .rightBrace →
      s.environment.scopes.pop? = none → Turns s { s with remaining := later, log }
  | warns {warned : Environment} (log : DiagnosticLog) :
      s.pendingDo = none → s.environment.Warned warned →
      Turns s { s with environment := warned, log }
  | accepts {first : Token} {rest later : List Token} {mods : LeadingModifiers} {head : Token}
      {tail : List Token} {accepted : Accepted} :
      s.pendingDo = none → s.Takes first rest later → first.kind ≠ .rightBrace →
      LeadingModifiers.read (first :: rest) = .ok (mods, head :: tail) →
      Accepts s.environment s.setting mods head tail accepted →
      s.environment.statement s.setting first rest = ⟨accepted.environment, .ok accepted.node⟩ →
      (Ends first rest .leftBrace →
        accepted.environment.scopes.depth ≠ s.environment.scopes.depth) →
      Turns s { s with remaining := later, environment := accepted.settled s.setting }
  | rejects {first : Token} {rest later : List Token} {r : Report} (log : DiagnosticLog) :
      s.pendingDo = none → s.Takes first rest later → first.kind ≠ .rightBrace →
      (s.environment.statement s.setting first rest).result = .error r →
      Ends first rest .semicolon → Turns s { s with remaining := later, log }
  | recovers {first : Token} {rest later : List Token} {r : Report} (log : DiagnosticLog) :
      s.pendingDo = none → s.Takes first rest later → first.kind ≠ .rightBrace →
      (s.environment.statement s.setting first rest).result = .error r →
      Ends first rest .leftBrace → s.skipsBody (leading first rest) = false →
      Turns s ({ s with remaining := later, log }.pushRecovery (leading first rest))
  | skips {first : Token} {rest later beyond : List Token} (log : DiagnosticLog) :
      s.pendingDo = none → s.Takes first rest later → first.kind ≠ .rightBrace →
      (s.environment.statement s.setting first rest).environment = s.environment →
      Ends first rest .leftBrace → s.skipsBody (leading first rest) = true →
      Chunk.skipBlock 0 later = some beyond → Turns s { s with remaining := beyond, log }
  | runsOff {first : Token} {rest later : List Token} (log : DiagnosticLog) :
      s.pendingDo = none → s.Takes first rest later → first.kind ≠ .rightBrace →
      (s.environment.statement s.setting first rest).environment = s.environment →
      Ends first rest .leftBrace → s.skipsBody (leading first rest) = true →
      Chunk.skipBlock 0 later = none → Turns s { s with remaining := [], log }

-- Whatever has been reported, the second pass comes from `s` to `t`.
def Reaches : AnalysisState → AnalysisState → Prop := Relation.ReflTransGen Turns

variable {s t u : AnalysisState}

theorem Turns.setting (turns : s.Turns t) : t.setting = s.setting := by
  cases turns <;> rfl

theorem Reaches.setting (reaches : s.Reaches t) : t.setting = s.setting := by
  induction reaches with
  | refl => rfl
  | tail _ turns ih => exact turns.setting.trans ih

theorem reaches_report (s : AnalysisState) (fault : Fault) (place : Token) :
    s.Reaches (s.report fault place) :=
  .single (.reports _)

theorem reaches_flushDo (s : AnalysisState) : s.Reaches s.flushDo := by
  unfold flushDo
  split
  next waiting => exact .single (.flushes waiting)
  next => exact .refl

theorem Takes.ends {first : Token} {rest later : List Token} (takes : s.Takes first rest later)
    (notClosing : first.kind ≠ .rightBrace) : Ends first rest .semicolon ∨ Ends first rest .leftBrace := by
  obtain ⟨head, tail, _, next⟩ := takes
  obtain ⟨_, last, _, same, kind, _⟩ := Chunk.next_depth next notClosing
  unfold Ends
  rw [same]
  exact kind

-- In the second pass, only a class or an enum that is missing opens nothing.
theorem same_of_brace {env : Environment} {mods : LeadingModifiers} {head : Token}
    {tail : List Token} {accepted : Accepted} (pass : s.declaring = false)
    (accepts : Accepts env s.setting mods head tail accepted) (brace : Ends head tail .leftBrace)
    (level : accepted.environment.scopes.depth = env.scopes.depth) :
    accepted.environment = env := by
  obtain ⟨skips, _⟩ := skipsBody_of_brace accepts brace level
  have declaring : ¬s.setting.declaring = true := by
    rw [AnalysisState.declaring] at pass
    simp [pass]
  cases accepts with
  | classMissing => rfl
  | enumMissing => rfl
  | nativeKept => rfl
  | membersKept => rfl
  | variableKept => rfl
  | called => rfl
  | functionDeclared _ _ _ first => exact absurd first declaring
  | constructorDeclared _ _ _ first => exact absurd first declaring
  | moduleDeclared | moduleEntered | classDeclared | classEntered | enumDeclared | enumEntered =>
      simp at level
  | conditional | doLoop => simp at level
  | functionOpened | constructorOpened => simp at level
  | forLoop _ _ _ defines _ advances =>
      have depth := (defines.updated.scopes.trans advances.updated.scopes).depth
      simp only [List.foldl_cons, List.foldl_nil, Environment.depth_push, Environment.depth_append]
        at level depth
      omega
  | membersDeclared kind => simp [skipsBody, kind] at skips
  | nativeDeclared _ semicolon =>
      rw [Ends, brace] at semicolon
      cases semicolon
  | returned kind => simp [skipsBody, kind] at skips
  | exited starts => rcases exitKind_eq_some starts with ⟨kind, _⟩ | ⟨kind, _⟩ <;> simp [skipsBody, kind] at skips
  | used kind => simp [skipsBody, kind] at skips
  | libraryEnded kind => simp [skipsBody, kind] at skips
  | variableDefined _ semicolon =>
      rw [Ends, brace] at semicolon
      cases semicolon
  | assigned kind => simp [skipsBody, kind] at skips

theorem closeFunction_turns {b : Block} {scope : Scope} (brace : Token)
    (kept : scope.discard = false) (frame : scope.frame = .block .function b) :
    ∃ after log, s.closeFunction b scope.node brace = { s with environment := after, log } ∧
      Environment.Closes s.setting s.environment scope.fulfilled after none := by
  have closes : Environment.Closes s.setting s.environment scope.fulfilled _ none :=
    .function kept (by rw [Scope.fulfilled, frame]; rfl) fun _ _ => .inr rfl
  rw [closeFunction_eq]
  split
  next =>
    split
    next => exact ⟨_, s.log, rfl, closes⟩
    next => exact ⟨_, _, rfl, closes⟩
  next => exact ⟨_, s.log, rfl, closes⟩

theorem closeFrame_turns {scope : Scope} (brace : Token) (idle : s.pendingDo = none)
    (kept : scope.discard = false) :
    ∃ after waiting log,
      s.closeFrame scope.frame scope.node brace =
        { s with environment := after, pendingDo := waiting, log } ∧
      Environment.Closes s.setting s.environment scope.fulfilled after waiting := by
  have stays : ∀ {after : Environment},
      Environment.Closes s.setting s.environment scope.fulfilled after none →
      ∃ after' waiting log, { s with environment := after } =
        { s with environment := after', pendingDo := waiting, log } ∧
        Environment.Closes s.setting s.environment scope.fulfilled after' waiting :=
    fun closes => ⟨_, none, s.log, idle_eq idle _ s.log, closes⟩
  cases frame : scope.frame with
  | parent =>
      simp only [closeFrame]
      exact stays (.module kept (by rw [Scope.fulfilled, frame]; rfl))
  | module =>
      simp only [closeFrame]
      exact stays (.module kept (by rw [Scope.fulfilled, frame]; rfl))
  | «class» id c =>
      have closes : Environment.Closes s.setting s.environment scope.fulfilled _ _ :=
        .class kept (by rw [Scope.fulfilled, frame]; rfl)
      simp only [closeFrame]
      by_cases pass : s.declaring = true
      · rw [if_pos pass]
        rw [if_pos (by exact pass)] at closes
        exact stays closes
      · rw [if_neg pass]
        rw [if_neg (by exact pass)] at closes
        exact stays closes
  | enum id e =>
      have closes : Environment.Closes s.setting s.environment scope.fulfilled _ _ :=
        .enum kept (by rw [Scope.fulfilled, frame]; rfl)
      simp only [closeFrame]
      by_cases pass : s.declaring = true
      · rw [if_pos pass]
        rw [if_pos (by exact pass)] at closes
        exact stays closes
      · rw [if_neg pass]
        rw [if_neg (by exact pass)] at closes
        exact stays closes
  | block kind b =>
      have fulfilled : scope.fulfilled.frame = .block kind { b with returned := true } := by
        rw [Scope.fulfilled, frame]
        rfl
      cases kind with
      | function =>
          simp only [closeFrame]
          obtain ⟨after, log, same, closes⟩ := closeFunction_turns (s := s) brace kept frame
          refine ⟨after, none, log, ?_, closes⟩
          rw [same]
          exact idle_eq idle _ _
      | doLoop =>
          exact ⟨s.environment, some scope.node, s.log, rfl, .doLoop kept fulfilled⟩
      | forLoop =>
          simp only [closeFrame]
          cases popped : (s.append scope.node).environment.scopes.pop? with
          | none => exact stays (.bare kept fulfilled popped)
          | some pair =>
              obtain ⟨head, scopes⟩ := pair
              exact stays (.forLoop kept fulfilled popped)
      | branch | whileLoop | loopHead =>
          simp only [closeFrame]
          exact stays (.block kept fulfilled (by simp))

theorem closeScope_reaches {brace : Token} {later : List Token} (idle : s.pendingDo = none)
    (remaining : s.remaining = brace :: later) (kind : brace.kind = .rightBrace) :
    s.Reaches ({ s with remaining := later }.closeScope brace) := by
  unfold closeScope
  dsimp only
  cases popped : s.environment.scopes.pop? with
  | none => exact .single (.stray _ idle remaining kind popped)
  | some pair =>
      obtain ⟨scope, scopes⟩ := pair
      dsimp only
      cases kept : scope.discard with
      | true =>
          have turns : s.Turns _ := .closes s.log idle remaining kind popped (.discarded kept)
          rw [← idle] at turns
          exact .single turns
      | false =>
          simp only [Bool.false_eq_true, if_false]
          obtain ⟨after, waiting, log, same, closes⟩ :=
            closeFrame_turns (s := { s with remaining := later, environment :=
              { s.environment with scopes } }) brace idle kept
          rw [same]
          exact .single (.closes log idle remaining kind popped closes)

-- A statement that ends in a brace and has opened nothing.
theorem recover_reaches {first : Token} {rest later : List Token} (log : DiagnosticLog)
    (idle : s.pendingDo = none) (takes : s.Takes first rest later) (notClosing : first.kind ≠ .rightBrace)
    (same : (s.environment.statement s.setting first rest).environment = s.environment)
    (brace : Ends first rest .leftBrace)
    (kept : s.skipsBody (leading first rest) = false →
      ∃ r, (s.environment.statement s.setting first rest).result = .error r) (place : Token) :
    s.Reaches ({ s with remaining := later, log }.recover (leading first rest) place) := by
  unfold recover
  split
  next skips =>
    have skips : s.skipsBody (leading first rest) = true := skips
    unfold skipBlock
    split
    next beyond found => exact .single (.skips log idle takes notClosing same brace skips found)
    next endless => exact .single (.runsOff _ idle takes notClosing same brace skips endless)
  next stays =>
    have stays : s.skipsBody (leading first rest) = false := Bool.eq_false_iff.mpr stays
    obtain ⟨r, error⟩ := kept stays
    exact .single (.recovers log idle takes notClosing error brace stays)

theorem readStatement_reaches {first : Token} {rest later : List Token} (pass : s.declaring = false)
    (idle : s.pendingDo = none) (takes : s.Takes first rest later)
    (notClosing : first.kind ≠ .rightBrace) :
    s.Reaches ({ s with remaining := later }.readStatement first rest) := by
  obtain ⟨warned, log, checked, _, warns⟩ :=
    checkReachable_warned { s with remaining := later } first
  simp only [readStatement, checked]
  dsimp only at warns
  have marked : s.Turns { s with environment := warned, log } := .warns log idle warns
  refine Relation.ReflTransGen.head marked ?_
  have takes' : ({ s with environment := warned, log } : AnalysisState).Takes first rest later := takes
  generalize read : warned.statement s.setting first rest = outcome
  obtain ⟨after, result⟩ := outcome
  cases result with
  | error r =>
      have same : after = warned := by
        rcases Environment.statement_rejects_cases read with rfl | ⟨declaring, _⟩
        · rfl
        · have pass : s.setting.declaring = false := pass
          rw [pass] at declaring
          cases declaring
      subst same
      dsimp only
      split
      next skips =>
        simp only [Bool.and_eq_true, Token.is_iff] at skips
        refine recover_reaches (s := { s with environment := after, log }) _ idle takes' notClosing ?_
          skips.1 (fun _ => ⟨r, ?_⟩) _
        · exact congrArg Outcome.environment read
        · exact congrArg Outcome.result read
      next stays =>
        rcases takes.ends notClosing with semicolon | brace
        · have error : (after.statement s.setting first rest).result = .error r :=
            congrArg Outcome.result read
          exact .single (.rejects _ idle takes' notClosing error semicolon)
        · have last : (rest.getLast?.getD first).kind = .leftBrace := brace
          refine absurd ?_ stays
          simp only [Bool.and_eq_true, Token.is_iff, decide_eq_true_eq]
          exact ⟨last, rfl⟩
  | ok node =>
      obtain ⟨mods, head, tail, modifiers, accepts⟩ := Environment.statement_accepts read
      obtain ⟨found, last⟩ := find_head modifiers
      have sameLast : rest.getLast?.getD first = tail.getLast?.getD head := by
        rw [List.getLast?_cons] at last
        exact Option.some.inj last
      dsimp only
      by_cases skips : ((rest.getLast?.getD first).is .leftBrace &&
          decide (after.scopes.depth = warned.scopes.depth)) = true
      · simp only [if_pos skips]
        simp only [Bool.and_eq_true, Token.is_iff, decide_eq_true_eq] at skips
        have brace : Ends head tail .leftBrace := by
          rw [Ends, ← sameLast]
          exact skips.1
        obtain ⟨skipped, silent⟩ := skipsBody_of_brace accepts brace skips.2
        have same : after = warned := same_of_brace pass accepts brace skips.2
        cases silent
        subst same
        have leads : leading first rest = head := by rw [leading, found, Option.getD_some]
        refine recover_reaches (s := { s with environment := after, log }) log idle takes' notClosing ?_
          skips.1 (fun stays => ?_) _
        · exact congrArg Outcome.environment read
        · rw [leads] at stays
          have skipped : s.skipsBody head = true := skipped
          have stays : s.skipsBody head = false := stays
          rw [skipped] at stays
          cases stays
      · simp only [if_neg skips]
        have accepted : AnalysisState.Turns { s with environment := warned, log } _ :=
          .accepts idle takes' notClosing modifiers accepts read (by
            intro brace level
            have last : (rest.getLast?.getD first).kind = .leftBrace := brace
            exact skips (by simpa [last] using level))
        cases node with
        | none => exact .single accepted
        | some node => exact .single accepted

theorem finishDo_reaches {block : Node} {first : Token} {rest later : List Token}
    (waiting : s.pendingDo = some block) (takes : s.Takes first rest later)
    (keyword : first.kind = .keyword .«while») (ends : Ends first rest .semicolon) :
    s.Reaches ({ s with remaining := later }.finishDo block first rest.dropLast) := by
  simp only [finishDo]
  split
  next condition read => exact .single (.completes waiting takes keyword ends read)
  next => exact .single (.fails _ waiting takes keyword ends)

theorem statementOrBrace_reaches {first : Token} {rest later : List Token}
    (pass : s.declaring = false) (idle : s.pendingDo = none) (takes : s.Takes first rest later) :
    s.Reaches ({ s with remaining := later }.statementOrBrace first rest) := by
  unfold statementOrBrace
  by_cases brace : first.is .rightBrace = true
  · rw [if_pos brace]
    have kind : first.kind = .rightBrace := by simpa using brace
    obtain ⟨head, tail, remaining, next⟩ := takes
    obtain ⟨rfl, rfl, alone | ⟨unended, _⟩⟩ := Chunk.next_statement next
    · obtain ⟨_, rfl⟩ := alone
      exact closeScope_reaches idle remaining kind
    · rw [kind] at unended
      cases unended
  · rw [if_neg brace]
    exact readStatement_reaches pass idle takes (by simpa using brace)

theorem statement_reaches {first : Token} {rest later : List Token} (pass : s.declaring = false)
    (takes : s.Takes first rest later) :
    s.Reaches ({ s with remaining := later }.statement first rest) := by
  rcases Option.eq_none_or_eq_some s.pendingDo with idle | ⟨block, waiting⟩
  · rw [statement_idle (by exact idle)]
    exact statementOrBrace_reaches pass idle takes
  · rw [statement_waiting (by exact waiting)]
    split
    next completes =>
      simp only [Bool.and_eq_true, Token.is_iff] at completes
      exact finishDo_reaches waiting takes completes.1 completes.2
    next =>
      have flushed := (s.reaches_report (SyntaxFault.doWithoutWhile false) first).trans
        (reaches_flushDo _)
      refine flushed.trans ?_
      have commutes : ({ s with remaining := later }.report (SyntaxFault.doWithoutWhile false)
          first).flushDo =
          { (s.report (SyntaxFault.doWithoutWhile false) first).flushDo with remaining := later } := by
        simp only [flushDo, report, waiting, append]
      rw [commutes]
      refine statementOrBrace_reaches ?_ (idle_flushDo _) ?_
      · rw [AnalysisState.declaring, Reaches.setting flushed]
        exact pass
      · obtain ⟨head, tail, remaining, next⟩ := takes
        refine ⟨head, tail, ?_, next⟩
        simpa only [flushDo, report, waiting, append] using remaining

theorem step_reaches (pass : s.declaring = false) (stepped : s.step = some t) : s.Reaches t := by
  unfold step at stepped
  split at stepped
  next => cases stepped
  next head tail remaining =>
    generalize next : Chunk.next head tail = found at stepped
    obtain ⟨chunk, later⟩ := found
    cases chunk with
    | endsAtBrace => cases stepped; exact .single (.breaksOff _ remaining next rfl)
    | endsAtInput => cases stepped; exact .single (.breaksOff _ remaining next rfl)
    | statement first rest =>
        cases stepped
        exact statement_reaches pass ⟨head, tail, remaining, next⟩

theorem steps_reaches (bound : Nat) (pass : s.declaring = false) : s.Reaches (steps bound s) := by
  induction bound generalizing s with
  | zero => exact .refl
  | succ bound ih =>
      unfold steps
      cases stepped : s.step with
      | none => exact .refl
      | some t =>
          have reaches := step_reaches pass stepped
          refine reaches.trans (ih ?_)
          rw [AnalysisState.declaring, reaches.setting]
          exact pass

theorem finish_reaches (last : Option Token) : s.Reaches (s.finish last) := by
  obtain ⟨u, flushes, ends⟩ := s.finish_cases last
  have flushed : s.Reaches u := by
    rcases flushes with rfl | ⟨t, rfl⟩
    · exact reaches_flushDo s
    · exact (s.reaches_report _ _).trans (reaches_flushDo _)
  rcases ends with same | ⟨t, same⟩
  · exact same ▸ flushed
  · exact same ▸ flushed.trans (reaches_report _ _ t)

end AnalysisState

theorem Analysis.runPass_reaches {setting : Setting} (pass : setting.declaring = false)
    (modules : ModuleTree) (log : DiagnosticLog) (tokens : List Token) :
    (startPass setting modules log tokens).Reaches (runPass setting modules log tokens) :=
  (AnalysisState.steps_reaches (s := startPass setting modules log tokens) _ pass).trans (AnalysisState.finish_reaches _)

end MiLanguage
