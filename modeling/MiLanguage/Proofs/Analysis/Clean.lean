import MiLanguage.Analysis.Run
import MiLanguage.Analysis.State
import MiLanguage.Proofs.Scope
import MiLanguage.Proofs.Statement.Accepts

set_option autoImplicit false

namespace MiLanguage

namespace Chunk

-- A statement of more than one token: only the last one ends a statement.
def Closed (rest : List Token) : Prop :=
  ∃ front last, rest = front ++ [last] ∧ (last.kind = .semicolon ∨ last.kind = .leftBrace) ∧
    ∀ t ∈ front, t.kind.isTerminator = false

theorem readFrom_statement {head first : Token} {read tokens rest later : List Token}
    (unended : ∀ t ∈ read, t.kind.isTerminator = false)
    (found : readFrom head read tokens = (.statement first rest, later)) :
    first = head ∧ Closed rest ∧ read ++ tokens = rest ++ later := by
  induction tokens generalizing read with
  | nil => cases found
  | cons t tokens ih =>
      unfold readFrom at found
      split at found
      next => cases found
      next kind =>
        cases found
        exact ⟨rfl, ⟨read, t, rfl, .inl kind, unended⟩, by simp⟩
      next kind =>
        cases found
        exact ⟨rfl, ⟨read, t, rfl, .inr kind, unended⟩, by simp⟩
      next rightBrace semicolon leftBrace =>
        have passes : ∀ u ∈ read ++ [t], u.kind.isTerminator = false := by
          intro u member
          rcases List.mem_append.mp member with member | member
          · exact unended u member
          · rw [List.mem_singleton.mp member]
            unfold TokenKind.isTerminator
            split
            next kind => exact absurd kind semicolon
            next kind => exact absurd kind leftBrace
            next kind => exact absurd kind rightBrace
            next => rfl
        obtain ⟨same, closed, whole⟩ := ih passes found
        exact ⟨same, closed, by simpa using whole⟩

-- A statement is a terminator alone, or ends with the first one after its start.
theorem next_statement {head first : Token} {tail rest later : List Token}
    (found : next head tail = (.statement first rest, later)) :
    first = head ∧ tail = rest ++ later ∧
      ((head.kind.isTerminator = true ∧ rest = []) ∨
        (head.kind.isTerminator = false ∧ Closed rest)) := by
  unfold next at found
  split at found
  next terminator =>
    cases found
    exact ⟨rfl, rfl, .inl ⟨terminator, rfl⟩⟩
  next unended =>
    obtain ⟨same, closed, whole⟩ := readFrom_statement (by simp) found
    exact ⟨same, whole, .inr ⟨by simpa using unended, closed⟩⟩

theorem skipBlock_suffix {depth : Nat} {tokens beyond : List Token}
    (skipped : skipBlock depth tokens = some beyond) : beyond <:+ tokens := by
  induction tokens generalizing depth with
  | nil => cases skipped
  | cons t rest ih =>
      have tail : rest <:+ t :: rest := List.suffix_cons t rest
      unfold skipBlock at skipped
      split at skipped
      next => exact (ih skipped).trans tail
      next => cases skipped; exact tail
      next => exact (ih skipped).trans tail
      next => exact (ih skipped).trans tail

theorem skipBlock_plain {t : Token} (left : t.kind ≠ .leftBrace) (right : t.kind ≠ .rightBrace)
    (depth : Nat) (rest : List Token) : skipBlock depth (t :: rest) = skipBlock depth rest := by
  cases depth with
  | zero => rw [skipBlock.eq_def]; split <;> simp_all
  | succ depth => rw [skipBlock.eq_def]; split <;> simp_all

theorem skipBlock_leftBrace {t : Token} (kind : t.kind = .leftBrace) (depth : Nat)
    (rest : List Token) : skipBlock depth (t :: rest) = skipBlock (depth + 1) rest := by
  rw [skipBlock]
  exact kind

theorem skipBlock_rightBrace {t : Token} (kind : t.kind = .rightBrace) (depth : Nat)
    (rest : List Token) : skipBlock (depth + 1) (t :: rest) = skipBlock depth rest := by
  simp [skipBlock, kind]

theorem skipBlock_append {front : List Token}
    (unended : ∀ t ∈ front, t.kind.isTerminator = false) (depth : Nat) (rest : List Token) :
    skipBlock depth (front ++ rest) = skipBlock depth rest := by
  induction front with
  | nil => rfl
  | cons t front ih =>
      have here := unended t (by simp)
      have left : t.kind ≠ .leftBrace := by intro kind; rw [kind] at here; cases here
      have right : t.kind ≠ .rightBrace := by intro kind; rw [kind] at here; cases here
      rw [List.cons_append, skipBlock_plain left right]
      exact ih fun u member => unended u (by simp [member])

end Chunk

-- The environment after an accepted statement, its node included.
def Accepted.settled (accepted : Accepted) (setting : Setting) : Environment :=
  match accepted.node with
  | some node => accepted.environment.append setting node
  | none => accepted.environment

-- The declarations once the body in a function's block is read.
def Block.attached (b : Block) (body : Node) (modules : ModuleTree) : ModuleTree :=
  match b.bodyOf with
  | some owner => AnalysisState.attachBody modules body owner
  | none => modules

namespace Environment

/-- A block may note that it has warned of what is out of reach. -/
inductive Warned (env : Environment) : Environment → Prop
  | same : Warned env env
  | marked {kind : BlockKind} {b : Block} :
      env.frame = .block kind b → Warned env (env.modifyBlock ({ · with warned := true }))

theorem Warned.updated {env warned : Environment} (warns : env.Warned warned) :
    env.Updated warned := by
  cases warns with
  | same => exact env.updated_refl
  | marked => exact updated_modifyBlock (fun _ => rfl) (fun _ => rfl) (fun _ => rfl)

/-- What a closed scope leaves to `env`, the environment around it, and the `do` block that waits
then. -/
inductive Closes (setting : Setting) (env : Environment) (scope : Scope) :
    Environment → Option Node → Prop
  | discarded : scope.discard = true → Closes setting env scope env none
  | «class» {id : ModuleId} {c : ClassDeclaration} :
      scope.discard = false → scope.frame = .class id c →
      Closes setting env scope
        (({ env with modules := if setting.declaring then env.modules.insertClass id c
            else env.modules }).append setting scope.node) none
  | enum {id : ModuleId} {e : EnumDeclaration} :
      scope.discard = false → scope.frame = .enum id e →
      Closes setting env scope
        (({ env with modules := if setting.declaring then env.modules.insertEnum id e
            else env.modules }).append setting scope.node) none
  | module : scope.discard = false → scope.frame.isModule = true →
      Closes setting env scope (env.append setting scope.node) none
  | function {b : Block} :
      scope.discard = false → scope.frame = .block .function b →
      (∀ type, b.returnType = some type → type.isVoid = true ∨ b.returned = true) →
      Closes setting env scope
        (({ env with modules := b.attached scope.node env.modules }).append setting scope.node) none
  | doLoop {b : Block} : scope.discard = false → scope.frame = .block .doLoop b →
      Closes setting env scope env (some scope.node)
  | forLoop {b : Block} {head : Scope} {scopes : ScopeStack} :
      scope.discard = false → scope.frame = .block .forLoop b →
      (env.append setting scope.node).scopes.pop? = some (head, scopes) →
      Closes setting env scope
        (({ env.append setting scope.node with scopes }).append setting head.node) none
  | bare {b : Block} : scope.discard = false → scope.frame = .block .forLoop b →
      (env.append setting scope.node).scopes.pop? = none →
      Closes setting env scope (env.append setting scope.node) none
  | block {kind : BlockKind} {b : Block} :
      scope.discard = false → scope.frame = .block kind b →
      kind = .branch ∨ kind = .whileLoop ∨ kind = .loopHead →
      Closes setting env scope (env.append setting scope.node) none

end Environment

namespace AnalysisState

-- No error has been reported.
def Clean (s : AnalysisState) : Prop := s.log.failed = false

-- The next statement ends before `later`.
def Takes (s : AnalysisState) (first : Token) (rest later : List Token) : Prop :=
  ∃ head tail, s.remaining = head :: tail ∧ Chunk.next head tail = (.statement first rest, later)

/-- The steps that report no error. -/
inductive Moves (s : AnalysisState) : AnalysisState → Prop
  | completes {block condition : Node} {first : Token} {rest later : List Token}
      (log : DiagnosticLog) :
      s.pendingDo = some block → s.Takes first rest later → first.kind = .keyword .«while» →
      Ends first rest .semicolon → s.environment.Decides condition →
      s.environment.wrappedCondition rest.dropLast first = .ok condition → log = s.log →
      Moves s { s with
        remaining := later
        environment := s.environment.append s.setting (block.push condition)
        log
        pendingDo := none }
  | closes {brace : Token} {later : List Token} {scope : Scope} {scopes : ScopeStack}
      {after : Environment} {waiting : Option Node} (log : DiagnosticLog) :
      s.pendingDo = none → s.remaining = brace :: later → brace.kind = .rightBrace →
      s.environment.scopes.pop? = some (scope, scopes) →
      Environment.Closes s.setting { s.environment with scopes } scope after waiting → log = s.log →
      Moves s { s with remaining := later, environment := after, log, pendingDo := waiting }
  | accepts {first : Token} {rest later : List Token} {warned : Environment}
      {mods : LeadingModifiers} {head : Token} {tail : List Token} {accepted : Accepted}
      (log : DiagnosticLog) :
      s.pendingDo = none → s.Takes first rest later → first.kind ≠ .rightBrace →
      s.environment.Warned warned →
      LeadingModifiers.read (first :: rest) = .ok (mods, head :: tail) →
      Accepts warned s.setting mods head tail accepted →
      (Ends head tail .leftBrace → accepted.environment.scopes.depth ≠ s.environment.scopes.depth) →
      warned.statement s.setting first rest = ⟨accepted.environment, .ok accepted.node⟩ →
      s.checkReachable first = { s with environment := warned, log } →
      Moves s { s with remaining := later, environment := accepted.settled s.setting, log }
  | skips {first : Token} {rest later beyond : List Token} {warned : Environment}
      {mods : LeadingModifiers} {head : Token} {tail : List Token} {accepted : Accepted}
      (log : DiagnosticLog) :
      s.pendingDo = none → s.Takes first rest later → first.kind ≠ .rightBrace →
      s.environment.Warned warned →
      LeadingModifiers.read (first :: rest) = .ok (mods, head :: tail) →
      Accepts warned s.setting mods head tail accepted → Ends head tail .leftBrace →
      accepted.environment.scopes.depth = s.environment.scopes.depth →
      Chunk.skipBlock 0 later = some beyond →
      warned.statement s.setting first rest = ⟨accepted.environment, .ok accepted.node⟩ →
      s.checkReachable first = { s with environment := warned, log } →
      Moves s { s with remaining := beyond, environment := accepted.settled s.setting, log }

variable {s t : AnalysisState}

theorem not_clean_report (s : AnalysisState) (fault : Fault) (place : Token) :
    ¬(s.report fault place).Clean := by
  simp [Clean, report]

@[simp] theorem clean_append (s : AnalysisState) (node : Node) :
    (s.append node).Clean ↔ s.Clean :=
  Iff.rfl

theorem clean_flushDo (clean : s.flushDo.Clean) : s.Clean := by
  unfold flushDo at clean
  split at clean
  next => exact clean
  next => exact clean

theorem idle_eq (idle : s.pendingDo = none) (environment : Environment) (log : DiagnosticLog) :
    { s with environment, log } = { s with environment, log, pendingDo := none } := by
  cases s
  cases idle
  rfl

theorem closeFunction_eq (s : AnalysisState) (b : Block) (node : Node) (brace : Token) :
    s.closeFunction b node brace =
      ((match b.returnType with
        | some type =>
            if type.isVoid || b.returned then s else s.report (TypeFault.missingReturn type) brace
        | none => s).modifyModules (b.attached node)).append node := by
  unfold closeFunction Block.attached modifyModules
  cases b.bodyOf <;> rfl

theorem closeFunction_closes {b : Block} {scope : Scope} {brace : Token}
    (kept : scope.discard = false) (frame : scope.frame = .block .function b)
    (clean : (s.closeFunction b scope.node brace).Clean) :
    s.Clean ∧ ∃ after, s.closeFunction b scope.node brace = { s with environment := after } ∧
      Environment.Closes s.setting s.environment scope after none := by
  rw [closeFunction_eq] at clean ⊢
  cases type : b.returnType with
  | none =>
      simp only [type] at clean ⊢
      exact ⟨clean, _, rfl, .function kept frame (by simp [type])⟩
  | some wanted =>
      simp only [type] at clean ⊢
      split at clean
      next returned =>
        rw [if_pos returned]
        refine ⟨clean, _, rfl, .function kept frame ?_⟩
        intro other same
        rw [type] at same
        cases same
        simpa using returned
      next => exact absurd clean (not_clean_report s _ _)

theorem closeFrame_closes {scope : Scope} {brace : Token} (idle : s.pendingDo = none)
    (kept : scope.discard = false) (clean : (s.closeFrame scope.frame scope.node brace).Clean) :
    s.Clean ∧ ∃ after waiting,
      s.closeFrame scope.frame scope.node brace =
        { s with environment := after, pendingDo := waiting } ∧
      Environment.Closes s.setting s.environment scope after waiting := by
  have stays : ∀ {after : Environment}, Environment.Closes s.setting s.environment scope after none →
      ∃ after' waiting, { s with environment := after } =
        { s with environment := after', pendingDo := waiting } ∧
        Environment.Closes s.setting s.environment scope after' waiting :=
    fun closes => ⟨_, none, idle_eq idle _ s.log, closes⟩
  cases frame : scope.frame with
  | parent =>
      simp only [frame, closeFrame] at clean ⊢
      exact ⟨clean, stays (.module kept (by rw [frame]; rfl))⟩
  | module =>
      simp only [frame, closeFrame] at clean ⊢
      exact ⟨clean, stays (.module kept (by rw [frame]; rfl))⟩
  | «class» id c =>
      have closes : Environment.Closes s.setting s.environment scope _ _ := .class kept frame
      simp only [frame, closeFrame] at clean ⊢
      by_cases pass : s.declaring = true
      · rw [if_pos pass] at clean ⊢
        rw [if_pos (by exact pass)] at closes
        exact ⟨clean, stays closes⟩
      · rw [if_neg pass] at clean ⊢
        rw [if_neg (by exact pass)] at closes
        exact ⟨clean, stays closes⟩
  | enum id e =>
      have closes : Environment.Closes s.setting s.environment scope _ _ := .enum kept frame
      simp only [frame, closeFrame] at clean ⊢
      by_cases pass : s.declaring = true
      · rw [if_pos pass] at clean ⊢
        rw [if_pos (by exact pass)] at closes
        exact ⟨clean, stays closes⟩
      · rw [if_neg pass] at clean ⊢
        rw [if_neg (by exact pass)] at closes
        exact ⟨clean, stays closes⟩
  | block kind b =>
      cases kind with
      | function =>
          simp only [frame, closeFrame] at clean ⊢
          obtain ⟨before, after, same, closes⟩ := closeFunction_closes kept frame clean
          rw [same]
          exact ⟨before, stays closes⟩
      | doLoop =>
          simp only [frame, closeFrame] at clean ⊢
          exact ⟨clean, s.environment, some scope.node, rfl, .doLoop kept frame⟩
      | forLoop =>
          simp only [frame, closeFrame] at clean ⊢
          cases popped : (s.append scope.node).environment.scopes.pop? with
          | none =>
              simp only [popped] at clean ⊢
              exact ⟨clean, stays (.bare kept frame popped)⟩
          | some pair =>
              obtain ⟨head, scopes⟩ := pair
              simp only [popped] at clean ⊢
              exact ⟨clean, stays (.forLoop kept frame popped)⟩
      | branch | whileLoop | loopHead =>
          simp only [frame, closeFrame] at clean ⊢
          exact ⟨clean, stays (.block kept frame (by simp))⟩

theorem closeScope_moves {brace : Token} {later : List Token} (idle : s.pendingDo = none)
    (remaining : s.remaining = brace :: later) (kind : brace.kind = .rightBrace)
    (clean : ({ s with remaining := later }.closeScope brace).Clean) :
    s.Clean ∧ s.Moves ({ s with remaining := later }.closeScope brace) := by
  unfold closeScope at clean ⊢
  dsimp only at clean ⊢
  cases popped : s.environment.scopes.pop? with
  | none =>
      simp only [popped] at clean
      exact absurd clean (not_clean_report _ _ _)
  | some pair =>
      obtain ⟨scope, scopes⟩ := pair
      simp only [popped] at clean ⊢
      cases kept : scope.discard with
      | true =>
          simp only [kept, if_true] at clean ⊢
          refine ⟨clean, ?_⟩
          have moves : s.Moves _ := .closes s.log idle remaining kind popped (.discarded kept) rfl
          rwa [← idle] at moves
      | false =>
          simp only [kept, Bool.false_eq_true, if_false] at clean ⊢
          obtain ⟨before, after, waiting, same, closes⟩ := closeFrame_closes (by exact idle) kept clean
          refine ⟨before, ?_⟩
          rw [same]
          exact .closes s.log idle remaining kind popped closes rfl

theorem skipsBody_of_brace {env : Environment} {mods : LeadingModifiers} {head : Token}
    {tail : List Token} {accepted : Accepted} (accepts : Accepts env s.setting mods head tail accepted)
    (brace : Ends head tail .leftBrace) (level : accepted.environment.scopes.depth = env.scopes.depth) :
    s.skipsBody head = true ∧ accepted.node = none := by
  have semicolon : ¬Ends head tail .semicolon := by
    intro ends
    rw [Ends, brace] at ends
    cases ends
  cases accepts with
  | classMissing kind => simp [skipsBody, kind]
  | enumMissing kind => simp [skipsBody, kind]
  | functionDeclared kind _ _ declaring => simpa [skipsBody, kind, AnalysisState.declaring] using declaring
  | constructorDeclared kind _ _ declaring => simpa [skipsBody, kind, AnalysisState.declaring] using declaring
  | moduleDeclared | moduleEntered | classDeclared | classEntered | enumDeclared | enumEntered =>
      simp at level
  | conditional | doLoop => simp at level
  | functionOpened | constructorOpened => simp at level
  | forLoop _ _ _ defines _ advances =>
      have depth := (defines.updated.scopes.trans advances.updated.scopes).depth
      simp only [List.foldl_cons, List.foldl_nil, Environment.depth_push, Environment.depth_append]
        at level depth
      omega
  | _ => exact absurd ‹Ends head tail .semicolon› semicolon

theorem checkReachable_warned (s : AnalysisState) (first : Token) :
    ∃ warned log, s.checkReachable first = { s with environment := warned, log } ∧
      log.failed = s.log.failed ∧ s.environment.Warned warned := by
  unfold checkReachable
  split
  next b frame =>
    split
    next => exact ⟨s.environment, s.log, rfl, rfl, .same⟩
    next =>
      refine ⟨_, _, rfl, by simp, ?_⟩
      cases current : s.environment.frame with
      | block kind b => exact .marked current
      | _ => simp [current, Frame.block?] at frame
  next => exact ⟨s.environment, s.log, rfl, rfl, .same⟩

-- What is still to be read plays no part in this.
theorem checkReachable_remaining (s : AnalysisState) (later : List Token) (first : Token) :
    { s with remaining := later }.checkReachable first =
      { s.checkReachable first with remaining := later } := by
  unfold checkReachable
  cases s.environment.frame.block? with
  | none => rfl
  | some b =>
      dsimp only
      split
      · rw [if_pos ‹_›]
      · rw [if_neg ‹_›]

theorem clean_of_recover {head brace : Token} (clean : (s.recover head brace).Clean) : s.Clean := by
  unfold recover at clean
  split at clean
  next =>
    unfold skipBlock at clean
    split at clean
    next => exact clean
    next => exact absurd clean (not_clean_report _ _ _)
  next => exact clean

theorem skipBlock_clean {brace : Token} (clean : (s.skipBlock brace).Clean) :
    ∃ beyond, Chunk.skipBlock 0 s.remaining = some beyond ∧
      s.skipBlock brace = { s with remaining := beyond } := by
  unfold skipBlock at clean ⊢
  split at clean
  next beyond found => exact ⟨beyond, found, rfl⟩
  next => exact absurd clean (not_clean_report _ _ _)

-- What leads a statement is the first token that is no modifier.
theorem find_head {tokens : List Token} {mods : LeadingModifiers} {head : Token} {tail : List Token}
    (read : LeadingModifiers.read tokens = .ok (mods, head :: tail)) :
    tokens.find? (!·.kind.isModifier) = some head ∧ tokens.getLast? = some (tail.getLast?.getD head) := by
  obtain ⟨same, modifiers, stops⟩ := LeadingModifiers.read_append read
  have modifying : mods.tokens.find? (!·.kind.isModifier) = none := by
    rw [List.find?_eq_none]
    intro t member
    simp [modifiers t member]
  rw [same]
  refine ⟨by simp [modifying, stops head rfl], ?_⟩
  rw [List.getLast?_append, List.getLast?_cons]
  rfl

theorem readStatement_moves {first : Token} {rest later : List Token} (idle : s.pendingDo = none)
    (takes : s.Takes first rest later) (notClosing : first.kind ≠ .rightBrace)
    (clean : ({ s with remaining := later }.readStatement first rest).Clean) :
    s.Clean ∧ s.Moves ({ s with remaining := later }.readStatement first rest) := by
  obtain ⟨warned, log, checked, failed, warns⟩ := checkReachable_warned s first
  simp only [readStatement, checkReachable_remaining, checked] at clean ⊢
  generalize read : warned.statement s.setting first rest = outcome at clean ⊢
  obtain ⟨after, result⟩ := outcome
  have level : warned.scopes.depth = s.environment.scopes.depth := warns.updated.scopes.depth
  cases result with
  | error r =>
      dsimp only at clean
      split at clean
      · exact absurd (clean_of_recover clean) (not_clean_report _ _ _)
      · exact absurd clean (not_clean_report _ _ _)
  | ok node =>
      obtain ⟨mods, head, tail, modifiers, accepts⟩ := Environment.statement_accepts read
      obtain ⟨found, last⟩ := find_head modifiers
      have sameLast : rest.getLast?.getD first = tail.getLast?.getD head := by
        rw [List.getLast?_cons] at last
        exact Option.some.inj last
      dsimp only at clean ⊢
      rw [found, sameLast, level] at clean ⊢
      by_cases skips : ((tail.getLast?.getD head).is .leftBrace &&
          decide (after.scopes.depth = s.environment.scopes.depth)) = true
      · simp only [if_pos skips, Option.getD_some] at clean ⊢
        simp only [Bool.and_eq_true, Token.is_iff, decide_eq_true_eq] at skips
        obtain ⟨brace, same⟩ := skips
        obtain ⟨skipsBody, silent⟩ := skipsBody_of_brace accepts brace (same.trans level.symm)
        cases silent
        dsimp only at clean ⊢
        unfold recover at clean ⊢
        rw [if_pos (by exact skipsBody)] at clean ⊢
        obtain ⟨beyond, skip, same'⟩ := skipBlock_clean clean
        rw [same'] at clean ⊢
        exact ⟨failed.symm.trans clean,
          .skips log idle takes notClosing warns modifiers accepts brace same skip read checked⟩
      · simp only [if_neg skips] at clean ⊢
        have stands : Ends head tail .leftBrace →
            after.scopes.depth ≠ s.environment.scopes.depth := by
          intro brace same
          exact skips (by simpa [same, Ends] using brace)
        cases node with
        | none =>
            exact ⟨failed.symm.trans clean,
              .accepts log idle takes notClosing warns modifiers accepts stands read checked⟩
        | some node =>
            exact ⟨failed.symm.trans clean,
              .accepts log idle takes notClosing warns modifiers accepts stands read checked⟩

theorem finishDo_moves {block : Node} {first : Token} {rest later : List Token}
    (waiting : s.pendingDo = some block) (takes : s.Takes first rest later)
    (keyword : first.kind = .keyword .«while») (ends : Ends first rest .semicolon)
    (clean : ({ s with remaining := later }.finishDo block first rest.dropLast).Clean) :
    s.Clean ∧ s.Moves ({ s with remaining := later }.finishDo block first rest.dropLast) := by
  simp only [finishDo] at clean ⊢
  split at clean
  next condition read =>
    exact ⟨clean, .completes s.log waiting takes keyword ends
      (Environment.wrappedCondition_decides read) read rfl⟩
  next => exact absurd clean (not_clean_report _ _ _)

theorem statementOrBrace_moves {first : Token} {rest later : List Token} (idle : s.pendingDo = none)
    (takes : s.Takes first rest later)
    (clean : ({ s with remaining := later }.statementOrBrace first rest).Clean) :
    s.Clean ∧ s.Moves ({ s with remaining := later }.statementOrBrace first rest) := by
  unfold statementOrBrace at clean ⊢
  by_cases brace : first.is .rightBrace = true
  · rw [if_pos brace] at clean ⊢
    have kind : first.kind = .rightBrace := by simpa using brace
    obtain ⟨head, tail, remaining, next⟩ := takes
    obtain ⟨rfl, rfl, alone | ⟨unended, _⟩⟩ := Chunk.next_statement next
    · obtain ⟨_, rfl⟩ := alone
      exact closeScope_moves idle remaining kind clean
    · rw [kind] at unended
      cases unended
  · rw [if_neg brace] at clean ⊢
    exact readStatement_moves idle takes (by simpa using brace) clean

theorem statement_idle (idle : s.pendingDo = none) (first : Token) (rest : List Token) :
    s.statement first rest = s.statementOrBrace first rest := by
  simp [statement, idle]

theorem statement_waiting {block : Node} (waiting : s.pendingDo = some block) (first : Token)
    (rest : List Token) :
    s.statement first rest =
      if first.is (.keyword .«while») && (rest.getLast?.getD first).is .semicolon then
        s.finishDo block first rest.dropLast
      else (s.report (SyntaxFault.doWithoutWhile false) first).flushDo.statementOrBrace first rest := by
  simp [statement, waiting]

theorem idle_flushDo (s : AnalysisState) : s.flushDo.pendingDo = none := by
  unfold flushDo
  split
  next => rfl
  next idle => simpa using idle

-- A step that leaves no error behind had none before it, and is one of these.
theorem step_moves (stepped : s.step = some t) (clean : t.Clean) : s.Clean ∧ s.Moves t := by
  unfold step at stepped
  split at stepped
  next => cases stepped
  next head tail remaining =>
    generalize next : Chunk.next head tail = found at stepped
    obtain ⟨chunk, later⟩ := found
    cases chunk with
    | endsAtBrace =>
        cases stepped
        exact absurd clean (not_clean_report _ _ _)
    | endsAtInput =>
        cases stepped
        exact absurd clean (not_clean_report _ _ _)
    | statement first rest =>
        have takes : s.Takes first rest later := ⟨head, tail, remaining, next⟩
        cases stepped
        rcases Option.eq_none_or_eq_some s.pendingDo with idle | ⟨block, waiting⟩
        · have idle' : { s with remaining := later }.pendingDo = none := idle
          rw [statement_idle idle'] at clean ⊢
          exact statementOrBrace_moves idle takes clean
        · have waiting' : { s with remaining := later }.pendingDo = some block := waiting
          rw [statement_waiting waiting'] at clean ⊢
          split at clean
          next completes =>
            rw [if_pos completes]
            simp only [Bool.and_eq_true, Token.is_iff] at completes
            exact finishDo_moves waiting takes completes.1 completes.2 clean
          next =>
            generalize flushed : ({ s with remaining := later }.report
              (SyntaxFault.doWithoutWhile false) first).flushDo = u at clean
            have dirty : ¬u.Clean := by
              intro clean
              rw [← flushed] at clean
              exact not_clean_report _ _ _ (clean_flushDo clean)
            have idle : u.pendingDo = none := by rw [← flushed]; exact idle_flushDo _
            have left : u.remaining = later := by
              rw [← flushed]
              unfold flushDo
              split <;> rfl
            have whole : { { u with remaining := s.remaining } with remaining := later } = u := by
              rw [← left]
            rw [← whole] at clean
            have idle' : { u with remaining := s.remaining }.pendingDo = none := idle
            have takes' : AnalysisState.Takes { u with remaining := s.remaining } first rest later :=
              takes
            exact absurd (statementOrBrace_moves idle' takes' clean).1 dirty

end AnalysisState

end MiLanguage
