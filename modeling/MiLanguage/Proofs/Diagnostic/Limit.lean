import MiLanguage.Diagnostic.Log
import MiLanguage.Proofs.Analysis.Pass
import MiLanguage.Proofs.Expression.Surface

set_option autoImplicit false

namespace MiLanguage

namespace DiagnosticLog

variable {log : DiagnosticLog} {d : Diagnostic} {ds : List Diagnostic} {limit : Nat}

def reportAll (log : DiagnosticLog) (ds : List Diagnostic) : DiagnosticLog := ds.foldl report log

@[simp] theorem reportAll_nil (log : DiagnosticLog) : log.reportAll [] = log := rfl

@[simp] theorem reportAll_cons (log : DiagnosticLog) (d : Diagnostic) (ds : List Diagnostic) :
    log.reportAll (d :: ds) = (log.report d).reportAll ds := rfl

theorem reportAll_append (log : DiagnosticLog) (ds es : List Diagnostic) :
    log.reportAll (ds ++ es) = (log.reportAll ds).reportAll es := List.foldl_append

theorem failed_reportAll (log : DiagnosticLog) (ds : List Diagnostic) :
    (log.reportAll ds).failed = (log.failed || ds.any Diagnostic.isError) := by
  induction ds generalizing log with
  | nil => simp
  | cons d ds ih => simp [ih, Bool.or_assoc]

-- All warnings of a list and its first errors, so many at the most.
def firstErrors : Nat → List Diagnostic → List Diagnostic
  | _, [] => []
  | 0, d :: ds => if d.isError then firstErrors 0 ds else d :: firstErrors 0 ds
  | limit + 1, d :: ds => d :: firstErrors (if d.isError then limit else limit + 1) ds

theorem warnings_firstErrors (limit : Nat) (ds : List Diagnostic) :
    (firstErrors limit ds).filter (!·.isError) = ds.filter (!·.isError) := by
  induction ds generalizing limit with
  | nil => simp [firstErrors]
  | cons d ds ih =>
      cases limit with
      | zero => cases error : d.isError <;> simp [firstErrors, error, ih]
      | succ limit => simp [firstErrors, List.filter_cons, ih]

theorem errors_firstErrors (limit : Nat) (ds : List Diagnostic) :
    ((firstErrors limit ds).filter (·.isError)).length =
      min limit (ds.filter (·.isError)).length := by
  induction ds generalizing limit with
  | nil => simp [firstErrors]
  | cons d ds ih =>
      cases limit with
      | zero => cases error : d.isError <;> simp [firstErrors, error, ih]
      | succ limit => cases error : d.isError <;> simp [firstErrors, error, ih]

-- What is cut off is the errors beyond the limit.
theorem length_firstErrors (limit : Nat) (ds : List Diagnostic) :
    (firstErrors limit ds).length + ((ds.filter (·.isError)).length - limit) = ds.length := by
  induction ds generalizing limit with
  | nil => simp [firstErrors]
  | cons d ds ih =>
      cases limit with
      | zero =>
          have rest := ih 0
          cases error : d.isError <;> simp [firstErrors, error] <;> omega
      | succ limit =>
          have rest := ih (if d.isError then limit else limit + 1)
          cases error : d.isError <;> simp [firstErrors, error] at rest ⊢ <;> omega

-- What a list of reports adds to a log, as long as the log has no limit.
theorem reportAll_unlimited (free : log.maxErrors = 0) (ds : List Diagnostic) :
    log.reportAll ds = { log with
      entries := log.entries ++ ds, failed := log.failed || ds.any Diagnostic.isError } := by
  induction ds generalizing log with
  | nil => simp
  | cons d ds ih =>
      have next : log.report d = { log with
          entries := log.entries ++ [d], failed := log.failed || d.isError } := by
        cases error : d.isError <;> simp [report, isFull, free, error]
      rw [reportAll_cons, ih (by simpa using free), next]
      simp [Bool.or_assoc]

theorem report_error (error : d.isError = true) (room : log.isFull = false) :
    log.report d = { log with entries := log.entries ++ [d], failed := true } := by
  simp [report, error, room]

theorem report_suppressed (error : d.isError = true) (full : log.isFull = true) :
    log.report d = { log with failed := true, suppressed := log.suppressed + 1 } := by
  simp [report, error, full]

theorem report_warning (warning : d.isError = false) :
    log.report d = { log with entries := log.entries ++ [d] } := by
  simp [report, warning]

theorem reportAll_limited {room : Nat} (limited : log.maxErrors ≠ 0)
    (left : log.errorCount + room = log.maxErrors) (ds : List Diagnostic) :
    log.reportAll ds = { log with
      entries := log.entries ++ firstErrors room ds
      failed := log.failed || ds.any Diagnostic.isError
      suppressed := log.suppressed + ((ds.filter Diagnostic.isError).length - room) } := by
  induction ds generalizing log room with
  | nil => simp [firstErrors]
  | cons d ds ih =>
      rw [reportAll_cons]
      cases error : d.isError with
      | false =>
          have same : (log.report d).errorCount + room = (log.report d).maxErrors := by
            simpa [report_warning error, errorCount, errors, error] using left
          rw [ih (by simpa using limited) same, report_warning error]
          cases room <;> simp [firstErrors, error]
      | true =>
          cases room with
          | zero =>
              have full : log.isFull = true := by
                simp only [isFull, ne_eq, Bool.and_eq_true, decide_eq_true_eq]
                exact ⟨by simpa using limited, by omega⟩
              have same : (log.report d).errorCount + 0 = (log.report d).maxErrors := by
                rw [report_suppressed error full]
                exact left
              rw [ih (by simpa using limited) same, report_suppressed error full]
              simp [firstErrors, error]
              omega
          | succ room =>
              have notFull : log.isFull = false := by
                simp only [isFull, Bool.and_eq_false_imp, decide_eq_false_iff_not]
                omega
              have less : (log.report d).errorCount + room = (log.report d).maxErrors := by
                simp only [report_error error notFull, errorCount, errors, List.filter_append,
                  List.length_append]
                simp only [errorCount, errors] at left
                simp only [List.filter_cons, error, if_true, List.filter_nil, List.length_singleton]
                omega
              rw [ih (by simpa using limited) less, report_error error notFull]
              simp [firstErrors, error]

end DiagnosticLog

namespace AnalysisState

variable {f g : AnalysisState → AnalysisState} {s t : AnalysisState} {ds : List Diagnostic}

def withLog (s : AnalysisState) (log : DiagnosticLog) : AnalysisState := { s with log }

@[simp] theorem withLog_withLog (s : AnalysisState) (log new : DiagnosticLog) :
    (s.withLog log).withLog new = s.withLog new := rfl

@[simp] theorem setting_withLog (s : AnalysisState) (log : DiagnosticLog) :
    (s.withLog log).setting = s.setting := rfl

@[simp] theorem remaining_withLog (s : AnalysisState) (log : DiagnosticLog) :
    (s.withLog log).remaining = s.remaining := rfl

@[simp] theorem environment_withLog (s : AnalysisState) (log : DiagnosticLog) :
    (s.withLog log).environment = s.environment := rfl

@[simp] theorem pendingDo_withLog (s : AnalysisState) (log : DiagnosticLog) :
    (s.withLog log).pendingDo = s.pendingDo := rfl

@[simp] theorem declaring_withLog (s : AnalysisState) (log : DiagnosticLog) :
    (s.withLog log).declaring = s.declaring := rfl

@[simp] theorem log_withLog (s : AnalysisState) (log : DiagnosticLog) : (s.withLog log).log = log :=
  rfl

@[simp] theorem root_withLog (s : AnalysisState) (log : DiagnosticLog) :
    (s.withLog log).root = s.root := rfl

-- Reports that all have a place.
def Located (ds : List Diagnostic) : Prop := ∀ d ∈ ds, d.span.isSome

theorem Located.nil : Located [] := fun _ member => nomatch member

theorem Located.append {es : List Diagnostic} (first : Located ds) (second : Located es) :
    Located (ds ++ es) :=
  fun d member => (List.mem_append.mp member).elim (first d) (second d)

theorem Located.ofFault (severity : Severity) (fault : Fault) (place : Token) :
    Located [.ofFault severity fault place] := by
  intro d member
  obtain rfl := List.mem_singleton.mp member
  rfl

-- From this state on, `f` takes no notice of the log: it appends what it reports to any log and
-- does the rest alike.
def BlindAt (f : AnalysisState → AnalysisState) (s : AnalysisState) : Prop :=
  ∃ ds, Located ds ∧ ∀ log, f (s.withLog log) = (f s).withLog (log.reportAll ds)

def Blind (f : AnalysisState → AnalysisState) : Prop := ∀ s, BlindAt f s

theorem BlindAt.of (located : Located ds)
    (writes : ∀ log, f (s.withLog log) = t.withLog (log.reportAll ds)) : BlindAt f s := by
  refine ⟨ds, located, fun log => ?_⟩
  have here : f s = t.withLog (s.log.reportAll ds) := writes s.log
  rw [writes, here, withLog_withLog]

theorem BlindAt.congr (blind : BlindAt f s) (same : ∀ log, g (s.withLog log) = f (s.withLog log)) :
    BlindAt g s := by
  obtain ⟨ds, located, writes⟩ := blind
  exact .of located fun log => (same log).trans (writes log)

theorem Blind.comp (first : Blind f) (second : Blind g) : Blind fun s => g (f s) := by
  intro s
  obtain ⟨ds, located, writes⟩ := first s
  obtain ⟨es, placed, continues⟩ := second (f s)
  refine ⟨ds ++ es, located.append placed, fun log => ?_⟩
  simp only [writes, continues, DiagnosticLog.reportAll_append]

-- A change of what is not the log.
theorem blind_change (same : ∀ s log, f (s.withLog log) = (f s).withLog log) : Blind f :=
  fun s => .of (t := f s) .nil (same s)

theorem blind_id : Blind id := blind_change fun _ _ => rfl

theorem blind_report (fault : Fault) (place : Token) : Blind (·.report fault place) :=
  fun s => .of (t := s) (.ofFault .error fault place) fun _ => rfl

theorem blind_reportTo (r : Report) : Blind (·.reportTo r) := blind_report r.fault r.place

theorem blind_append (node : Node) : Blind (·.append node) := blind_change fun _ _ => rfl

theorem blind_modifyModules (f : ModuleTree → ModuleTree) : Blind (·.modifyModules f) :=
  blind_change fun _ _ => rfl

theorem blind_flushDo : Blind flushDo := by
  refine blind_change fun s log => ?_
  cases waiting : s.pendingDo with
  | none => simp only [flushDo, pendingDo_withLog, waiting]
  | some node =>
      simp only [flushDo, pendingDo_withLog, waiting]
      rfl

theorem blind_checkReachable (first : Token) : Blind (·.checkReachable first) := by
  intro s
  cases block : s.environment.frame.block? with
  | none => exact (blind_id s).congr fun log => by simp [checkReachable, block]
  | some b =>
      by_cases quiet : (s.declaring || !b.terminated || b.warned) = true
      · refine (blind_id s).congr fun log => ?_
        simp only [checkReachable, environment_withLog, block]
        exact if_pos quiet
      · refine .of
          (t := { s with environment := s.environment.modifyBlock ({ · with warned := true }) })
          (.ofFault .warning SyntaxFault.unreachable first) fun log => ?_
        simp only [checkReachable, environment_withLog, block]
        exact if_neg quiet

theorem blind_pushRecovery (head : Token) : Blind (·.pushRecovery head) :=
  blind_change fun _ _ => rfl

theorem blind_skipBlock (brace : Token) : Blind (·.skipBlock brace) := by
  intro s
  cases found : Chunk.skipBlock 0 s.remaining with
  | none =>
      refine .of (t := { s with remaining := [] })
        (.ofFault .error (SyntaxFault.expected .rightBrace "to close this block") brace)
        fun log => ?_
      simp only [skipBlock, remaining_withLog, found]
      rfl
  | some rest =>
      refine .of (t := { s with remaining := rest }) .nil fun log => ?_
      simp only [skipBlock, remaining_withLog, found]
      rfl

theorem blind_recover (head brace : Token) : Blind (·.recover head brace) := by
  intro s
  by_cases skips : s.skipsBody head = true
  · exact (blind_skipBlock brace s).congr fun _ => if_pos skips
  · exact (blind_pushRecovery head s).congr fun _ => if_neg skips

-- What becomes of a statement that has been read, with the depth from before it.
def settle (outcome : Outcome) (depth : Nat) (first : Token) (rest : List Token)
    (s : AnalysisState) : AnalysisState :=
  let s := { s with environment := outcome.environment }
  let s := match outcome.result with
    | .error r => s.reportTo r
    | .ok _ => s
  let last := rest.getLast?.getD first
  let s :=
    if last.is .leftBrace && s.environment.scopes.depth = depth then
      s.recover (((first :: rest).find? (!·.kind.isModifier)).getD first) last
    else s
  match outcome.result with
  | .ok (some node) => s.append node
  | _ => s

theorem blind_settle (outcome : Outcome) (depth : Nat) (first : Token) (rest : List Token) :
    Blind (settle outcome depth first rest) := by
  have enters : Blind fun s : AnalysisState => { s with environment := outcome.environment } :=
    blind_change fun _ _ => rfl
  have reports : Blind fun s : AnalysisState => match outcome.result with
      | .error r => s.reportTo r
      | .ok _ => s := by
    cases outcome.result with
    | error r => exact blind_reportTo r
    | ok node => exact blind_id
  have recovers : Blind fun s : AnalysisState =>
      if (rest.getLast?.getD first).is .leftBrace && s.environment.scopes.depth = depth then
        s.recover (((first :: rest).find? (!·.kind.isModifier)).getD first)
          (rest.getLast?.getD first)
      else s := by
    intro s
    by_cases opensBlock : ((rest.getLast?.getD first).is .leftBrace &&
        s.environment.scopes.depth = depth) = true
    · exact (blind_recover _ _ s).congr fun _ => if_pos opensBlock
    · exact (blind_id s).congr fun _ => if_neg opensBlock
  have yields : Blind fun s : AnalysisState => match outcome.result with
      | .ok (some node) => s.append node
      | _ => s := by
    cases outcome.result with
    | error r => exact blind_id
    | ok node =>
        cases node with
        | none => exact blind_id
        | some node => exact blind_append node
  exact ((enters.comp reports).comp recovers).comp yields

theorem blind_readStatement (first : Token) (rest : List Token) :
    Blind (·.readStatement first rest) := by
  have reads : Blind fun s : AnalysisState =>
      settle (s.environment.statement s.setting first rest) s.environment.scopes.depth first rest
        s :=
    fun s => (blind_settle (s.environment.statement s.setting first rest)
      s.environment.scopes.depth first rest s).congr fun _ => rfl
  exact (blind_checkReachable first).comp reads

theorem blind_checkReturn (b : Block) (brace : Token) :
    Blind fun s => match b.returnType with
      | some type =>
          if type.isVoid || b.returned then s else s.report (TypeFault.missingReturn type) brace
      | none => s := by
  cases b.returnType with
  | none => exact blind_id
  | some type =>
      simp only
      split
      · exact blind_id
      · exact blind_report _ brace

theorem blind_attachBody (b : Block) (node : Node) :
    Blind fun s : AnalysisState => match b.bodyOf with
      | some owner => s.modifyModules (attachBody · node owner)
      | none => s := by
  cases b.bodyOf with
  | none => exact blind_id
  | some owner => exact blind_modifyModules _

theorem blind_closeFunction (b : Block) (node : Node) (brace : Token) :
    Blind (·.closeFunction b node brace) :=
  ((blind_checkReturn b brace).comp (blind_attachBody b node)).comp (blind_append node)

theorem blind_closeHead :
    Blind fun s : AnalysisState => match s.environment.scopes.pop? with
      | some (head, scopes) =>
          { s with environment := { s.environment with scopes } }.append head.node
      | none => s := by
  refine blind_change fun s log => ?_
  cases popped : s.environment.scopes.pop? with
  | none => simp only [environment_withLog, popped]
  | some found =>
      simp only [environment_withLog, popped]
      rfl

theorem blind_closeFrame (frame : Frame) (node : Node) (brace : Token) :
    Blind (·.closeFrame frame node brace) := by
  have declares (insert : ModuleTree → ModuleTree) : Blind fun s : AnalysisState =>
      (if s.declaring then s.modifyModules insert else s) := by
    intro s
    by_cases declaring : s.declaring = true
    · exact (blind_modifyModules insert s).congr fun _ => if_pos declaring
    · exact (blind_id s).congr fun _ => if_neg declaring
  cases frame with
  | parent | module => exact blind_append node
  | «class» id c => exact (declares _).comp (blind_append node)
  | enum id e => exact (declares _).comp (blind_append node)
  | block kind b =>
      cases kind with
      | function => exact blind_closeFunction b node brace
      | doLoop => exact blind_change fun _ _ => rfl
      | branch | whileLoop | loopHead => exact blind_append node
      | forLoop => exact (blind_append node).comp blind_closeHead

theorem blind_closeScope (brace : Token) : Blind (·.closeScope brace) := by
  intro s
  cases popped : s.environment.scopes.pop? with
  | none =>
      exact (blind_report SyntaxFault.strayBrace brace s).congr fun log => by
        simp only [closeScope, environment_withLog, popped]
  | some found =>
      obtain ⟨scope, scopes⟩ := found
      have pops : Blind fun s : AnalysisState =>
          { s with environment := { s.environment with scopes } } := blind_change fun _ _ => rfl
      by_cases discard : scope.discard = true
      · exact (pops s).congr fun log => by
          simp only [closeScope, environment_withLog, popped, discard, if_true]
      · exact ((pops.comp (blind_closeFrame scope.frame scope.node brace)) s).congr fun log => by
          simp [closeScope, popped, discard]

theorem blind_finishDo (block : Node) (keyword : Token) (condition : List Token) :
    Blind (·.finishDo block keyword condition) := by
  intro s
  have takes : Blind fun s : AnalysisState => { s with pendingDo := none } :=
    blind_change fun _ _ => rfl
  cases read : s.environment.wrappedCondition condition keyword with
  | ok node =>
      exact ((takes.comp (blind_append (block.push node))) s).congr fun log => by
        simp only [finishDo, environment_withLog, read]
  | error r =>
      exact (((takes.comp (blind_reportTo r)).comp (blind_append block)) s).congr fun log => by
        simp only [finishDo, environment_withLog, read]

theorem blind_statementOrBrace (first : Token) (rest : List Token) :
    Blind (·.statementOrBrace first rest) := by
  unfold statementOrBrace
  split
  · exact blind_closeScope first
  · exact blind_readStatement first rest

theorem blind_statement (first : Token) (rest : List Token) :
    Blind (·.statement first rest) := by
  intro s
  cases waiting : s.pendingDo with
  | none =>
      exact (blind_statementOrBrace first rest s).congr fun log => by
        simp only [statement, pendingDo_withLog, waiting]
  | some block =>
      by_cases ends : (first.is (.keyword .«while») &&
          (rest.getLast?.getD first).is .semicolon) = true
      · exact (blind_finishDo block first rest.dropLast s).congr fun log => by
          simp only [statement, pendingDo_withLog, waiting]
          exact if_pos ends
      · have goesOn := ((blind_report (SyntaxFault.doWithoutWhile false) first).comp
          blind_flushDo).comp (blind_statementOrBrace first rest)
        exact (goesOn s).congr fun log => by
          simp only [statement, pendingDo_withLog, waiting]
          exact if_neg ends

-- One turn of a pass, and nothing at the end.
theorem blind_step : Blind fun s => s.step.getD s := by
  intro s
  cases left : s.remaining with
  | nil => exact (blind_id s).congr fun log => by simp [step, left]
  | cons first rest =>
      have takes : Blind fun s : AnalysisState =>
          { s with remaining := (Chunk.next first rest).2 } := blind_change fun _ _ => rfl
      cases head : (Chunk.next first rest).1 with
      | statement first rest =>
          exact ((takes.comp (blind_statement first rest)) s).congr fun log => by
            simp only [step, remaining_withLog, left, head, Option.getD_some]
      | endsAtBrace brace =>
          exact ((takes.comp (blind_report (SyntaxFault.expected .semicolon "before '\x7d'")
            brace)) s).congr fun log => by
              simp only [step, remaining_withLog, left, head, Option.getD_some]
      | endsAtInput last =>
          exact ((takes.comp (blind_report (SyntaxFault.expected .semicolon "at end of input")
            last)) s).congr fun log => by
              simp only [step, remaining_withLog, left, head, Option.getD_some]

theorem blind_steps (bound : Nat) : Blind (steps bound) := by
  induction bound with
  | zero => exact blind_id
  | succ bound ih =>
      intro s
      cases next : s.step with
      | none =>
          have done := step_eq_none_iff.mp next
          exact (blind_id s).congr fun log => by
            have still : (s.withLog log).step = none := step_eq_none_iff.mpr done
            simp only [steps, still, id_eq]
      | some t =>
          refine ((blind_step.comp ih) s).congr fun log => ?_
          have goes : (s.withLog log).step ≠ none := by
            rw [ne_eq, step_eq_none_iff, remaining_withLog, ← step_eq_none_iff, next]
            simp
          obtain ⟨u, found⟩ := Option.ne_none_iff_exists'.mp goes
          simp only [steps, found, Option.getD_some]

-- What the end of a pass makes of a waiting `do` block.
theorem blind_complete (last : Option Token) : Blind fun s => match s.pendingDo, last with
    | some _, some t => (s.report (SyntaxFault.doWithoutWhile true) t).flushDo
    | _, _ => s.flushDo := by
  intro s
  cases waiting : s.pendingDo with
  | none => exact (blind_flushDo s).congr fun log => by simp only [pendingDo_withLog, waiting]
  | some node =>
      cases last with
      | none => exact (blind_flushDo s).congr fun log => by simp only [pendingDo_withLog, waiting]
      | some t =>
          have completes := (blind_report (SyntaxFault.doWithoutWhile true) t).comp blind_flushDo
          exact (completes s).congr fun log => by simp only [pendingDo_withLog, waiting]

-- What it makes of scopes that are still open.
theorem blind_unclosed (last : Option Token) : Blind fun s : AnalysisState =>
    match s.environment.scopes.opened, last with
    | _ :: _, some t => s.report SyntaxFault.unclosedScope t
    | _, _ => s := by
  intro s
  cases left : s.environment.scopes.opened with
  | nil => exact (blind_id s).congr fun log => by simp only [environment_withLog, left, id_eq]
  | cons scope scopes =>
      cases last with
      | none => exact (blind_id s).congr fun log => by simp only [environment_withLog, left, id_eq]
      | some t =>
          exact (blind_report SyntaxFault.unclosedScope t s).congr fun log => by
            simp only [environment_withLog, left]

theorem blind_finish (last : Option Token) : Blind (·.finish last) :=
  (blind_complete last).comp (blind_unclosed last)

end AnalysisState

namespace Analysis

variable {limit : Nat}

theorem runPass_blind (setting : Setting) (modules : ModuleTree) (tokens : List Token) :
    ∃ (s : AnalysisState) (ds : List Diagnostic), AnalysisState.Located ds ∧ ∀ log,
      runPass setting modules log tokens = s.withLog (log.reportAll ds) := by
  let start := startPass setting modules { maxErrors := 0 } tokens
  obtain ⟨ds, located, writes⟩ :=
    ((AnalysisState.blind_steps tokens.length).comp (AnalysisState.blind_finish tokens.getLast?))
      start
  exact ⟨_, ds, located, writes⟩

theorem ofTokens_blind (host : Host) (tokens : List Token) :
    ∃ (root : Node) (modules : ModuleTree) (ds : List Diagnostic), AnalysisState.Located ds ∧ ∀ limit,
      ofTokens host limit tokens =
        ⟨root, modules, ({ maxErrors := limit } : DiagnosticLog).reportAll ds⟩ := by
  obtain ⟨first, ds, located, declares⟩ := runPass_blind ⟨.declarations, host⟩ .empty tokens
  obtain ⟨second, es, placed, builds⟩ :=
    runPass_blind ⟨.bodies, host⟩ first.environment.modules tokens
  by_cases failed : ds.any Diagnostic.isError = true
  · refine ⟨emptyRoot, first.environment.modules, ds, located, fun limit => ?_⟩
    simp only [ofTokens, declares, AnalysisState.log_withLog, DiagnosticLog.failed_reportAll,
      Bool.false_or, failed, if_true, AnalysisState.environment_withLog]
  · refine ⟨second.root, second.environment.modules, ds ++ es, located.append placed, fun limit => ?_⟩
    simp only [ofTokens, declares, AnalysisState.log_withLog, DiagnosticLog.failed_reportAll,
      Bool.false_or, failed, if_false, AnalysisState.environment_withLog, builds,
      DiagnosticLog.reportAll_append, AnalysisState.root_withLog, Bool.false_eq_true]

/-- The first analysis is the second one with all errors beyond the limit left out of the log. -/
structure CutShort (limit : Nat) (limited whole : Analysis) : Prop where
  root : limited.root = whole.root
  modules : limited.modules = whole.modules
  isOk : limited.isOk = whole.isOk
  warnings : limited.log.warnings = whole.log.warnings
  entries : limited.log.entries = DiagnosticLog.firstErrors limit whole.log.entries
  suppressed : limited.log.entries.length + limited.log.suppressed = whole.log.entries.length
  limited_failed : limited.log.failed ↔ limited.log.errorCount ≠ 0
  whole_failed : whole.log.failed ↔ whole.log.errorCount ≠ 0

/-- The limit on errors cuts the report short and changes nothing else. -/
theorem ofTokens_limited (host : Host) {limit : Nat} (positive : 0 < limit) (tokens : List Token) :
    CutShort limit (ofTokens host limit tokens) (ofTokens host 0 tokens) := by
  obtain ⟨root, modules, ds, -, reports⟩ := ofTokens_blind host tokens
  have few := @DiagnosticLog.reportAll_limited { maxErrors := limit } limit
    (Nat.pos_iff_ne_zero.mp positive) (Nat.zero_add limit) ds
  have all := @DiagnosticLog.reportAll_unlimited { maxErrors := 0 } rfl ds
  have count := DiagnosticLog.errors_firstErrors limit ds
  rw [reports, reports, few, all]
  constructor
  case root | modules | isOk => rfl
  case warnings => simp [DiagnosticLog.warnings, DiagnosticLog.warnings_firstErrors]
  case entries => simp
  case suppressed => simpa using DiagnosticLog.length_firstErrors limit ds
  case limited_failed =>
    simp only [DiagnosticLog.errorCount, DiagnosticLog.errors, List.nil_append, count]
    simp
    omega
  case whole_failed => simp [DiagnosticLog.errorCount, DiagnosticLog.errors]

-- The text `module m { fn f { ret; x; y; } }`, with two unknown names behind a `ret`.
def faultyProgram : List Token :=
  [Token.alone (.keyword .module) "module", .alone .identifier "m", .alone .leftBrace "\x7b",
    .alone (.keyword .fn) "fn", .alone .identifier "f", .alone .leftBrace "\x7b",
    .alone (.keyword .ret) "ret", .alone .semicolon ";", .alone .identifier "x",
    .alone .semicolon ";", .alone .identifier "y", .alone .semicolon ";",
    .alone .rightBrace "\x7d", .alone .rightBrace "\x7d"]

theorem faultyProgram_limited :
    0 < 1 ∧ (ofTokens {} 0 faultyProgram).log.entries.map Diagnostic.isError =
        [false, true, true] ∧
      CutShort 1 (ofTokens {} 1 faultyProgram) (ofTokens {} 0 faultyProgram) :=
  ⟨by decide, by decide +kernel, ofTokens_limited {} (by decide) faultyProgram⟩

end Analysis

end MiLanguage
