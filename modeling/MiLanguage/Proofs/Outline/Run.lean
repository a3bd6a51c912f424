import MiLanguage.Proofs.Analysis.Pass
import MiLanguage.Proofs.Diagnostic.Limit
import MiLanguage.Proofs.Outline.Basic

set_option autoImplicit false

namespace MiLanguage

namespace Chunk

theorem readFrom_plain {front : List Token} (plain : Outline.Plain front) (head : Token)
    (read later : List Token) :
    readFrom head read (front ++ later) = readFrom head (read ++ front) later := by
  induction front generalizing read with
  | nil => simp
  | cons t front ih =>
      have here := plain t (by simp)
      have rest : Outline.Plain front := fun u member => plain u (by simp [member])
      rw [List.cons_append, readFrom]
      split
      next kind => rw [kind] at here; cases here
      next kind => rw [kind] at here; cases here
      next kind => rw [kind] at here; cases here
      next => rw [ih rest]; simp

-- A statement is cut off where its terminator stands.
theorem next_closed {front : List Token} {last : Token} (plain : Outline.Plain front)
    (kind : last.kind = .semicolon ∨ last.kind = .leftBrace) (later : List Token) :
    ∃ first rest, front ++ [last] = first :: rest ∧
      next first (rest ++ later) = (.statement first rest, later) := by
  cases front with
  | nil =>
      refine ⟨last, [], rfl, ?_⟩
      unfold next
      rcases kind with kind | kind <;> simp [kind, TokenKind.isTerminator]
  | cons first front =>
      refine ⟨first, front ++ [last], rfl, ?_⟩
      have inner : Outline.Plain front := fun u member => plain u (by simp [member])
      unfold next
      rw [if_neg (by simp [plain first (by simp)]), List.append_assoc, readFrom_plain inner]
      rcases kind with kind | kind <;> simp [readFrom, kind]

-- Without a terminator, there is no statement.
theorem next_open {first : Token} {front later : List Token} (plain : Outline.Plain (first :: front))
    (ends : later = [] ∨ ∃ brace rest, later = brace :: rest ∧ brace.kind = .rightBrace)
    {head : Token} {rest beyond : List Token} :
    next first (front ++ later) ≠ (.statement head rest, beyond) := by
  have inner : Outline.Plain front := fun u member => plain u (by simp [member])
  unfold next
  rw [if_neg (by simp [plain first (by simp)]), readFrom_plain inner]
  rcases ends with rfl | ⟨brace, after, rfl, kind⟩
  · simp [readFrom]
  · simp [readFrom, kind]

end Chunk

-- The warning of a statement that cannot be reached.
def Diagnostic.unreachable (first : Token) : Diagnostic :=
  .ofFault .warning SyntaxFault.unreachable first

namespace Environment

-- A statement has ended the block, and what follows has not been warned of.
def exhausted (env : Environment) : Bool := env.frame.block?.any fun b => b.terminated && !b.warned

/-- The look at a statement that starts with `first`, and where it is warned of. -/
inductive Checks (setting : Setting) (env : Environment) (first : Token) :
    Environment → List Token → Prop
  | reached : (setting.declaring || !env.exhausted) = true → Checks setting env first env []
  | unreached : setting.declaring = false → env.exhausted = true →
      Checks setting env first (env.modifyBlock ({ · with warned := true })) [first]

theorem Checks.warned {setting : Setting} {env warned : Environment} {first : Token}
    {alarms : List Token} (checks : env.Checks setting first warned alarms) : env.Warned warned := by
  cases checks with
  | reached => exact .same
  | unreached _ exhausted =>
      unfold Environment.exhausted at exhausted
      cases frame : env.frame with
      | block => exact .marked frame
      | _ => simp [frame, Frame.block?] at exhausted

/-- How a pass without errors goes through a text from one environment to another, and where it warns
on the way. A `do` block may wait for its condition at first. -/
inductive Reads (setting : Setting) :
    Option Node → Environment → Outline → Environment → List Token → Prop
  | nil {env : Environment} : Reads setting none env .nil env []
  | statement {env warned last : Environment} {first : Token} {tail here beyond : List Token}
      {accepted : Accepted} {rest : Outline} :
      env.Checks setting first warned here →
      warned.statement setting first tail = ⟨accepted.environment, .ok accepted.node⟩ →
      (tail.getLast?.getD first).kind = .semicolon →
      Reads setting none (accepted.settled setting) rest last beyond →
      Reads setting none env (.statement (first :: tail) rest) last (here ++ beyond)
  | passed {env warned last : Environment} {first : Token} {tail here beyond : List Token}
      {accepted : Accepted} {inner rest : Outline} {brace : Token} :
      env.Checks setting first warned here →
      warned.statement setting first tail = ⟨accepted.environment, .ok accepted.node⟩ →
      (tail.getLast?.getD first).kind = .leftBrace →
      accepted.environment.scopes.depth = env.scopes.depth →
      Reads setting none (accepted.settled setting) rest last beyond →
      Reads setting none env (.block (first :: tail) inner brace rest) last (here ++ beyond)
  | block {env warned full after last : Environment} {first : Token}
      {tail here inside beyond : List Token} {accepted : Accepted} {inner rest : Outline}
      {brace : Token} {scope : Scope} {scopes : ScopeStack} {waiting : Option Node} :
      env.Checks setting first warned here →
      warned.statement setting first tail = ⟨accepted.environment, .ok accepted.node⟩ →
      (tail.getLast?.getD first).kind = .leftBrace →
      accepted.environment.scopes.depth ≠ env.scopes.depth →
      Reads setting none (accepted.settled setting) inner full inside →
      full.scopes.pop? = some (scope, scopes) →
      Environment.Closes setting { full with scopes } scope after waiting →
      Reads setting waiting after rest last beyond →
      Reads setting none env (.block (first :: tail) inner brace rest) last
        (here ++ (inside ++ beyond))
  | completes {env last : Environment} {block condition : Node} {first : Token}
      {tail beyond : List Token} {rest : Outline} :
      first.kind = .keyword .«while» → (tail.getLast?.getD first).kind = .semicolon →
      env.wrappedCondition tail.dropLast first = .ok condition →
      Reads setting none (env.append setting (block.push condition)) rest last beyond →
      Reads setting (some block) env (.statement (first :: tail) rest) last beyond

end Environment

namespace AnalysisState

variable {s t last : AnalysisState} {o : Outline} {later : List Token}

theorem Leads.setting (leads : s.Leads t) : t.setting = s.setting := by
  induction leads with
  | refl => rfl
  | tail _ step ih => exact step.moves.setting.trans ih

-- A closed statement is the next one that a pass takes.
theorem takes_closed (s : AnalysisState) {front : List Token} {final : Token}
    (plain : Outline.Plain front) (kind : final.kind = .semicolon ∨ final.kind = .leftBrace)
    (later : List Token) (remaining : s.remaining = front ++ final :: later) :
    ∃ first rest, front ++ [final] = first :: rest ∧ rest.getLast?.getD first = final ∧
      s.Takes first rest later := by
  obtain ⟨first, rest, same, next⟩ := Chunk.next_closed plain kind later
  refine ⟨first, rest, same, ?_, first, rest ++ later, ?_, next⟩
  · have final' := congrArg List.getLast? same
    simpa [List.getLast?_cons, eq_comm] using final'
  · have whole : s.remaining = (front ++ [final]) ++ later := by simp [remaining]
    rw [whole, same]
    rfl

variable {first brace : Token} {rest alarms : List Token}

-- The warnings that a pass adds to its log.
def warnings (alarms : List Token) : List Diagnostic := alarms.map Diagnostic.unreachable

theorem warnings_append (front back : List Token) :
    warnings (front ++ back) = warnings front ++ warnings back := List.map_append

theorem checkReachable_checks (s : AnalysisState) (first : Token) {warned : Environment}
    {log : DiagnosticLog}
    (checked : s.checkReachable first = { s with environment := warned, log }) :
    ∃ alarms, s.environment.Checks s.setting first warned alarms ∧
      log = s.log.reportAll (warnings alarms) := by
  obtain rfl : (s.checkReachable first).environment = warned :=
    congrArg AnalysisState.environment checked
  obtain rfl : (s.checkReachable first).log = log := congrArg AnalysisState.log checked
  unfold checkReachable
  cases block : s.environment.frame.block? with
  | none =>
      have reached : s.environment.exhausted = false := by simp [Environment.exhausted, block]
      exact ⟨[], .reached (by simp [reached]), rfl⟩
  | some b =>
      have exhausted : s.environment.exhausted = (b.terminated && !b.warned) := by
        simp [Environment.exhausted, block]
      dsimp only
      split
      next reached =>
        refine ⟨[], .reached ?_, rfl⟩
        rw [exhausted]
        simpa [declaring, or_assoc] using reached
      next unreached =>
        simp only [Bool.or_eq_true, Bool.not_eq_true', not_or, Bool.not_eq_true,
          Bool.not_eq_false] at unreached
        obtain ⟨⟨bodies, terminated⟩, silent⟩ := unreached
        exact ⟨[first], .unreached bodies (by simp [exhausted, terminated, silent]), rfl⟩

theorem Moves.statement (moves : s.Moves t) (takes : s.Takes first rest later)
    (ends : (rest.getLast?.getD first).kind = .semicolon) :
    t.remaining = later ∧ t.pendingDo = none ∧ ∃ here, t.log = s.log.reportAll (warnings here) ∧
      ∀ o after beyond, Environment.Reads s.setting none t.environment o after beyond →
        Environment.Reads s.setting s.pendingDo s.environment (.statement (first :: rest) o) after
          (here ++ beyond) := by
  cases moves with
  | completes _ waiting takes' keyword _ _ condition quiet =>
      obtain ⟨rfl, rfl, rfl⟩ := takes.unique takes' rfl
      rw [waiting]
      exact ⟨rfl, rfl, [], quiet, fun o after beyond reads =>
        .completes keyword ends condition reads⟩
  | closes _ _ remaining kind =>
      rw [takes.split.1] at remaining
      obtain ⟨rfl, same⟩ := List.cons.inj remaining
      obtain ⟨_, rfl⟩ | ⟨plain, _⟩ := takes.split.2
      · rw [List.getLast?_nil, Option.getD_none, kind] at ends
        cases ends
      · rw [kind] at plain
        cases plain
  | accepts _ idle takes' _ _ _ _ _ read checked =>
      obtain ⟨rfl, rfl, rfl⟩ := takes.unique takes' rfl
      obtain ⟨here, checks, logged⟩ := s.checkReachable_checks _ checked
      rw [idle]
      exact ⟨rfl, rfl, here, logged, fun o after beyond reads => .statement checks read ends reads⟩
  | skips _ _ takes' _ _ modifiers _ brace =>
      obtain ⟨rfl, rfl, rfl⟩ := takes.unique takes' rfl
      have kind := ends_of_read brace modifiers
      rw [Ends, ends] at kind
      cases kind

theorem Moves.header (moves : s.Moves t) (takes : s.Takes first rest later)
    (ends : (rest.getLast?.getD first).kind = .leftBrace) :
    s.pendingDo = none ∧ t.pendingDo = none ∧
    ∃ (warned : Environment) (here : List Token) (accepted : Accepted),
      s.environment.Checks s.setting first warned here ∧ t.log = s.log.reportAll (warnings here) ∧
      warned.statement s.setting first rest = ⟨accepted.environment, .ok accepted.node⟩ ∧
      t.environment = accepted.settled s.setting ∧
      ((t.remaining = later ∧ accepted.environment.scopes.depth ≠ s.environment.scopes.depth) ∨
        (Chunk.skipBlock 0 later = some t.remaining ∧
          accepted.environment.scopes.depth = s.environment.scopes.depth)) := by
  cases moves with
  | completes _ _ takes' _ semicolon =>
      obtain ⟨rfl, rfl, rfl⟩ := takes.unique takes' rfl
      rw [Ends, ends] at semicolon
      cases semicolon
  | closes _ _ remaining kind =>
      rw [takes.split.1] at remaining
      obtain ⟨rfl, same⟩ := List.cons.inj remaining
      obtain ⟨_, rfl⟩ | ⟨plain, _⟩ := takes.split.2
      · rw [List.getLast?_nil, Option.getD_none, kind] at ends
        cases ends
      · rw [kind] at plain
        cases plain
  | @accepts _ _ _ _ _ _ _ accepted _ idle takes' _ _ modifiers accepts stands read checked =>
      obtain ⟨rfl, rfl, rfl⟩ := takes.unique takes' rfl
      obtain ⟨here, checks, logged⟩ := s.checkReachable_checks _ checked
      have last := (find_head modifiers).2
      rw [List.getLast?_cons, Option.some.injEq] at last
      refine ⟨idle, idle, _, here, accepted, checks, logged, read, rfl, .inl ⟨rfl, stands ?_⟩⟩
      rw [Ends, ← last]
      exact ends
  | @skips _ _ _ _ _ _ _ _ accepted _ idle takes' _ _ _ _ _ level skip read checked =>
      obtain ⟨rfl, rfl, rfl⟩ := takes.unique takes' rfl
      obtain ⟨here, checks, logged⟩ := s.checkReachable_checks _ checked
      exact ⟨idle, idle, _, here, accepted, checks, logged, read, rfl, .inr ⟨skip, level⟩⟩

theorem Moves.closing (moves : s.Moves t) (remaining : s.remaining = brace :: later)
    (kind : brace.kind = .rightBrace) :
    s.pendingDo = none ∧ t.remaining = later ∧ t.log = s.log ∧ ∃ scope scopes,
      s.environment.scopes.pop? = some (scope, scopes) ∧
      Environment.Closes s.setting { s.environment with scopes } scope t.environment
        t.pendingDo := by
  have stray : ∀ {head tail after}, s.Takes head tail after → head.kind ≠ .rightBrace → False := by
    intro head tail after takes other
    rw [takes.split.1] at remaining
    rw [(List.cons.inj remaining).1] at other
    exact other kind
  cases moves with
  | completes _ _ takes keyword => exact absurd (stray takes (by simp [keyword])) not_false
  | closes _ idle remaining' _ popped closes quiet =>
      rw [remaining] at remaining'
      cases remaining'
      exact ⟨idle, rfl, quiet, _, _, popped, closes⟩
  | accepts _ _ takes other => exact absurd (stray takes other) not_false
  | skips _ _ takes other => exact absurd (stray takes other) not_false

theorem Moves.starts (moves : s.Moves t) :
    (∃ first rest later, s.Takes first rest later) ∨
      ∃ brace later, s.remaining = brace :: later ∧ brace.kind = .rightBrace := by
  cases moves with
  | completes _ _ takes => exact .inl ⟨_, _, _, takes⟩
  | closes _ _ remaining kind => exact .inr ⟨_, _, remaining, kind⟩
  | accepts _ _ takes => exact .inl ⟨_, _, _, takes⟩
  | skips _ _ takes => exact .inl ⟨_, _, _, takes⟩

-- Nothing is left to a `do` block behind which a block or the whole text ends.
theorem Leads.idle (leads : s.Leads last) (idle : last.pendingDo = none) (ended : last.remaining = [])
    (ends : s.remaining = [] ∨ ∃ brace rest, s.remaining = brace :: rest ∧ brace.kind = .rightBrace) :
    s.pendingDo = none := by
  rcases ends with empty | ⟨brace, rest, remaining, kind⟩
  · have same : last = s := Leads.unique .refl leads (ended.trans empty.symm)
    rw [← same]
    exact idle
  · obtain ⟨u, step, _⟩ := leads.head_of_remaining (by rw [ended, remaining]; simp)
    exact (step.moves.closing remaining kind).1

theorem Leads.reads (leads : s.Leads last) (idle : last.pendingDo = none)
    (ended : last.remaining = []) (formed : o.Formed)
    (remaining : s.remaining = o.tokens ++ later)
    (ends : later = [] ∨ ∃ brace rest, later = brace :: rest ∧ brace.kind = .rightBrace) :
    ∃ t, s.Leads t ∧ t.Leads last ∧ t.remaining = later ∧ t.pendingDo = none ∧
      ∃ alarms, t.log = s.log.reportAll (warnings alarms) ∧
        Environment.Reads s.setting s.pendingDo s.environment o t.environment alarms := by
  induction o generalizing s later with
  | nil =>
      have waitless : s.pendingDo = none := by
        refine leads.idle idle ended ?_
        rw [remaining]
        exact ends
      refine ⟨s, .refl, leads, remaining, waitless, [], rfl, ?_⟩
      rw [waitless]
      exact .nil
  | statement tokens rest ih =>
      obtain ⟨formed, ⟨front, final, rfl, plain, kind⟩ | ⟨first, front, rfl, plain, rfl⟩⟩ := formed
      · obtain ⟨first, tail, same, final', takes⟩ :=
          s.takes_closed plain (.inl kind) (rest.tokens ++ later)
            (by simp [remaining, Outline.tokens])
        obtain ⟨u, step, toward⟩ := leads.head_of_remaining (by rw [ended, takes.split.1]; simp)
        obtain ⟨left, waits, here, logged, prepends⟩ :=
          step.moves.statement takes (by rw [final']; exact kind)
        obtain ⟨t, toT, toLast, left, done, beyond, later, reads⟩ := ih toward formed left ends
        refine ⟨t, .head step toT, toLast, left, done, here ++ beyond, ?_, ?_⟩
        · rw [later, logged, warnings_append, DiagnosticLog.reportAll_append]
        · rw [step.moves.setting, waits] at reads
          rw [same]
          exact prepends rest _ _ reads
      · exfalso
        obtain ⟨u, step, _⟩ := leads.head_of_remaining
          (by rw [ended, remaining]; simp [Outline.tokens])
        have whole : s.remaining = first :: (front ++ later) := by
          simp [remaining, Outline.tokens]
        rcases step.moves.starts with ⟨_, _, _, head, tail, same, next⟩ | ⟨brace, after, same, kind⟩
        · rw [whole] at same
          cases same
          exact Chunk.next_open plain ends next
        · rw [whole] at same
          cases same
          have unended := plain first (by simp)
          rw [kind] at unended
          cases unended
  | block header inner brace rest ihInner ihRest =>
      obtain ⟨⟨front, final, rfl, plain, kind⟩, inside, right, formed⟩ := formed
      obtain ⟨first, tail, same, final', takes⟩ :=
        s.takes_closed plain (.inr kind) (inner.tokens ++ brace :: (rest.tokens ++ later))
          (by simp [remaining, Outline.tokens])
      obtain ⟨u, step, toward⟩ := leads.head_of_remaining (by rw [ended, takes.split.1]; simp)
      have leftBrace : (tail.getLast?.getD first).kind = .leftBrace := by
        rw [final']
        exact kind
      obtain ⟨waits, idle', warned, here, accepted, checks, logged, read, settled, opened | passed⟩ :=
        step.moves.header takes leftBrace
      · obtain ⟨left, deeper⟩ := opened
        obtain ⟨full, toFull, toLast, left, _, inside', loggedInside, reads⟩ :=
          ihInner toward inside left (.inr ⟨brace, _, rfl, right⟩)
        obtain ⟨v, step', toward'⟩ := toLast.head_of_remaining (by rw [ended, left]; simp)
        obtain ⟨_, left, quiet, scope, scopes, popped, closes⟩ := step'.moves.closing left right
        obtain ⟨t, toT, toLast, left, done, beyond, loggedBeyond, after⟩ :=
          ihRest toward' formed left ends
        refine ⟨t, ?_, toLast, left, done, here ++ (inside' ++ beyond), ?_, ?_⟩
        · exact (Relation.ReflTransGen.head step toFull).trans (.head step' toT)
        · rw [loggedBeyond, quiet, loggedInside, logged]
          simp only [warnings_append, DiagnosticLog.reportAll_append]
        · have setting : full.setting = s.setting := (Leads.setting toFull).trans step.moves.setting
          rw [step.moves.setting, settled, idle'] at reads
          rw [step'.moves.setting, setting] at after
          rw [setting] at closes
          rw [same, waits]
          exact .block checks read leftBrace deeper reads popped closes after
      · obtain ⟨skip, level⟩ := passed
        rw [Outline.skipBlock_tokens inside] at skip
        have left : u.remaining = rest.tokens ++ later := by
          simpa [Chunk.skipBlock, right, eq_comm] using skip
        obtain ⟨t, toT, toLast, left, done, beyond, loggedBeyond, reads⟩ :=
          ihRest toward formed left ends
        refine ⟨t, .head step toT, toLast, left, done, here ++ beyond, ?_, ?_⟩
        · rw [loggedBeyond, logged, warnings_append, DiagnosticLog.reportAll_append]
        · rw [step.moves.setting, idle', settled] at reads
          rw [same, waits]
          exact .passed checks read leftBrace level reads

end AnalysisState

end MiLanguage
