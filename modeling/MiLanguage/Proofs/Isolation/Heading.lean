import MiLanguage.Proofs.Control.Run
import MiLanguage.Proofs.Isolation.Body
import MiLanguage.Proofs.Likeness.Ahead
import MiLanguage.Proofs.Naming.Growing
import MiLanguage.Proofs.Outline.Run
import MiLanguage.Proofs.Statement.RangeLoop

set_option autoImplicit false

namespace MiLanguage

-- A heading that is accepted declares a function in the first pass, and opens its body in the
-- second.
theorem Accepts.of_heading {env : Environment} {setting : Setting} {mods : LeadingModifiers}
    {head : Token} {tail : List Token} {accepted : Accepted}
    (accepts : Accepts env setting mods head tail accepted) (brace : Ends head tail .leftBrace)
    (names : head.kind = .keyword .fn ∨ head.kind = .keyword .new) :
    (setting.declaring = true ∧ accepted.environment.shape = env.shape) ∨
      (setting.declaring = false ∧ env.frame.isBlock = false ∧
        ∃ type owner parameters place node,
          accepted = ⟨env.openBody type owner parameters place node, none⟩) := by
  have other {k : Keyword} (kind : head.kind = .keyword k) (fn : k ≠ .fn) (new : k ≠ .new) : False := by
    rw [kind] at names
    rcases names with same | same <;> cases same
    · exact fn rfl
    · exact new rfl
  have closed (semicolon : Ends head tail .semicolon) : False := by
    unfold Ends at brace semicolon
    rw [brace] at semicolon
    cases semicolon
  cases accepts with
  | functionDeclared _ _ _ pass _ _ added => exact .inl ⟨pass, Environment.shape_addFunction? added⟩
  | functionOpened _ _ host pass =>
      exact .inr ⟨pass, isBlock_of_host host, _, _, _, _, _, rfl⟩
  | constructorDeclared _ _ frame pass =>
      refine .inl ⟨pass, ScopeStack.shape_modifyCurrent ?_ rfl⟩
      rw [show env.scopes.current.frame = _ from frame]
      rfl
  | constructorOpened _ _ frame pass =>
      exact .inr ⟨pass, by rw [frame]; rfl, _, _, _, _, _, rfl⟩
  | moduleDeclared kind | moduleEntered kind | classDeclared kind | classEntered kind
  | classMissing kind | enumDeclared kind | enumEntered kind | enumMissing kind | doLoop kind
  | forLoop kind => exact (other kind (by simp) (by simp)).elim
  | conditional starts =>
      rcases conditional_eq_some starts with ⟨kind, -⟩ | ⟨kind, -⟩
      · exact (other kind (by simp) (by simp)).elim
      · exact (other kind (by simp) (by simp)).elim
  | membersDeclared _ ends | membersKept _ ends | nativeDeclared _ ends | nativeKept _ ends
  | returned _ ends | exited _ ends | used _ ends | libraryEnded _ ends | variableDefined _ ends
  | variableKept _ ends | called _ ends | assigned _ ends => exact (closed ends).elim

namespace Environment

-- Outside of bodies no function is open.
theorem not_function_of_outside {env : Environment} (outside : Title.Outside env.titles) :
    ∀ scope ∈ env.scopes.all, scope.frame.isFunction = false := by
  intro scope member
  have kept := discard_of_outside outside scope member
  have title : scope.frame.title ∈ env.titles := by
    have shown : scope.title ∈ env.titles := List.mem_map_of_mem member
    rwa [Scope.title, if_neg (by simp [kept])] at shown
  obtain ⟨top, below, titles, declaration, modules, -⟩ := outside
  rw [titles] at title
  cases frame : scope.frame with
  | block =>
      rw [frame] at title
      rcases List.mem_cons.mp title with same | later
      · rw [← same] at declaration
        cases declaration
      · exact absurd (modules _ later) (by simp [Frame.title, Title.isModule])
  | _ => rfl

-- The parameters go into the scope of the body. Those around it stay.
theorem openBody_all (env : Environment) (type : Datatype) (owner : BodyOwner)
    (parameters : List FunctionParameter) (place : Token) (node : Node) :
    ∃ home, (env.openBody type owner parameters place node).scopes.all = home :: env.scopes.all ∧
      (⟨.block .function { Block.function type with bodyOf := some owner }, node, false⟩ :
        Scope).Continued home := by
  unfold openBody
  dsimp only
  generalize opened : env.push _ node = body
  have start : ∃ home, body.scopes.all = home :: env.scopes.all ∧
      (⟨.block .function { Block.function type with bodyOf := some owner }, node, false⟩ :
        Scope).Continued home := by
    subst opened
    exact ⟨_, rfl, Scope.continued_refl rfl⟩
  clear opened
  induction parameters generalizing body with
  | nil => exact start
  | cons p parameters ih =>
      refine ih _ ?_
      dsimp only
      generalize declared : body.scopes.declareLocal? _ = found
      cases found with
      | none => exact start
      | some scopes =>
          obtain ⟨home, all, kept⟩ := start
          obtain ⟨-, kind, b, height, outer, frame, same, later, current⟩ :=
            ScopeStack.declareLocal?_eq_some declared
          rw [all, List.cons.injEq] at same
          obtain ⟨rfl, rfl⟩ := same
          refine ⟨_, later, kept.trans ?_⟩
          rw [current]
          exact Scope.continued_of_frame rfl rfl frame rfl rfl rfl

end Environment

namespace AnalysisState

variable {s t : AnalysisState} {first : Token} {rest : List Token}

/-- The heading of a function or a constructor, or what is meant to be one, with the brace behind
it. -/
structure Heading (first : Token) (rest : List Token) : Prop where
  notClosing : first.kind ≠ .rightBrace
  brace : Ends first rest .leftBrace
  names : (leading first rest).kind = .keyword .fn ∨
    (leading first rest).kind = .keyword .new

theorem Heading.depth_declaring (heading : Heading first rest) {setting : Setting}
    (pass : setting.declaring = true) (env : Environment) :
    (env.statement setting first rest).environment.scopes.depth = env.scopes.depth := by
  generalize read : env.statement setting first rest = outcome
  obtain ⟨after, result⟩ := outcome
  cases result with
  | error r =>
      rcases Environment.statement_rejects read with rfl | ⟨id, e, extended, -, rfl⟩
      · rfl
      · exact ScopeStack.depth_modifyCurrent _ _
  | ok node =>
      obtain ⟨mods, head, tail, modifiers, accepts⟩ := Environment.statement_accepts read
      have names := heading.names
      rw [leading_of_read modifiers] at names
      have last := (find_head modifiers).2
      rw [List.getLast?_cons, Option.some.injEq] at last
      have brace : Ends head tail .leftBrace := by
        unfold Ends
        rw [← last]
        exact heading.brace
      rcases accepts.of_heading brace names with ⟨-, shape⟩ | ⟨bodies, -⟩
      · rw [Environment.length_shape, Environment.length_shape, shape]
      · rw [pass] at bodies
        cases bodies

theorem Heading.skips_readStatement (heading : Heading first rest) (s : AnalysisState)
    (pass : s.declaring = true) :
    ∃ (v : AnalysisState) (brace : Token), ∀ left,
      (s.facing left).readStatement first rest = (v.facing left).skipBlock brace := by
  have last : (rest.getLast?.getD first).kind = .leftBrace := heading.brace
  have checked (left : List Token) :
      (s.facing left).checkReachable first = (s.checkReachable first).facing left :=
    checkReachable_remaining s left first
  have declaring : (s.checkReachable first).declaring = true := by
    unfold AnalysisState.declaring
    rw [checkReachable_setting]
    exact pass
  unfold readStatement
  simp only [checked]
  generalize s.checkReachable first = w at declaring
  have level := heading.depth_declaring declaring w.environment
  have read (left : List Token) : (w.facing left).environment.statement (w.facing left).setting first
      rest = w.environment.statement w.setting first rest := rfl
  simp only [read]
  generalize w.environment.statement w.setting first rest = outcome at level
  obtain ⟨after, result⟩ := outcome
  have recovers (u : AnalysisState) (same : u.environment = after) (firstPass : u.declaring = true)
      (left : List Token) :
      (if (rest.getLast?.getD first).is .leftBrace &&
            (u.facing left).environment.scopes.depth = (w.facing left).environment.scopes.depth then
          (u.facing left).recover (((first :: rest).find? (!·.kind.isModifier)).getD first)
            (rest.getLast?.getD first)
        else u.facing left) = (u.facing left).skipBlock (rest.getLast?.getD first) := by
    have here : (u.facing left).environment.scopes.depth = (w.facing left).environment.scopes.depth := by
      show u.environment.scopes.depth = _
      rw [same]
      exact level
    have skips : (u.facing left).skipsBody (leading first rest) = true := by
      unfold skipsBody
      rcases heading.names with kind | kind
      · rw [kind]; exact firstPass
      · rw [kind]; exact firstPass
    rw [if_pos (by simp [last, here])]
    exact if_pos skips
  cases result with
  | error r =>
      exact ⟨_, _, recovers (({ w with environment := after } : AnalysisState).reportTo r) rfl
        declaring⟩
  | ok node =>
      have done := recovers ({ w with environment := after } : AnalysisState) rfl declaring
      cases node with
      | none => exact ⟨_, _, done⟩
      | some node =>
          exact ⟨({ w with environment := after } : AnalysisState).append node, _, fun left =>
            (congrArg (·.append node) (done left)).trans (skipBlock_append _ _ node)⟩

theorem bare_flushDo (s : AnalysisState) :
    s.flushDo.environment.frame = s.environment.frame ∧
      s.flushDo.environment.titles = s.environment.titles := by
  unfold flushDo
  split
  next node _ =>
    exact ⟨Environment.frame_append s.environment s.setting node,
      Environment.titles_append s.environment s.setting node⟩
  next => exact ⟨rfl, rfl⟩

/-- The body of a function is open: its scope, and those around it. -/
structure Opens (v : AnalysisState) (home : Scope) (outer : List Scope) : Prop where
  scopes : v.environment.scopes.all = home :: outer
  function : home.frame.isFunction = true
  some : outer ≠ []
  single : home.discard = true ∨ ∀ scope ∈ outer, scope.frame.isFunction = false

theorem Heading.opens_readStatement (heading : Heading first rest) (s : AnalysisState)
    (pass : s.declaring = false)
    (placed : s.environment.frame.isBlock = false → Title.Outside s.environment.titles) :
    ∃ v home outer, v.setting = s.setting ∧ Opens v home outer ∧
      ∀ left, (s.facing left).readStatement first rest = v.facing left := by
  have last : (rest.getLast?.getD first).kind = .leftBrace := heading.brace
  have checked (left : List Token) :
      (s.facing left).checkReachable first = (s.checkReachable first).facing left :=
    checkReachable_remaining s left first
  have setting := checkReachable_setting (s := s) first
  have placed : (s.checkReachable first).environment.frame.isBlock = false →
      Title.Outside (s.checkReachable first).environment.titles := by
    obtain ⟨warned, log, same, -, warns⟩ := checkReachable_warned s first
    rw [same]
    cases warns with
    | same => exact placed
    | marked frame =>
        intro bare
        dsimp only [Environment.modifyBlock, ScopeStack.modifyCurrentBlock, Environment.frame] at bare
        rw [ScopeStack.current_modifyCurrent, show s.environment.scopes.current.frame = _ from frame]
          at bare
        cases bare
  unfold readStatement
  simp only [checked]
  generalize s.checkReachable first = w at setting placed
  have declaring : w.setting.declaring = false := by rw [setting]; exact pass
  have read (left : List Token) : (w.facing left).environment.statement (w.facing left).setting first
      rest = w.environment.statement w.setting first rest := rfl
  simp only [read]
  generalize read : w.environment.statement w.setting first rest = outcome
  obtain ⟨after, result⟩ := outcome
  have around : w.environment.scopes.all ≠ [] := w.environment.scopes.all_ne_nil
  cases result with
  | error r =>
      have same : after = w.environment := by
        rcases Environment.statement_rejects_cases read with same | ⟨declares, -⟩
        · exact same
        · rw [declaring] at declares
          cases declares
      subst same
      have frame : recoveryFrame w.environment (leading first rest) = .block .function {} := by
        unfold recoveryFrame
        rcases heading.names with kind | kind <;> rw [kind]
      refine ⟨(w.reportTo r).pushRecovery (leading first rest),
        ⟨recoveryFrame w.environment (leading first rest),
          .new .parent (leading first rest).streamLine, true⟩, w.environment.scopes.all, setting,
        ⟨rfl, ?_, around, .inl rfl⟩, fun left => ?_⟩
      · show Frame.isFunction (recoveryFrame _ _) = true
        rw [frame]
        rfl
      · have bodies : (w.facing left).skipsBody (leading first rest) = false := by
          unfold skipsBody
          rcases heading.names with kind | kind
          · rw [kind]; exact declaring
          · rw [kind]; exact declaring
        dsimp only
        rw [if_pos (by simp [last]; rfl)]
        exact if_neg (by
          show ¬(w.facing left).skipsBody (leading first rest) = true
          simp [bodies])
  | ok node =>
      obtain ⟨mods, head, tail, modifiers, accepts⟩ := Environment.statement_accepts read
      have names := heading.names
      rw [leading_of_read modifiers] at names
      have ends := (find_head modifiers).2
      rw [List.getLast?_cons, Option.some.injEq] at ends
      have brace : Ends head tail .leftBrace := by
        unfold Ends
        rw [← ends]
        exact heading.brace
      rcases accepts.of_heading brace names with
        ⟨declares, -⟩ | ⟨-, bare, type, owner, parameters, place, body, opened⟩
      · rw [declaring] at declares
        cases declares
      · rw [Accepted.mk.injEq] at opened
        obtain ⟨rfl, rfl⟩ := opened
        obtain ⟨home, all, kept⟩ := Environment.openBody_all w.environment type owner parameters place body
        refine ⟨{ w with environment := w.environment.openBody type owner parameters place body }, home,
          w.environment.scopes.all, setting, ⟨all, ?_, around, .inr ?_⟩, fun left => ?_⟩
        · rw [kept.isFunction]
          rfl
        · intro scope member
          exact Environment.not_function_of_outside (placed bare) scope member
        · dsimp only
          rw [if_neg (by simp [facing])]
          rfl


-- A `do` block that waits is dropped at a heading.
theorem Heading.statement (heading : Heading first rest) (s : AnalysisState) :
    ∃ w : AnalysisState, w.setting = s.setting ∧ w.environment.frame = s.environment.frame ∧
      w.environment.titles = s.environment.titles ∧
      ∀ left, (s.facing left).statement first rest = (w.facing left).readStatement first rest := by
  have last : (rest.getLast?.getD first).kind = .leftBrace := heading.brace
  have reads (u : AnalysisState) : u.statementOrBrace first rest = u.readStatement first rest :=
    if_neg (by simpa using heading.notClosing)
  cases waiting : s.pendingDo with
  | none =>
      exact ⟨s, rfl, rfl, rfl, fun left =>
        (statement_idle (s := s.facing left) waiting first rest).trans (reads _)⟩
  | some block =>
      have flushed := bare_flushDo (s.report (SyntaxFault.doWithoutWhile false) first)
      refine ⟨(s.report (SyntaxFault.doWithoutWhile false) first).flushDo, flushDo_setting, flushed.1,
        flushed.2, fun left => ?_⟩
      rw [statement_waiting (s := s.facing left) waiting, if_neg (by simp [last]), reads]
      exact congrArg (·.readStatement first rest)
        (flushDo_facing (s.report (SyntaxFault.doWithoutWhile false) first) left)

theorem Heading.skips_statement (heading : Heading first rest) (s : AnalysisState)
    (pass : s.declaring = true) :
    ∃ (v : AnalysisState) (brace : Token), ∀ left,
      (s.facing left).statement first rest = (v.facing left).skipBlock brace := by
  obtain ⟨w, setting, -, -, same⟩ := heading.statement s
  obtain ⟨v, brace, skips⟩ := heading.skips_readStatement w (by
    unfold AnalysisState.declaring
    rw [setting]
    exact pass)
  exact ⟨v, brace, fun left => (same left).trans (skips left)⟩

theorem Heading.opens_statement (heading : Heading first rest) (s : AnalysisState)
    (pass : s.declaring = false)
    (placed : s.environment.frame.isBlock = false → Title.Outside s.environment.titles) :
    ∃ v home outer, v.setting = s.setting ∧ Opens v home outer ∧
      ∀ left, (s.facing left).statement first rest = v.facing left := by
  obtain ⟨w, setting, frame, titles, same⟩ := heading.statement s
  rw [← frame, ← titles] at placed
  obtain ⟨v, home, outer, setting', opens, reads⟩ := heading.opens_readStatement w (by
    unfold AnalysisState.declaring
    rw [setting]
    exact pass) placed
  exact ⟨v, home, outer, setting'.trans setting, opens, fun left => (same left).trans (reads left)⟩

variable {text other : List Token} {left : Nat}

-- Two runs that are ahead of a place both come to it, or pass over it and are the same from then
-- on.
theorem downTo_ahead {s t : AnalysisState}
    (level : ∀ depth, Chunk.skipBlock depth text = Chunk.skipBlock depth other)
    (short : ∀ depth rest, Chunk.skipBlock depth text = some rest → rest.length ≤ left)
    (ahead : Ahead text other s t) :
    ((s.downTo text.length).remaining = text ∧
        t.downTo other.length = (s.downTo text.length).facing other) ∨
      (t.downTo other.length = s.downTo text.length ∧
        (s.downTo text.length).remaining.length ≤ left) := by
  by_cases arrived : s.remaining = text
  · have here : t.remaining = other := by
      rw [ahead.arrived arrived]
      rfl
    rw [downTo_of_le (Nat.le_of_eq (congrArg List.length arrived)),
      downTo_of_le (Nat.le_of_eq (congrArg List.length here))]
    exact .inl ⟨arrived, ahead.arrived arrived⟩
  · obtain ⟨s', t', mine, theirs, both⟩ := ahead.step level arrived
    obtain ⟨front, -, remaining, rfl⟩ := ahead.front
    have nonempty : 0 < front.length := List.length_pos_iff.mpr fun empty => arrived (by
      rw [remaining, empty, List.nil_append])
    have more : text.length < s.remaining.length := by
      rw [remaining, List.length_append]
      omega
    have more' : other.length < (s.facing (front ++ other)).remaining.length := by
      show other.length < (front ++ other).length
      rw [List.length_append]
      omega
    have fewer := step_remaining_lt mine
    rw [downTo_of_step mine more, downTo_of_step theirs more']
    rcases both with both | ⟨rfl, depth, beyond⟩
    · exact downTo_ahead level short both
    · cases skipped : Chunk.skipBlock depth text with
      | none =>
          rw [skipped] at beyond
          rw [downTo_of_le (by simp [beyond]), downTo_of_le (by simp [beyond])]
          exact .inr ⟨rfl, by simp [beyond]⟩
      | some rest =>
          have within := Chunk.length_skipBlock skipped
          have within' := Chunk.length_skipBlock ((level depth).symm.trans skipped)
          rw [skipped, Option.getD_some] at beyond
          rw [downTo_of_le (by rw [beyond]; omega), downTo_of_le (by rw [beyond]; omega)]
          exact .inr ⟨rfl, by rw [beyond]; exact short depth rest skipped⟩
termination_by s.remaining.length

end AnalysisState

-- A balanced text is passed over at any depth.
theorem Chunk.skipBlock_balanced {body : List Token} (balanced : closesAll 0 body = true) (depth : Nat)
    (rest : List Token) : Chunk.skipBlock depth (body ++ rest) = Chunk.skipBlock depth rest := by
  suffices deeper : ∀ inner, closesAll inner body = true →
      Chunk.skipBlock (inner + depth) (body ++ rest) = Chunk.skipBlock depth rest by
    simpa using deeper 0 balanced
  clear balanced
  induction body with
  | nil =>
      intro inner closed
      have zero : inner = 0 := by simpa [closesAll] using closed
      rw [zero, Nat.zero_add, List.nil_append]
  | cons t body ih =>
      intro inner closed
      rw [List.cons_append]
      unfold closesAll at closed
      split at closed
      next kind =>
        rw [Chunk.skipBlock_leftBrace kind, Nat.add_right_comm]
        exact ih _ closed
      next kind =>
        obtain ⟨positive, closed⟩ := Bool.and_eq_true_iff.mp closed
        obtain ⟨k, rfl⟩ := Nat.exists_eq_succ_of_ne_zero (of_decide_eq_true positive)
        rw [Nat.succ_add, Chunk.skipBlock_rightBrace kind]
        exact ih k closed
      next left right =>
        rw [Chunk.skipBlock_plain left right]
        exact ih inner closed

/-- A program, and in it the body of a function or a constructor between its braces. -/
structure FunctionText where
  before : List Token
  heading : List Token
  opening : Token
  body : List Token
  closing : Token
  after : List Token
  whole : Whole before
  plain : Outline.Plain heading
  names : (heading.find? (!·.kind.isModifier)).any (fun head =>
    head.kind = .keyword .fn || head.kind = .keyword .new) = true
  opens : opening.kind = .leftBrace
  balanced : closesAll 0 body = true
  closes : closing.kind = .rightBrace

namespace FunctionText

variable (t : FunctionText)

-- What stands behind the brace that opens the body.
def inner : List Token := t.body ++ t.closing :: t.after

-- The heading, and all that follows.
def text : List Token := t.heading ++ t.opening :: t.inner

def program : List Token := t.before ++ t.text

theorem skipBlock_inner : Chunk.skipBlock 0 t.inner = some t.after := by
  rw [inner, Chunk.skipBlock_balanced t.balanced]
  simp [Chunk.skipBlock, t.closes]

-- From outside the body does not show.
theorem skipBlock_text (depth : Nat) : Chunk.skipBlock depth t.text = Chunk.skipBlock depth t.after := by
  rw [text, Chunk.skipBlock_append t.plain, Chunk.skipBlock_leftBrace t.opens, inner,
    Chunk.skipBlock_balanced t.balanced, Chunk.skipBlock_rightBrace t.closes]

theorem exists_heading : ∃ first rest, t.heading ++ [t.opening] = first :: rest ∧
    AnalysisState.Heading first rest ∧
    ∀ s : AnalysisState, ∀ later, (s.facing (t.heading ++ t.opening :: later)).step =
      some ((s.facing later).statement first rest) := by
  obtain ⟨first, rest, same, next⟩ := Chunk.next_closed t.plain (.inr t.opens) []
  have brace : Ends first rest .leftBrace := by
    have last := congrArg List.getLast? same
    rw [List.getLast?_concat, List.getLast?_cons, Option.some.injEq] at last
    unfold Ends
    rw [← last]
    exact t.opens
  refine ⟨first, rest, same, ⟨?_, brace, ?_⟩, fun s later => ?_⟩
  · intro right
    have member : first ∈ t.heading ++ [t.opening] := by rw [same]; exact List.mem_cons_self
    rcases List.mem_append.mp member with member | member
    · have plain := t.plain first member
      rw [right] at plain
      cases plain
    · rw [List.mem_singleton.mp member, t.opens] at right
      cases right
  · obtain ⟨head, found, kind⟩ := (Option.any_eq_true _ _).mp t.names
    have leads : AnalysisState.leading first rest = head := by
      rw [AnalysisState.leading, ← same, List.find?_append, found]
      rfl
    rw [leads]
    simpa using kind
  · obtain ⟨first', rest', same', next⟩ := Chunk.next_closed t.plain (.inr t.opens) later
    rw [same, List.cons.injEq] at same'
    obtain ⟨rfl, rfl⟩ := same'
    have whole : t.heading ++ t.opening :: later = first :: (rest ++ later) := by
      rw [← List.cons_append, ← same, List.append_assoc, List.singleton_append]
    unfold AnalysisState.step AnalysisState.facing
    simp only [whole, next]

end FunctionText

end MiLanguage
