import MiLanguage.Proofs.Analysis.Progress
import MiLanguage.Proofs.Isolation.Enclosed
import MiLanguage.Proofs.Passes.Abreast

set_option autoImplicit false

namespace MiLanguage

theorem ScopeStack.pop?_of_all {s : ScopeStack} {scope : Scope} {rest : List Scope}
    (all : s.all = scope :: rest) (nonempty : rest ≠ []) :
    ∃ t, s.pop? = .some (scope, t) ∧ t.all = rest := by
  unfold ScopeStack.all at all
  cases opened : s.opened with
  | nil =>
      rw [opened, List.nil_append] at all
      exact absurd (List.cons.inj all).2.symm nonempty
  | cons first others =>
      rw [opened, List.cons_append, List.cons.injEq] at all
      obtain ⟨rfl, rfl⟩ := all
      exact ⟨{ s with opened := others }, by simp [ScopeStack.pop?, opened], rfl⟩

theorem Chunk.length_skipBlock {depth : Nat} {tokens beyond : List Token}
    (skipped : Chunk.skipBlock depth tokens = some beyond) : beyond.length < tokens.length := by
  induction tokens generalizing depth with
  | nil => cases skipped
  | cons t rest ih =>
      rw [List.length_cons]
      unfold Chunk.skipBlock at skipped
      split at skipped
      next => exact Nat.lt_succ_of_lt (ih skipped)
      next => cases skipped; exact Nat.lt_succ_self _
      next => exact Nat.lt_succ_of_lt (ih skipped)
      next => exact Nat.lt_succ_of_lt (ih skipped)

namespace AnalysisState

/-- A pass in the body of a function whose scope it has opened in the state `start`. -/
structure Underway (start : AnalysisState) (home : Scope) (outer : List Scope) (depth : Nat)
    (s : AnalysisState) : Prop where
  setting : s.setting = start.setting
  modules : start.environment.modules.Updated s.environment.modules
  inLibrary : s.environment.inLibrary = start.environment.inLibrary
  scopes : s.environment.Enclosed home outer depth
  log : start.log.Grows (fun _ => True) s.log

/-- The same, with the text of the body in front of `beyond`. -/
structure Reading (start : AnalysisState) (home : Scope) (outer : List Scope) (beyond : List Token)
    (depth : Nat) (s : AnalysisState) : Prop extends Underway start home outer depth s where
  text : Chunk.skipBlock depth s.remaining = some beyond

/-- The pass behind the body, before it hands on what it has made of it. -/
structure Outside (start : AnalysisState) (outer : List Scope) (beyond : List Token)
    (s : AnalysisState) : Prop where
  setting : s.setting = start.setting
  modules : start.environment.modules.Updated s.environment.modules
  inLibrary : s.environment.inLibrary = start.environment.inLibrary
  scopes : FieldsMarked outer s.environment.scopes.all
  log : start.log.Grows (fun _ => True) s.log
  remaining : s.remaining = beyond
  idle : s.pendingDo = none

-- What a finished function leaves: its stored body, and its node.
def handOn (s : AnalysisState) (body : Scope) (b : Block) : AnalysisState :=
  if body.discard then s else (s.modifyModules (b.attached body.node)).append body.node

/-- The pass has closed the scope of the function, and with it the body. -/
inductive Finished (start : AnalysisState) (home : Scope) (outer : List Scope)
    (beyond : List Token) : AnalysisState → Prop
  | intro {s : AnalysisState} {body : Scope} {b : Block} :
      Outside start outer beyond s → home.Continued body → body.frame = .block .function b →
      Finished start home outer beyond (s.handOn body b)

@[simp] theorem handOn_remaining (s : AnalysisState) (body : Scope) (b : Block) :
    (s.handOn body b).remaining = s.remaining := by
  unfold handOn
  split <;> rfl

variable {start s : AnalysisState} {home : Scope} {outer : List Scope} {beyond later : List Token}
  {depth : Nat} {first : Token} {rest : List Token}

section Underway

variable (underway : Underway start home outer depth s)

include underway

theorem Underway.withText (text : List Token) :
    Underway start home outer depth { s with remaining := text } :=
  ⟨underway.setting, underway.modules, underway.inLibrary, underway.scopes, underway.log⟩

theorem Underway.report (fault : Fault) (place : Token) :
    Underway start home outer depth (s.report fault place) :=
  ⟨underway.setting, underway.modules, underway.inLibrary, underway.scopes,
    .report .error place underway.log trivial⟩

theorem Underway.withPending (waiting : Option Node) :
    Underway start home outer depth { s with pendingDo := waiting } :=
  ⟨underway.setting, underway.modules, underway.inLibrary, underway.scopes, underway.log⟩

variable (function : home.frame.isFunction = true)

include function

theorem Underway.append (node : Node) : Underway start home outer depth (s.append node) where
  setting := underway.setting
  modules := by
    have modules := underway.modules
    unfold AnalysisState.append Environment.append
    split <;> exact modules
  inLibrary := (Environment.inLibrary_append node).trans underway.inLibrary
  scopes := underway.scopes.append function s.setting node
  log := underway.log

theorem Underway.flushDo : Underway start home outer depth s.flushDo := by
  unfold AnalysisState.flushDo
  split
  · exact (underway.withPending none).append function _
  · exact underway

theorem Underway.checkReachable (first : Token) :
    Underway start home outer depth (s.checkReachable first) := by
  unfold AnalysisState.checkReachable
  split
  · split
    · exact underway
    · exact ⟨underway.setting, underway.modules, underway.inLibrary,
        underway.scopes.modifyBlock function (fun _ => rfl) fun _ => rfl,
        .report .warning first underway.log trivial⟩
  · exact underway

-- The statement is rejected, or keeps to the body, or opens a block in it.
theorem Underway.attempt (pass : start.setting.declaring = false) (nonempty : outer ≠ []) :
    (Underway start home outer depth (s.attempt first rest) ∧
      (Ends first rest .leftBrace →
        (s.attempt first rest).environment.scopes.depth = s.environment.scopes.depth)) ∨
    (Ends first rest .leftBrace ∧
      s.environment.scopes.depth < (s.attempt first rest).environment.scopes.depth ∧
      Underway start home outer (depth + 1) (s.attempt first rest)) := by
  have declaring : s.setting.declaring = false := underway.setting ▸ pass
  unfold AnalysisState.attempt
  generalize read : s.environment.statement s.setting first rest = outcome
  obtain ⟨after, result⟩ := outcome
  cases result with
  | error r =>
      have same : after = s.environment := by
        rcases Environment.statement_rejects_cases read with same | ⟨declares, _⟩
        · exact same
        · rw [declaring] at declares
          cases declares
      subst same
      exact .inl ⟨underway.report r.fault r.place, fun _ => rfl⟩
  | ok node =>
      obtain ⟨mods, head, tail, modifiers, accepts⟩ := Environment.statement_accepts read
      have last := (find_head modifiers).2
      rw [List.getLast?_cons, Option.some.injEq] at last
      have ends {kind : TokenKind} (ends : Ends head tail kind) : Ends first rest kind := by
        unfold Ends
        rw [last]
        exact ends
      have keeps := accepts.enclosed declaring function nonempty underway.scopes
      have reached {inner : Nat} (scopes : after.Enclosed home outer inner) :
          Underway start home outer inner { s with environment := after } :=
        ⟨underway.setting, underway.modules.trans keeps.modules,
          keeps.inLibrary.trans underway.inLibrary, scopes, underway.log⟩
      rcases keeps.enclosed with ⟨semicolon, scopes⟩ | ⟨brace, deeper, scopes⟩
      · refine .inl ⟨reached scopes, fun brace => ?_⟩
        have semicolon := ends semicolon
        rw [Ends, brace] at semicolon
        cases semicolon
      · exact .inr ⟨ends brace, deeper, reached scopes⟩

-- Every header that is rejected in a body stands for a block.
theorem Underway.recover (head brace : Token)
    (text : Chunk.skipBlock (depth + 1) s.remaining = some beyond) :
    ∃ inner, Reading start home outer beyond inner (s.recover head brace) := by
  unfold AnalysisState.recover
  split
  next =>
    unfold AnalysisState.skipBlock
    split
    next behind skipped =>
      refine ⟨depth, underway.withText behind, ?_⟩
      have inside := Chunk.skipBlock_inside skipped depth
      rw [Nat.zero_add] at inside
      exact inside.symm.trans text
    next endless =>
      have unskipped := Chunk.skipBlock_endless endless (depth + 1)
      rw [Nat.zero_add, text] at unskipped
      cases unskipped
  next =>
    refine ⟨depth + 1, ⟨underway.setting, underway.modules, underway.inLibrary, ?_, underway.log⟩, text⟩
    obtain ⟨kind, title, -, loop⟩ :=
      recoveryFrame_block (underway.scopes.isBlock function) head
    generalize shown : recoveryFrame s.environment head = frame at title
    cases frame with
    | block kind' b =>
        cases title
        have opened : (s.pushRecovery head).environment.scopes.all =
            ⟨recoveryFrame s.environment head, .new .parent head.streamLine, true⟩ ::
              s.environment.scopes.all := rfl
        unfold Environment.Enclosed
        rw [opened, shown]
        exact .block rfl loop (fun kept => by cases kept) underway.scopes
    | _ => cases title

theorem Underway.readStatement (pass : start.setting.declaring = false) (nonempty : outer ≠ [])
    (ends : Ends first rest .semicolon ∨ Ends first rest .leftBrace)
    (plain : Ends first rest .semicolon → Chunk.skipBlock depth s.remaining = .some beyond)
    (opens : Ends first rest .leftBrace → Chunk.skipBlock (depth + 1) s.remaining = .some beyond) :
    ∃ inner, Reading start home outer beyond inner (s.readStatement first rest) := by
  have checked := underway.checkReachable function first
  have remaining := (s.calm_checkReachable first).remaining
  generalize reachable : s.checkReachable first = r at checked remaining
  have calm := (r.attempt_calm first rest).1.remaining.trans remaining
  have tried : ∃ inner, Reading start home outer beyond inner
      (if (rest.getLast?.getD first).is .leftBrace &&
          (r.attempt first rest).environment.scopes.depth = r.environment.scopes.depth then
        (r.attempt first rest).recover (((first :: rest).find? (!·.kind.isModifier)).getD first)
          (rest.getLast?.getD first)
      else r.attempt first rest) := by
    rw [← calm] at plain opens
    rcases checked.attempt function pass nonempty with ⟨stays, level⟩ | ⟨brace, deeper, inside⟩
    · rcases ends with semicolon | brace
      · rw [if_neg]
        · exact ⟨depth, stays, plain semicolon⟩
        · have last : (rest.getLast?.getD first).kind = .semicolon := semicolon
          simp [last]
      · rw [if_pos]
        · exact stays.recover function _ _ (opens brace)
        · have last : (rest.getLast?.getD first).kind = .leftBrace := brace
          simp [last, level brace]
    · rw [if_neg]
      · exact ⟨depth + 1, inside, opens brace⟩
      · simp only [Bool.and_eq_true, decide_eq_true_eq, not_and]
        intro _
        omega
  obtain ⟨inner, reading⟩ := tried
  unfold AnalysisState.readStatement
  rw [reachable]
  refine ⟨inner, ?_⟩
  dsimp only
  split
  · exact ⟨reading.toUnderway.append function _, reading.text⟩
  · exact reading

-- The brace closes the body.
theorem Underway.closeBody {brace : Token} {scope : Scope} {stack : ScopeStack}
    (idle : s.pendingDo = none) (popped : s.environment.scopes.pop? = some (scope, stack))
    (kept : home.Continued scope) (marked : FieldsMarked outer stack.all)
    (remaining : s.remaining = beyond) : Finished start home outer beyond (s.closeScope brace) := by
  obtain ⟨kind, b, c, frame, frame', -⟩ := kept.frame
  rw [frame] at function
  simp only [Frame.isFunction, Frame.blockKind?, Option.some.injEq, decide_eq_true_eq] at function
  subst function
  have done (log : DiagnosticLog) (grows : start.log.Grows (fun _ => True) log) :
      Finished start home outer beyond _ :=
    .intro (s := { s with environment := { s.environment with scopes := stack }, log })
      ⟨underway.setting, underway.modules, underway.inLibrary, marked, grows, remaining, idle⟩
      kept frame'
  unfold AnalysisState.closeScope
  rw [popped]
  dsimp only
  cases discard : scope.discard with
  | true => simpa [handOn, discard] using done s.log underway.log
  | false =>
      simp only [Bool.false_eq_true, if_false, frame', AnalysisState.closeFrame]
      rw [closeFunction_eq]
      simp only [handOn, discard, Bool.false_eq_true, if_false] at done
      split
      next type _ =>
        split
        · exact done s.log underway.log
        · exact done _ (.report .error brace underway.log trivial)
      next => exact done s.log underway.log

omit function in
-- What is left when the innermost scope of the body is gone.
theorem Underway.popped {inner : Nat} {stack : ScopeStack}
    (inside : MiLanguage.Enclosed home outer inner stack.all) :
    Underway start home outer inner
      { s with environment := { s.environment with scopes := stack } } :=
  ⟨underway.setting, underway.modules, underway.inLibrary, inside, underway.log⟩

-- The brace closes a block of the body that is no loop with a head.
theorem Underway.closeBlock {brace : Token} {scope : Scope} {stack : ScopeStack} {kind : BlockKind}
    {b : Block} {inner : Nat} (popped : s.environment.scopes.pop? = some (scope, stack))
    (frame : scope.frame = .block kind b) (head : kind ≠ .loopHead)
    (kept : scope.discard = false → kind ≠ .forLoop ∧ kind ≠ .function)
    (inside : MiLanguage.Enclosed home outer inner stack.all)
    (text : Chunk.skipBlock inner s.remaining = some beyond) :
    Reading start home outer beyond inner (s.closeScope brace) := by
  have left := underway.popped inside
  unfold AnalysisState.closeScope
  rw [popped]
  dsimp only
  cases discard : scope.discard with
  | true => exact ⟨left, text⟩
  | false =>
      obtain ⟨loop, ofFunction⟩ := kept discard
      simp only [Bool.false_eq_true, if_false, frame]
      cases kind with
      | branch | whileLoop => exact ⟨left.append function scope.node, text⟩
      | doLoop => exact ⟨left.withPending (some scope.node), text⟩
      | forLoop => exact absurd rfl loop
      | function => exact absurd rfl ofFunction
      | loopHead => exact absurd rfl head

omit underway function in
-- The node of a loop goes to its head, which stays below it.
theorem popped_append {stack : ScopeStack} {head : Scope} {below : List Scope}
    (left : stack.all = head :: below) (nonempty : below ≠ []) (node : Node) :
    ∃ head' rest, (AnalysisState.append
      { s with environment := { s.environment with scopes := stack } }
      node).environment.scopes.pop? = .some (head', rest) ∧ rest.all = below := by
  unfold AnalysisState.append Environment.append
  dsimp only
  split
  · obtain ⟨rest, popped, left⟩ := ScopeStack.pop?_of_all left nonempty
    exact ⟨head, rest, popped, left⟩
  · obtain ⟨below', all, changed⟩ := stack.all_eq_current
    rw [all] at left
    obtain ⟨-, rfl⟩ := List.cons.inj left
    obtain ⟨rest, popped, left⟩ := ScopeStack.pop?_of_all
      (changed fun scope => { scope with node := scope.node.push node }) nonempty
    exact ⟨_, rest, popped, left⟩

-- The brace closes a loop in the body, and its head with it.
theorem Underway.closeLoop {brace : Token} {scope head : Scope} {stack : ScopeStack} {b : Block}
    {inner : Nat} {below : List Scope}
    (popped : s.environment.scopes.pop? = some (scope, stack)) (left : stack.all = head :: below)
    (nonempty : below ≠ []) (frame : scope.frame = .block .forLoop b)
    (discard : scope.discard = false) (inside : MiLanguage.Enclosed home outer inner below)
    (text : Chunk.skipBlock inner s.remaining = some beyond) :
    Reading start home outer beyond inner (s.closeScope brace) := by
  obtain ⟨head', rest, popped', left'⟩ := popped_append (s := s) left nonempty scope.node
  unfold AnalysisState.closeScope
  rw [popped]
  simp only [discard, Bool.false_eq_true, if_false, frame, AnalysisState.closeFrame]
  rw [popped']
  have closed : Underway start home outer inner
      { AnalysisState.append { s with environment := { s.environment with scopes := stack } }
          scope.node with
        environment := { (AnalysisState.append { s with environment :=
          { s.environment with scopes := stack } } scope.node).environment with
          scopes := rest } } := by
    refine ⟨underway.setting, ?_, ?_,
      show MiLanguage.Enclosed home outer inner rest.all by rw [left']; exact inside,
      underway.log⟩
    · have modules := underway.modules
      unfold AnalysisState.append Environment.append
      split <;> exact modules
    · have library := underway.inLibrary
      unfold AnalysisState.append Environment.append
      split <;> exact library
  exact ⟨closed.append function head'.node, text⟩

-- The brace closes a block of the body, or the body.
theorem Underway.closeScope {brace : Token} (nonempty : outer ≠ []) (idle : s.pendingDo = none)
    (kind : brace.kind = .rightBrace)
    (text : Chunk.skipBlock depth (brace :: s.remaining) = .some beyond) :
    (∃ inner, Reading start home outer beyond inner (s.closeScope brace)) ∨
      Finished start home outer beyond (s.closeScope brace) := by
  have scopes := underway.scopes
  unfold Environment.Enclosed at scopes
  generalize shown : s.environment.scopes.all = all at scopes
  have long := MiLanguage.Enclosed.two_le_length scopes nonempty
  have popped {scope : Scope} {below : List Scope} (same : all = scope :: below) :
      ∃ stack, s.environment.scopes.pop? = .some (scope, stack) ∧ stack.all = below := by
    refine ScopeStack.pop?_of_all (shown.trans same) ?_
    rintro rfl
    rw [same, List.length_singleton] at long
    omega
  cases scopes with
  | body kept marked =>
      obtain ⟨stack, popped, left⟩ := popped rfl
      have remaining : s.remaining = beyond := by simpa [Chunk.skipBlock, kind] using text
      exact .inr (underway.closeBody function idle popped kept (left ▸ marked) remaining)
  | @block kind' b scope below depth frame head kept inside =>
      obtain ⟨stack, popped, left⟩ := popped rfl
      rw [Chunk.skipBlock_rightBrace kind] at text
      rw [← left] at inside
      exact .inl ⟨depth, underway.closeBlock function popped frame head kept inside text⟩
  | @loop b c scope head below depth frame discard headFrame inside =>
      obtain ⟨stack, popped, left⟩ := popped rfl
      rw [Chunk.skipBlock_rightBrace kind] at text
      have nonempty : below ≠ [] := by
        have := MiLanguage.Enclosed.two_le_length inside nonempty
        rintro rfl
        simp at this
      exact .inl ⟨depth,
        underway.closeLoop function popped left nonempty frame discard inside text⟩

end Underway

section Steps

variable (function : home.frame.isFunction = true) (pass : start.setting.declaring = false)
  (nonempty : outer ≠ [])

include function pass nonempty

theorem Underway.statementOrBrace (underway : Underway start home outer depth s) {head : Token}
    {tail : List Token} (idle : s.pendingDo = none)
    (found : Chunk.next head tail = (.statement first rest, s.remaining))
    (text : Chunk.skipBlock depth (head :: tail) = .some beyond) :
    (∃ inner, Reading start home outer beyond inner (s.statementOrBrace first rest)) ∨
      Finished start home outer beyond (s.statementOrBrace first rest) := by
  have takes : ({ s with remaining := head :: tail } : AnalysisState).Takes first rest s.remaining :=
    ⟨head, tail, rfl, found⟩
  unfold AnalysisState.statementOrBrace
  by_cases brace : first.kind = .rightBrace
  · rw [if_pos (by simpa using brace)]
    obtain ⟨rfl, rfl, ⟨-, rfl⟩ | ⟨plain, -⟩⟩ := Chunk.next_statement found
    · exact underway.closeScope function nonempty idle brace text
    · rw [brace] at plain
      cases plain
  · rw [if_neg (by simpa using brace)]
    have skips := takes.skipBlock brace depth
    exact .inl (underway.readStatement function pass nonempty (takes.ends brace)
      (fun semicolon => (skips.1 semicolon).symm.trans text)
      fun opens => (skips.2 opens).symm.trans text)

theorem Underway.statement (underway : Underway start home outer depth s) {head : Token}
    {tail : List Token} (found : Chunk.next head tail = (.statement first rest, s.remaining))
    (text : Chunk.skipBlock depth (head :: tail) = .some beyond) :
    (∃ inner, Reading start home outer beyond inner (s.statement first rest)) ∨
      Finished start home outer beyond (s.statement first rest) := by
  cases waiting : s.pendingDo with
  | none =>
      rw [statement_idle waiting]
      exact underway.statementOrBrace function pass nonempty waiting found text
  | some block =>
      rw [statement_waiting waiting]
      split
      next completes =>
        simp only [Bool.and_eq_true, Token.is_iff] at completes
        have takes : ({ s with remaining := head :: tail } : AnalysisState).Takes first rest
            s.remaining := ⟨head, tail, rfl, found⟩
        have unclosed : first.kind ≠ .rightBrace := by
          rw [completes.1]
          decide
        have skips := takes.skipBlock unclosed depth
        have text := (skips.1 completes.2).symm.trans text
        have idle := underway.withPending none
        refine .inl ⟨depth, ?_⟩
        simp only [AnalysisState.finishDo]
        split
        · exact ⟨idle.append function _, text⟩
        · exact ⟨(idle.report _ _).append function block, text⟩
      next =>
        have flushed := (underway.report (SyntaxFault.doWithoutWhile false) first).flushDo function
        have remaining := (calm_flushDo (s.report (SyntaxFault.doWithoutWhile false) first)).remaining
        exact flushed.statementOrBrace function pass nonempty (idle_flushDo _)
          (found.trans (congrArg (Prod.mk _) remaining.symm)) text

theorem Reading.step (reading : Reading start home outer beyond depth s) {t : AnalysisState}
    (stepped : s.step = .some t) :
    (∃ inner, Reading start home outer beyond inner t) ∨ Finished start home outer beyond t := by
  have text := reading.text
  unfold AnalysisState.step at stepped
  split at stepped
  next => cases stepped
  next head tail remaining =>
    rw [remaining] at text
    generalize found : Chunk.next head tail = next at stepped
    obtain ⟨chunk, later⟩ := next
    have breaks (fault : Fault) (place : Token) (off : chunk.breaksOff = true) :
        Reading start home outer beyond depth
          (({ s with remaining := later } : AnalysisState).report fault place) :=
      ⟨(reading.toUnderway.withText later).report fault place,
        (Chunk.skipBlock_breaksOff found off depth).symm.trans text⟩
    cases chunk with
    | statement first rest =>
        cases stepped
        exact (reading.toUnderway.withText later).statement function pass nonempty found text
    | endsAtBrace => cases stepped; exact .inl ⟨depth, breaks _ _ rfl⟩
    | endsAtInput => cases stepped; exact .inl ⟨depth, breaks _ _ rfl⟩

theorem Reading.finished (reading : Reading start home outer beyond depth s) :
    Finished start home outer beyond (s.downTo beyond.length) := by
  have kept : (∃ inner, Reading start home outer beyond inner (s.downTo beyond.length)) ∨
      Finished start home outer beyond (s.downTo beyond.length) :=
    downTo_invariant (P := fun t => (∃ inner, Reading start home outer beyond inner t) ∨
      Finished start home outer beyond t) (.inl ⟨depth, reading⟩) fun t u here left stepped => by
    rcases here with ⟨inner, reading⟩ | ⟨outside, -, -⟩
    · exact reading.step function pass nonempty stepped
    · exact absurd left (by rw [handOn_remaining, outside.remaining]; exact Nat.lt_irrefl _)
  rcases kept with ⟨inner, reading⟩ | finished
  · exact absurd (s.downTo_le beyond.length) (Nat.not_le.mpr (Chunk.length_skipBlock reading.text))
  · exact finished

end Steps

end AnalysisState

end MiLanguage
