import MiLanguage.Proofs.Nesting.Step

set_option autoImplicit false

namespace MiLanguage

namespace AnalysisState

variable {s t : AnalysisState} {first : Token} {rest : List Token} {left : Nat}

section Steps

theorem recover_suffix (s : AnalysisState) (head brace : Token) :
    (s.recover head brace).remaining <:+ s.remaining := by
  unfold recover
  split
  · unfold skipBlock
    split
    next skipped => exact Chunk.skipBlock_suffix skipped
    next => exact List.nil_suffix
  · exact List.suffix_refl _

theorem readStatement_suffix (s : AnalysisState) (first : Token) (rest : List Token) :
    (s.readStatement first rest).remaining <:+ s.remaining := by
  have checked := (s.calm_checkReachable first).remaining
  generalize reachable : s.checkReachable first = r at checked
  have tried := (r.attempt_calm first rest).1.remaining.trans checked
  have recovered : (if (rest.getLast?.getD first).is .leftBrace &&
        (r.attempt first rest).environment.scopes.depth = r.environment.scopes.depth then
      (r.attempt first rest).recover (((first :: rest).find? (!·.kind.isModifier)).getD first)
        (rest.getLast?.getD first)
      else r.attempt first rest).remaining <:+ s.remaining := by
    rw [← tried]
    split
    · exact recover_suffix _ _ _
    · exact List.suffix_refl _
  unfold readStatement
  rw [reachable]
  dsimp only
  split
  · exact recovered
  · exact recovered

theorem closeScope_remaining (s : AnalysisState) (brace : Token) :
    (s.closeScope brace).remaining = s.remaining := by
  unfold closeScope
  split
  · rfl
  · dsimp only
    split
    · rfl
    · exact (calm_closeFrame _ _ _ brace).remaining

theorem statementOrBrace_suffix (s : AnalysisState) (first : Token) (rest : List Token) :
    (s.statementOrBrace first rest).remaining <:+ s.remaining := by
  unfold statementOrBrace
  split
  · exact ⟨[], closeScope_remaining ..⟩
  · exact readStatement_suffix s first rest

theorem statement_suffix (s : AnalysisState) (first : Token) (rest : List Token) :
    (s.statement first rest).remaining <:+ s.remaining := by
  cases waiting : s.pendingDo with
  | none =>
      rw [statement_idle waiting]
      exact statementOrBrace_suffix s first rest
  | some block =>
      rw [statement_waiting waiting]
      split
      · exact ⟨[], (s.calm_finishDo block first rest.dropLast).remaining⟩
      · have flushed := (calm_flushDo (s.report (SyntaxFault.doWithoutWhile false) first)).remaining
        exact (statementOrBrace_suffix _ first rest).trans ⟨[], flushed⟩

theorem step_remaining_lt (stepped : s.step = some t) :
    t.remaining.length < s.remaining.length := by
  unfold step at stepped
  split at stepped
  next => cases stepped
  next head tail remaining =>
    have shorter := Chunk.length_next head tail
    rw [remaining, List.length_cons]
    generalize Chunk.next head tail = next at stepped shorter
    obtain ⟨chunk, later⟩ := next
    have fewer {u : AnalysisState} (suffix : u.remaining <:+ later) :
        u.remaining.length < tail.length + 1 :=
      Nat.lt_succ_of_le (Nat.le_trans suffix.length_le shorter)
    cases chunk with
    | statement first rest =>
        cases stepped
        exact fewer (statement_suffix { s with remaining := later } first rest)
    | endsAtBrace | endsAtInput =>
        cases stepped
        exact fewer (List.suffix_refl later)

theorem readStatement_setting (s : AnalysisState) (first : Token) (rest : List Token) :
    (s.readStatement first rest).setting = s.setting := by
  have checked : (s.checkReachable first).setting = s.setting := by
    unfold checkReachable
    split
    · split <;> rfl
    · rfl
  have recovered (u : AnalysisState) (head brace : Token) :
      (u.recover head brace).setting = u.setting := by
    unfold recover
    split
    · unfold skipBlock
      split <;> rfl
    · rfl
  generalize reachable : s.checkReachable first = r at checked
  have tried : (r.attempt first rest).setting = s.setting := by
    unfold attempt
    dsimp only
    split <;> exact checked
  have settled : (if (rest.getLast?.getD first).is .leftBrace &&
        (r.attempt first rest).environment.scopes.depth = r.environment.scopes.depth then
      (r.attempt first rest).recover (((first :: rest).find? (!·.kind.isModifier)).getD first)
        (rest.getLast?.getD first)
      else r.attempt first rest).setting = s.setting := by
    split
    · exact (recovered _ _ _).trans tried
    · exact tried
  unfold readStatement
  rw [reachable]
  dsimp only
  split
  · exact settled
  · exact settled

theorem closeScope_setting (s : AnalysisState) (brace : Token) :
    (s.closeScope brace).setting = s.setting := by
  unfold closeScope
  split
  · rfl
  next scope scopes _ =>
    dsimp only
    split
    · rfl
    · cases scope.frame with
      | parent | module => rfl
      | «class» | enum =>
          unfold closeFrame
          dsimp only
          split <;> rfl
      | block kind b =>
          cases kind with
          | function =>
              rw [closeFrame, closeFunction_eq]
              split
              · split <;> rfl
              · rfl
          | forLoop =>
              unfold closeFrame
              dsimp only
              split <;> rfl
          | branch | whileLoop | doLoop | loopHead => rfl

theorem step_setting (stepped : s.step = some t) : t.setting = s.setting := by
  have ordinary (u : AnalysisState) (first : Token) (rest : List Token) :
      (u.statementOrBrace first rest).setting = u.setting := by
    unfold statementOrBrace
    split
    · exact closeScope_setting u first
    · exact readStatement_setting u first rest
  have flushed (u : AnalysisState) : u.flushDo.setting = u.setting := by
    unfold flushDo
    split <;> rfl
  unfold step at stepped
  split at stepped
  next => cases stepped
  next head tail _ =>
    generalize Chunk.next head tail = next at stepped
    obtain ⟨chunk, later⟩ := next
    cases chunk with
    | statement first rest =>
        cases stepped
        unfold statement
        split
        · exact ordinary _ first rest
        · split
          · unfold finishDo
            dsimp only
            split <;> rfl
          · exact (ordinary _ first rest).trans (flushed _)
    | endsAtBrace | endsAtInput => cases stepped; rfl

end Steps

-- Goes on until `left` tokens are left at most.
def readOn (left : Nat) : Nat → AnalysisState → AnalysisState
  | 0, s => s
  | bound + 1, s =>
      if s.remaining.length ≤ left then s
      else match s.step with
        | none => s
        | some t => readOn left bound t

def downTo (s : AnalysisState) (left : Nat) : AnalysisState := readOn left s.remaining.length s

theorem readOn_of_le (few : s.remaining.length ≤ left) (bound : Nat) : readOn left bound s = s := by
  cases bound with
  | zero => rfl
  | succ bound => rw [readOn, if_pos few]

theorem readOn_enough {bound : Nat} (enough : s.remaining.length ≤ bound) :
    readOn left bound s = s.downTo left := by
  suffices same : ∀ bound other, s.remaining.length ≤ bound → s.remaining.length ≤ other →
      readOn left bound s = readOn left other s from same _ _ enough (Nat.le_refl _)
  intro bound
  induction bound generalizing s with
  | zero =>
      intro other _ _
      rw [readOn_of_le (by omega), readOn_of_le (by omega)]
  | succ bound ih =>
      intro other enough enough'
      cases other with
      | zero => rw [readOn_of_le (by omega), readOn_of_le (by omega)]
      | succ other =>
          unfold readOn
          split
          · rfl
          · split
            · rfl
            next t stepped =>
              have fewer := step_remaining_lt stepped
              exact ih (by omega) other (by omega) (by omega)

theorem downTo_of_le (few : s.remaining.length ≤ left) : s.downTo left = s := readOn_of_le few _

theorem downTo_of_step (stepped : s.step = some t) (more : left < s.remaining.length) :
    s.downTo left = t.downTo left := by
  have fewer := step_remaining_lt stepped
  obtain ⟨bound, length⟩ := Nat.exists_eq_add_of_lt fewer
  rw [downTo, show s.remaining.length = (t.remaining.length + bound) + 1 by omega, readOn, stepped,
    if_neg (by omega)]
  exact readOn_enough (by omega)

theorem exists_step (more : left < s.remaining.length) : ∃ t, s.step = some t := by
  cases stepped : s.step with
  | none =>
      rw [step_eq_none_iff.mp stepped] at more
      cases more
  | some t => exact ⟨t, rfl⟩

theorem downTo_invariant {s : AnalysisState} {P : AnalysisState → Prop} (start : P s)
    (steps : ∀ s t, P s → left < s.remaining.length → s.step = some t → P t) :
    P (s.downTo left) := by
  by_cases few : s.remaining.length ≤ left
  · rw [downTo_of_le few]
    exact start
  · obtain ⟨t, stepped⟩ := exists_step (Nat.lt_of_not_le few)
    have fewer := step_remaining_lt stepped
    rw [downTo_of_step stepped (Nat.lt_of_not_le few)]
    exact downTo_invariant (steps s t start (Nat.lt_of_not_le few) stepped) steps
termination_by s.remaining.length

theorem downTo_downTo {fewer : Nat} (less : fewer ≤ left) :
    (s.downTo left).downTo fewer = s.downTo fewer := by
  refine downTo_invariant (P := fun t => t.downTo fewer = s.downTo fewer) rfl
    fun u t same more stepped => ?_
  rw [← same, downTo_of_step stepped (Nat.lt_of_le_of_lt less more)]

theorem downTo_le (s : AnalysisState) (left : Nat) : (s.downTo left).remaining.length ≤ left := by
  by_cases few : s.remaining.length ≤ left
  · rw [downTo_of_le few]
    exact few
  · obtain ⟨t, stepped⟩ := exists_step (Nat.lt_of_not_le few)
    have fewer := step_remaining_lt stepped
    rw [downTo_of_step stepped (Nat.lt_of_not_le few)]
    exact downTo_le t left
termination_by s.remaining.length

theorem downTo_setting (s : AnalysisState) (left : Nat) : (s.downTo left).setting = s.setting :=
  downTo_invariant (P := fun t => t.setting = s.setting) rfl fun _ _ same _ stepped =>
    (step_setting stepped).trans same

theorem finish_setting (s : AnalysisState) (last : Option Token) :
    (s.finish last).setting = s.setting := by
  have flushed (u : AnalysisState) : u.flushDo.setting = u.setting := by
    unfold flushDo
    split <;> rfl
  obtain ⟨u, flushes, finish⟩ := s.finish_cases last
  have same : u.setting = s.setting := by
    rcases flushes with rfl | ⟨t, rfl⟩
    · exact flushed s
    · exact flushed _
  rcases finish with ended | ⟨t, ended⟩
  · rw [ended, same]
  · rw [ended]
    exact same

theorem steps_eq_downTo {bound : Nat} (enough : s.remaining.length ≤ bound) :
    steps bound s = s.downTo 0 := by
  induction bound generalizing s with
  | zero => rw [downTo_of_le enough, steps]
  | succ bound ih =>
      unfold steps
      cases stepped : s.step with
      | none =>
          rw [downTo_of_le]
          rw [step_eq_none_iff.mp stepped]
          exact Nat.le_refl 0
      | some t =>
          have fewer := step_remaining_lt stepped
          rw [downTo_of_step stepped (by omega)]
          exact ih (by omega)

end AnalysisState

end MiLanguage
