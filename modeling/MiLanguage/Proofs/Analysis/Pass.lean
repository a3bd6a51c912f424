import MiLanguage.Proofs.Analysis.Clean
import Mathlib.Logic.Relation

set_option autoImplicit false

namespace MiLanguage

namespace AnalysisState

variable {s t : AnalysisState}

def CleanStep (s t : AnalysisState) : Prop := s.step = some t ∧ t.Clean

-- Some steps that report no error lead from `s` to `t`.
def Leads : AnalysisState → AnalysisState → Prop := Relation.ReflTransGen CleanStep

theorem CleanStep.moves (step : CleanStep s t) : s.Moves t := (step_moves step.1 step.2).2

theorem Takes.split {first : Token} {rest later : List Token} (takes : s.Takes first rest later) :
    s.remaining = first :: (rest ++ later) ∧
      ((first.kind.isTerminator = true ∧ rest = []) ∨
        (first.kind.isTerminator = false ∧ Chunk.Closed rest)) := by
  obtain ⟨head, tail, remaining, next⟩ := takes
  obtain ⟨rfl, rfl, shape⟩ := Chunk.next_statement next
  exact ⟨remaining, shape⟩

theorem Takes.unique {first first' : Token} {rest rest' later later' : List Token}
    (takes : s.Takes first rest later) (takes' : t.Takes first' rest' later')
    (same : t.remaining = s.remaining) : first' = first ∧ rest' = rest ∧ later' = later := by
  obtain ⟨head, tail, remaining, next⟩ := takes
  obtain ⟨head', tail', remaining', next'⟩ := takes'
  rw [remaining', remaining] at same
  cases same
  rw [next] at next'
  cases next'
  exact ⟨rfl, rfl, rfl⟩

-- A statement leaves the braces around it as they are, but for the one that it ends in.
theorem Takes.skipBlock {first : Token} {rest later : List Token} (takes : s.Takes first rest later)
    (notClosing : first.kind ≠ .rightBrace) (depth : Nat) :
    (Ends first rest .semicolon →
      Chunk.skipBlock depth s.remaining = Chunk.skipBlock depth later) ∧
    (Ends first rest .leftBrace →
      Chunk.skipBlock depth s.remaining = Chunk.skipBlock (depth + 1) later) := by
  have plain : ∀ {t : Token}, t.kind = .semicolon → ∀ rest,
      Chunk.skipBlock depth (t :: rest) = Chunk.skipBlock depth rest := by
    intro t kind rest
    exact Chunk.skipBlock_plain (by rw [kind]; simp) (by rw [kind]; simp) depth rest
  obtain ⟨remaining, ⟨_, rfl⟩ | ⟨inner, front, last, rfl, _, frontOpen⟩⟩ := takes.split
  · rw [remaining]
    exact ⟨fun ends => plain ends later, fun ends => Chunk.skipBlock_leftBrace ends depth later⟩
  · have whole : s.remaining = (first :: front) ++ last :: later := by simp [remaining]
    have skipped : Chunk.skipBlock depth s.remaining = Chunk.skipBlock depth (last :: later) := by
      rw [whole]
      refine Chunk.skipBlock_append ?_ depth _
      intro t member
      rcases List.mem_cons.mp member with rfl | member
      · exact inner
      · exact frontOpen t member
    have ends : ∀ {kind}, Ends first (front ++ [last]) kind → last.kind = kind := by
      intro kind ends
      simpa [Ends] using ends
    rw [skipped]
    exact ⟨fun semicolon => plain (ends semicolon) later,
      fun brace => Chunk.skipBlock_leftBrace (ends brace) depth later⟩

-- Every step takes a token at least.
theorem Moves.remaining_lt (moves : s.Moves t) : t.remaining.length < s.remaining.length := by
  cases moves with
  | completes _ _ takes => simp only [takes.split.1, List.length_cons, List.length_append]; omega
  | closes _ _ remaining => simp [remaining]
  | accepts _ _ takes => simp only [takes.split.1, List.length_cons, List.length_append]; omega
  | skips _ _ takes _ _ _ _ _ _ skip =>
      have shorter := (Chunk.skipBlock_suffix skip).length_le
      simp only [takes.split.1, List.length_cons, List.length_append]
      omega

theorem Moves.setting (moves : s.Moves t) : t.setting = s.setting := by
  cases moves <;> rfl

theorem Moves.declaring (moves : s.Moves t) : t.declaring = s.declaring := by
  unfold AnalysisState.declaring
  rw [moves.setting]

theorem Leads.declaring (leads : s.Leads t) : t.declaring = s.declaring := by
  induction leads with
  | refl => rfl
  | tail _ step ih => exact step.moves.declaring.trans ih

theorem rightUnique_cleanStep : Relator.RightUnique CleanStep := by
  intro s t u first second
  exact Option.some.inj (first.1.symm.trans second.1)

theorem Leads.remaining_le (leads : s.Leads t) : t.remaining.length ≤ s.remaining.length := by
  induction leads with
  | refl => exact Nat.le_refl _
  | tail _ step ih => exact Nat.le_trans (Nat.le_of_lt step.moves.remaining_lt) ih

theorem Leads.eq_or_head {u : AnalysisState} (leads : s.Leads u) (step : CleanStep s t) :
    s = u ∨ t.Leads u := by
  rcases Relation.ReflTransGen.cases_head leads with same | ⟨t', step', leads⟩
  · exact .inl same
  · rw [rightUnique_cleanStep step step']
    exact .inr leads

theorem Leads.head_of_remaining (leads : s.Leads t) (fewer : t.remaining ≠ s.remaining) :
    ∃ u, CleanStep s u ∧ u.Leads t := by
  rcases Relation.ReflTransGen.cases_head leads with same | ⟨u, step, leads⟩
  · exact absurd (congrArg AnalysisState.remaining same).symm fewer
  · exact ⟨u, step, leads⟩

-- A pass comes by each place once.
theorem Leads.unique {start : AnalysisState} (first : start.Leads s) (second : start.Leads t)
    (same : t.remaining = s.remaining) : t = s := by
  have stays : ∀ {a b : AnalysisState}, a.Leads b → b.remaining = a.remaining → a = b := by
    intro a b leads same
    rcases Relation.ReflTransGen.cases_head leads with same' | ⟨u, step, leads⟩
    · exact same'
    · have fewer := step.moves.remaining_lt
      have least := Leads.remaining_le leads
      rw [same] at least
      omega
  rcases Relation.ReflTransGen.total_of_right_unique rightUnique_cleanStep first second with
    leads | leads
  · exact (stays leads same).symm
  · exact stays leads same.symm

-- A pass comes to its end from wherever it has come to.
theorem Leads.to_end {start last : AnalysisState} (leads : start.Leads s)
    (ended : start.Leads last) (empty : last.remaining = []) : s.Leads last := by
  rcases Relation.ReflTransGen.total_of_right_unique rightUnique_cleanStep leads ended with
    toward | beyond
  · exact toward
  · rcases Relation.ReflTransGen.cases_head beyond with rfl | ⟨u, step, _⟩
    · exact .refl
    · have fewer := step.moves.remaining_lt
      rw [empty] at fewer
      cases fewer

theorem step_eq_none_iff : s.step = none ↔ s.remaining = [] := by
  unfold step
  split
  next empty => simp [empty]
  next first rest remaining =>
    simp only [remaining, List.cons_ne_nil, iff_false]
    generalize Chunk.next first rest = found
    obtain ⟨chunk, later⟩ := found
    cases chunk <;> simp

theorem clean_of_steps {bound : Nat} (clean : (steps bound s).Clean) : s.Clean := by
  induction bound generalizing s with
  | zero => exact clean
  | succ bound ih =>
      unfold steps at clean
      split at clean
      next => exact clean
      next t stepped => exact (step_moves stepped (ih clean)).1

theorem steps_leads {bound : Nat} (clean : (steps bound s).Clean)
    (enough : s.remaining.length ≤ bound) :
    s.Leads (steps bound s) ∧ (steps bound s).remaining = [] := by
  induction bound generalizing s with
  | zero => exact ⟨.refl, List.eq_nil_of_length_eq_zero (Nat.le_zero.mp enough)⟩
  | succ bound ih =>
      unfold steps at clean ⊢
      cases stepped : s.step with
      | none => exact ⟨.refl, step_eq_none_iff.mp stepped⟩
      | some t =>
          simp only [stepped] at clean ⊢
          have step : CleanStep s t := ⟨stepped, clean_of_steps clean⟩
          have shorter := step.moves.remaining_lt
          obtain ⟨leads, empty⟩ := ih clean (by omega)
          exact ⟨.head step leads, empty⟩

theorem Leads.steps_eq {last : AnalysisState} (leads : s.Leads last) (ended : last.remaining = [])
    {bound : Nat} (enough : s.remaining.length ≤ bound) : AnalysisState.steps bound s = last := by
  induction leads using Relation.ReflTransGen.head_induction_on generalizing bound with
  | refl =>
      cases bound with
      | zero => rfl
      | succ bound => simp only [AnalysisState.steps, step_eq_none_iff.mpr ended]
  | @head s t step leads ih =>
      have shorter := step.moves.remaining_lt
      cases bound with
      | zero => omega
      | succ bound =>
          simp only [AnalysisState.steps, step.1]
          exact ih (by omega)

-- A clean end of a pass finds nothing open.
theorem finish_clean {last : Token} (clean : (s.finish (some last)).Clean) :
    s.Clean ∧ s.environment.scopes.opened = [] ∧ s.pendingDo = none := by
  rcases Option.eq_none_or_eq_some s.pendingDo with idle | ⟨block, waiting⟩
  · have flushed : s.flushDo = s := by simp [flushDo, idle]
    unfold finish at clean
    simp only [idle, flushed] at clean
    split at clean
    next => exact absurd clean (not_clean_report _ _ _)
    next unpopped =>
      refine ⟨clean, ?_, idle⟩
      cases opened : s.environment.scopes.opened with
      | nil => rfl
      | cons scope rest => exact absurd rfl (unpopped scope rest last opened)
  · have dirty : ¬(s.report (SyntaxFault.doWithoutWhile true) last).flushDo.Clean :=
      fun clean => not_clean_report _ _ _ (clean_flushDo clean)
    unfold finish at clean
    simp only [waiting] at clean
    split at clean
    next => exact absurd clean (not_clean_report _ _ _)
    next => exact absurd clean dirty

theorem finish_eq {last : Option Token} (closed : s.environment.scopes.opened = [])
    (idle : s.pendingDo = none) : s.finish last = s := by
  have flushed : s.flushDo = s := by simp [flushDo, idle]
  unfold finish
  simp only [idle, flushed, closed]

end AnalysisState

namespace Analysis

theorem runPass_leads {setting : Setting} {modules : ModuleTree} {log : DiagnosticLog}
    {tokens : List Token} (clean : (runPass setting modules log tokens).Clean) :
    (startPass setting modules log tokens).Leads (runPass setting modules log tokens) ∧
      (runPass setting modules log tokens).remaining = [] ∧
      (runPass setting modules log tokens).environment.scopes.opened = [] ∧
      (runPass setting modules log tokens).pendingDo = none := by
  unfold runPass at clean ⊢
  cases tokens with
  | nil => exact ⟨.refl, rfl, rfl, rfl⟩
  | cons first rest =>
      obtain ⟨last, ends⟩ : ∃ last, (first :: rest).getLast? = some last :=
        ⟨_, List.getLast?_eq_some_getLast (by simp)⟩
      rw [ends] at clean ⊢
      generalize start : startPass setting modules log (first :: rest) = s at clean ⊢
      have enough : s.remaining.length ≤ (first :: rest).length := by simp [← start, startPass]
      obtain ⟨stepsClean, closed, idle⟩ := AnalysisState.finish_clean clean
      obtain ⟨leads, empty⟩ := AnalysisState.steps_leads stepsClean enough
      rw [AnalysisState.finish_eq closed idle]
      exact ⟨leads, empty, closed, idle⟩

theorem runPass_of_leads {setting : Setting} {modules : ModuleTree} {log : DiagnosticLog}
    {tokens : List Token} {last : AnalysisState}
    (leads : (startPass setting modules log tokens).Leads last) (ended : last.remaining = [])
    (closed : last.environment.scopes.opened = []) (idle : last.pendingDo = none) :
    runPass setting modules log tokens = last := by
  have enough : (startPass setting modules log tokens).remaining.length ≤ tokens.length := Nat.le_refl _
  rw [runPass, leads.steps_eq ended enough, AnalysisState.finish_eq closed idle]

theorem isOk_iff {host : Host} {maxErrors : Nat} {tokens : List Token} :
    (ofTokens host maxErrors tokens).isOk = true ↔
      (runPass ⟨.declarations, host⟩ .empty { maxErrors } tokens).Clean ∧
        (runPass ⟨.bodies, host⟩
          (runPass ⟨.declarations, host⟩ .empty { maxErrors } tokens).environment.modules
          (runPass ⟨.declarations, host⟩ .empty { maxErrors } tokens).log tokens).Clean := by
  simp only [ofTokens, isOk, AnalysisState.Clean]
  split
  next failed => simp [failed]
  next clean => simp [clean]

end Analysis

end MiLanguage
