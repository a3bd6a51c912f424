import MiLanguage.Proofs.Expression.Surface
import MiLanguage.Proofs.Nesting.Step

set_option autoImplicit false

namespace MiLanguage

namespace AnalysisState

variable {s t : AnalysisState} {depth : Nat} {tokens : List Token} {log : DiagnosticLog}

theorem Lands.trans (first : s.Lands tokens log depth)
    (second : ∀ depth, Nested s.shape depth → t = s ∨ t.Lands s.remaining s.log depth)
    (stays : s.remaining = [] → t = s) : t.Lands tokens log depth := by
  cases first with
  | ranOff ranOff =>
      rw [stays ranOff.1]
      exact .ranOff ranOff
  | nested taken some whole nested grows =>
      rcases second _ nested with rfl | lands
      · exact .nested taken some whole nested grows
      cases lands with
      | ranOff ranOff =>
          obtain ⟨empty, front, brace, block, log, inside, found⟩ := ranOff
          refine .ranOff ⟨empty, taken ++ front, brace, block, log, ?_, found⟩
          rw [whole, inside]
          simp
      | nested taken' some' whole' nested' grows' =>
          refine .nested (taken ++ taken') (by simp [some]) (by rw [whole, whole']; simp) ?_ ?_
          · rw [braceDepth_append]
            exact nested'
          · intro closes
            refine (grows closes).trans (grows' ?_)
            rw [whole] at closes
            exact closesAll_append closes

theorem steps_of_empty (empty : s.remaining = []) (bound : Nat) : steps bound s = s := by
  cases bound with
  | zero => rfl
  | succ bound => simp [steps, step_eq_none_iff.mpr empty]

theorem steps_lands (bound : Nat) (nested : Nested s.shape depth) :
    steps bound s = s ∨ (steps bound s).Lands s.remaining s.log depth := by
  induction bound generalizing s depth with
  | zero => exact .inl rfl
  | succ bound ih =>
      unfold steps
      cases stepped : s.step with
      | none => exact .inl rfl
      | some t =>
          refine .inr ((step_lands stepped nested).trans (fun _ nested => ih nested) ?_)
          exact fun empty => steps_of_empty empty bound

-- Each step takes a token at least, so that as many steps as there are tokens take them all.
theorem steps_remaining {bound : Nat} (nested : Nested s.shape depth)
    (enough : s.remaining.length ≤ bound) : (steps bound s).remaining = [] := by
  induction bound generalizing s depth with
  | zero => exact List.eq_nil_of_length_eq_zero (Nat.le_zero.mp enough)
  | succ bound ih =>
      unfold steps
      cases stepped : s.step with
      | none => exact step_eq_none_iff.mp stepped
      | some t =>
          have lands := step_lands stepped nested
          have shorter := lands.remaining_lt
          cases lands with
          | nested _ _ _ nested => exact ih nested (by omega)
          | ranOff ranOff =>
              simp only
              rw [steps_of_empty ranOff.1]
              exact ranOff.1

-- A text that closes all of its braces closes all scopes.
theorem steps_closed {bound : Nat} (nested : Nested s.shape depth)
    (closes : closesAll depth s.remaining = true) (enough : s.remaining.length ≤ bound) :
    s.log.Grows (·.ofBrace = false) (steps bound s).log ∧ (steps bound s).shape = [] := by
  have ended := steps_remaining nested enough
  rcases steps_lands bound nested with same | lands
  · rw [same] at ended ⊢
    rw [ended] at closes
    have level : depth = 0 := by simpa [closesAll] using closes
    subst level
    exact ⟨.refl, nested.eq_nil⟩
  · cases lands with
    | ranOff ranOff =>
        rw [ranOff.not_closesAll] at closes
        cases closes
    | nested taken _ whole nested grows =>
        refine ⟨grows closes, ?_⟩
        rw [whole, ended] at closes
        have level : braceDepth depth taken = 0 := by
          simpa [closesAll] using closesAll_append closes
        rw [level] at nested
        exact nested.eq_nil

theorem finish_calm (closed : s.shape = []) (last : Option Token) :
    s.Calm (s.finish last) ∧ (s.finish last).shape = [] := by
  have ends : ∀ {u : AnalysisState}, s.Calm u → u.shape = s.shape →
      u.environment.scopes.opened = [] ∧ s.Calm u ∧ u.shape = [] := by
    intro u calm same
    rw [closed] at same
    exact ⟨List.map_eq_nil_iff.mp same, calm, same⟩
  obtain ⟨empty, flushed⟩ := ends s.calm_flushDo (shape_flushDo s)
  rcases Option.eq_none_or_eq_some s.pendingDo with idle | ⟨block, waiting⟩
  · unfold finish
    simp only [idle, empty]
    exact flushed
  · cases last with
    | none =>
        unfold finish
        simp only [waiting, empty]
        exact flushed
    | some t =>
        have said : s.Calm (s.report (SyntaxFault.doWithoutWhile true) t) := s.calm_report t rfl
        obtain ⟨empty, reported⟩ := ends (said.trans (calm_flushDo _)) (shape_flushDo _)
        unfold finish
        simp only [waiting, empty]
        exact reported

end AnalysisState

namespace ScopeStack

/-- There is one scope for each of `depth` braces, and one more for the head of each loop, directly
around the loop's own. -/
structure Mirrors (s : ScopeStack) (depth : Nat) : Prop where
  level : (s.opened.filter (·.frame.blockKind? ≠ some .loopHead)).length = depth
  heads : ∀ inner head outer, s.opened = inner ++ head :: outer →
    head.frame.blockKind? = some .loopHead →
    ∃ loop, inner.getLast? = some loop ∧ loop.frame.blockKind? = some .forLoop
  loops : ∀ inner loop outer, s.opened = inner ++ loop :: outer →
    loop.frame.blockKind? = some .forLoop → loop.discard = false →
    ∃ head, outer.head? = some head ∧ head.frame.blockKind? = some .loopHead

theorem mirrors_nil {s : ScopeStack} (empty : s.opened = []) : s.Mirrors 0 where
  level := by simp [empty]
  heads inner head outer whole := by simp [empty] at whole
  loops inner loop outer whole := by simp [empty] at whole

-- Anything but the scopes of a loop.
theorem Mirrors.push {s : ScopeStack} {depth : Nat} {scope : Scope} (mirrors : s.Mirrors depth)
    (head : scope.frame.blockKind? ≠ some .loopHead)
    (loop : (scope.frame.blockKind?, scope.discard) ≠ (some .forLoop, false)) :
    (s.push scope).Mirrors (depth + 1) where
  level := by
    rw [ScopeStack.push, List.filter_cons_of_pos (by simpa using head), List.length_cons,
      mirrors.level]
  heads inner found outer whole kind := by
    cases inner with
    | nil =>
        cases whole
        exact absurd kind head
    | cons first inner =>
        obtain ⟨top, last, same⟩ := mirrors.heads inner found outer (List.cons.inj whole).2 kind
        exact ⟨top, by rw [List.getLast?_cons, last]; rfl, same⟩
  loops inner found outer whole kind kept := by
    cases inner with
    | nil =>
        cases whole
        exact absurd (by rw [kind, kept]) loop
    | cons first inner => exact mirrors.loops inner found outer (List.cons.inj whole).2 kind kept

theorem Mirrors.pushLoop {s : ScopeStack} {depth : Nat} {head loop : Scope}
    (mirrors : s.Mirrors depth) (ofHead : head.frame.blockKind? = some .loopHead)
    (ofLoop : loop.frame.blockKind? = some .forLoop) :
    ((s.push head).push loop).Mirrors (depth + 1) where
  level := by
    simp only [ScopeStack.push]
    rw [List.filter_cons_of_pos (by simp [ofLoop]), List.filter_cons_of_neg (by simp [ofHead]),
      List.length_cons, mirrors.level]
  heads inner found outer whole kind := by
    cases inner with
    | nil =>
        cases whole
        rw [ofLoop] at kind
        cases kind
    | cons first inner =>
        obtain ⟨rfl, below⟩ := List.cons.inj whole
        cases inner with
        | nil => exact ⟨loop, rfl, ofLoop⟩
        | cons second inner =>
            have whole : s.opened = inner ++ found :: outer := (List.cons.inj below).2
            obtain ⟨top, last, same⟩ := mirrors.heads inner found outer whole kind
            exact ⟨top, by rw [List.getLast?_cons, List.getLast?_cons, last]; rfl, same⟩
  loops inner found outer whole kind kept := by
    cases inner with
    | nil =>
        cases whole
        exact ⟨head, rfl, ofHead⟩
    | cons first inner =>
        obtain ⟨rfl, below⟩ := List.cons.inj whole
        cases inner with
        | nil =>
            cases below
            rw [ofHead] at kind
            cases kind
        | cons second inner =>
            have whole : s.opened = inner ++ found :: outer := (List.cons.inj below).2
            exact mirrors.loops inner found outer whole kind kept

theorem mirrors_of_nested {s : ScopeStack} {depth : Nat} (nested : Nested s.shape depth) :
    s.Mirrors depth := by
  generalize same : s.shape = shape at nested
  induction nested generalizing s with
  | root => exact mirrors_nil (List.map_eq_nil_iff.mp same)
  | scope head loop _ ih =>
      obtain ⟨scope, rest, opened, kind, inside⟩ := List.map_eq_cons_iff.mp same
      obtain ⟨rfl, rfl⟩ := Prod.mk.inj kind
      have mirrors : ScopeStack.Mirrors { s with opened := rest } _ := ih inside
      have whole : s = ScopeStack.push { s with opened := rest } scope := by
        rw [ScopeStack.push, ← opened]
      rw [whole]
      exact mirrors.push head loop
  | loop _ ih =>
      obtain ⟨loop, rest, opened, kind, same⟩ := List.map_eq_cons_iff.mp same
      obtain ⟨head, rest, rfl, kind', same⟩ := List.map_eq_cons_iff.mp same
      have mirrors : ScopeStack.Mirrors { s with opened := rest } _ := ih same
      have whole : s = (ScopeStack.push { s with opened := rest } head).push loop := by
        rw [ScopeStack.push, ScopeStack.push, ← opened]
      rw [whole]
      exact mirrors.pushLoop (Prod.mk.inj kind').1 (Prod.mk.inj kind).1

end ScopeStack

namespace Analysis

/-- The open scopes mirror the open braces at every point of every pass, whatever errors there are,
until the search for the end of a block runs off the text. So a text that closes all of its braces
is never blamed for one, and leaves no scope open. -/
theorem scopes_mirror_braces (setting : Setting) (modules : ModuleTree) (log : DiagnosticLog)
    (tokens : List Token) :
    (∀ bound,
      let s := (startPass setting modules log tokens).steps bound
      s.RanOff tokens ∨ ∃ taken, tokens = taken ++ s.remaining ∧
        s.environment.scopes.Mirrors (braceDepth 0 taken)) ∧
    (closesAll 0 tokens = true →
      log.Grows (·.ofBrace = false) (runPass setting modules log tokens).log ∧
        (runPass setting modules log tokens).environment.scopes.depth = 1) := by
  have start : Nested (startPass setting modules log tokens).shape 0 := .root
  refine ⟨fun bound => ?_, fun closes => ?_⟩
  · rcases AnalysisState.steps_lands bound start with same | lands
    · refine .inr ⟨[], ?_⟩
      rw [same]
      exact ⟨rfl, ScopeStack.mirrors_nil rfl⟩
    · cases lands with
      | nested taken _ whole nested =>
          exact .inr ⟨taken, whole, ScopeStack.mirrors_of_nested nested⟩
      | ranOff ranOff => exact .inl ranOff
  · obtain ⟨grows, closed⟩ := AnalysisState.steps_closed start closes (Nat.le_refl _)
    obtain ⟨calm, closed⟩ := AnalysisState.finish_calm closed tokens.getLast?
    refine ⟨grows.trans calm.log, ?_⟩
    rw [Environment.length_shape]
    exact congrArg (List.length · + 1) closed

-- The text `if { do { x } }`, in which all is wrong but the braces.
def malformedProgram : List Token :=
  [Token.alone (.keyword .«if») "if", .alone .leftBrace "\x7b", .alone (.keyword .«do») "do",
    .alone .leftBrace "\x7b", .alone .identifier "x", .alone .rightBrace "\x7d",
    .alone .rightBrace "\x7d"]

theorem malformedProgram_mirrored :
    closesAll 0 malformedProgram = true ∧
      (runPass ⟨.bodies, {}⟩ .empty { maxErrors := 0 } malformedProgram).log.errorCount = 3 ∧
      DiagnosticLog.Grows (·.ofBrace = false) { maxErrors := 0 }
        (runPass ⟨.bodies, {}⟩ .empty { maxErrors := 0 } malformedProgram).log ∧
      (runPass ⟨.bodies, {}⟩ .empty { maxErrors := 0 } malformedProgram).environment.scopes.depth =
        1 := by
  have closes : closesAll 0 malformedProgram = true := by decide
  exact ⟨closes, by decide +kernel, (scopes_mirror_braces _ _ _ _).2 closes⟩

end Analysis

end MiLanguage
