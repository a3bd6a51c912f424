import MiLanguage.Proofs.Analysis.Turns
import MiLanguage.Proofs.Statement.InPlace

set_option autoImplicit false

namespace MiLanguage

-- Where an enum stops taking members, and what it has taken until then.
theorem Environment.addMembers_stops {e extended : EnumDeclaration} {names : List Token}
    {repeated : Token} (added : addMembers e names = (extended, some repeated))
    (apart : e.members.Nodup) :
    ∃ before later, names = before ++ repeated :: later ∧
      extended = { e with members := e.members ++ before.map Token.lexeme } ∧
      (e.members ++ before.map Token.lexeme).Nodup ∧
      repeated.lexeme ∈ e.members ++ before.map Token.lexeme := by
  induction names generalizing e with
  | nil => cases added
  | cons name names ih =>
      unfold addMembers EnumDeclaration.addMember? at added
      split at added
      next found =>
        split at found
        next => cases found
        next fresh =>
          cases found
          have fresh : name.lexeme ∉ e.members := by
            simpa [EnumDeclaration.hasMember] using fresh
          have apart : (e.members ++ [name.lexeme]).Nodup := by
            rw [List.nodup_append]
            refine ⟨apart, by simp, fun member held other alone same => fresh ?_⟩
            rw [List.mem_singleton] at alone
            rwa [← alone, ← same]
          obtain ⟨before, later, rfl, rfl, nodup, repeats⟩ := ih added apart
          rw [List.append_assoc] at nodup repeats
          exact ⟨name :: before, later, rfl, by simp, nodup, repeats⟩
      next found =>
        cases added
        split at found
        next member =>
          exact ⟨[], names, rfl, by simp, by simpa using apart,
            by simpa [EnumDeclaration.hasMember] using member⟩
        next => cases found

namespace Environment

variable {env : Environment} {setting : Setting} {first : Token} {rest : List Token}
  {report : Report}

-- The members, so far, of the enum that is open.
def openMembers (env : Environment) : List String :=
  match env.frame with
  | .enum _ e => e.members
  | _ => []

/-- What remains after a rejected statement: everything as it was, except that an enum which the first pass
is giving its members keeps those in front of a repeated one. -/
inductive Remains (env : Environment) (setting : Setting) (first : Token) (rest : List Token)
    (report : Report) : Environment → Prop
  | same : Remains env setting first rest report env
  | members {mods : LeadingModifiers} {head repeated : Token} {tail before later : List Token}
      {id : ModuleId} {e : EnumDeclaration} :
      setting.declaring = true → env.frame = .enum id e → e.members = [] →
      LeadingModifiers.read (first :: rest) = .ok (mods, head :: tail) →
      readMembers mods head tail = .ok (before ++ repeated :: later) →
      (before.map Token.lexeme).Nodup → repeated.lexeme ∈ before.map Token.lexeme →
      report = ⟨SyntaxFault.memberAgain repeated.lexeme, repeated⟩ →
      Remains env setting first rest report { env with
        scopes := env.scopes.modifyCurrent ({ · with
          frame := .enum id { e with members := before.map Token.lexeme } }) }

theorem Remains.depth {left : Environment} (remains : env.Remains setting first rest report left) :
    left.scopes.depth = env.scopes.depth := by
  cases remains with
  | same => rfl
  | members => exact ScopeStack.depth_modifyCurrent _ _

theorem declareMembers_remains {mods : LeadingModifiers} {head : Token} {tail : List Token}
    {id : ModuleId} {e : EnumDeclaration} {left : Environment}
    (modifiers : LeadingModifiers.read (first :: rest) = .ok (mods, head :: tail))
    (frame : env.frame = .enum id e)
    (read : env.declareMembers setting id e mods head tail = (left, .error report)) :
    env.Remains setting first rest report left := by
  unfold declareMembers at read
  split at read
  next => cases read; exact .same
  next names members =>
    dsimp only at read
    split at read
    next declaring =>
      split at read
      next empty =>
        have empty : e.members = [] := by simpa using empty
        generalize added : addMembers e names = found at read
        obtain ⟨extended, repeated⟩ := found
        cases repeated with
        | some repeated =>
            cases read
            obtain ⟨before, later, rfl, rfl, nodup, repeats⟩ :=
              addMembers_stops added (by simp [empty])
            rw [empty, List.nil_append] at nodup repeats
            rw [empty, List.nil_append]
            exact .members declaring frame empty modifiers members nodup repeats rfl
        | none => cases read
      next => cases read; exact .same
    next => cases read

theorem statement_remains {left : Environment}
    (read : env.statement setting first rest = ⟨left, .error report⟩) :
    env.Remains setting first rest report left := by
  unfold statement at read
  split at read
  next => cases read; exact .same
  next => cases read; exact .same
  next mods head tail modifiers =>
    unfold dispatch at read
    split at read
    next id e _ frame =>
      generalize members : env.declareMembers setting id e mods head tail = outcome at read
      obtain ⟨left, result⟩ := outcome
      cases read
      exact declareMembers_remains modifiers frame members
    next =>
      cases found : env.read setting mods head tail with
      | ok => simp [found, Outcome.ofChecked] at read
      | error =>
          simp only [found, Outcome.ofChecked] at read
          cases read
          exact .same

end Environment

namespace AnalysisState

/-- What comes after a rejected statement that ends in a brace: its block is skipped, or it gets a
scope that is dropped with all that it takes. -/
inductive Recovers (s : AnalysisState) (first : Token) (rest : List Token) : AnalysisState → Prop
  | goesOn : (rest.getLast?.getD first).kind ≠ .leftBrace → Recovers s first rest s
  | discards {scope : Scope} :
      (rest.getLast?.getD first).kind = .leftBrace → scope.discard = true →
      scope.frame = recoveryFrame s.environment (leading first rest) → scope.node.children = [] →
      Recovers s first rest { s with environment := s.environment.inside scope }
  | skips {later : List Token} :
      (rest.getLast?.getD first).kind = .leftBrace →
      Chunk.skipBlock 0 s.remaining = some later →
      Recovers s first rest { s with remaining := later }
  | endless {brace : Token} :
      (rest.getLast?.getD first).kind = .leftBrace → rest.getLast?.getD first = brace →
      Chunk.skipBlock 0 s.remaining = none →
      Recovers s first rest ({ s with remaining := [] }.report
        (SyntaxFault.expected .rightBrace "to close this block") brace)

theorem recover_recovers (s : AnalysisState) {first : Token} {rest : List Token}
    (ends : (rest.getLast?.getD first).kind = .leftBrace) :
    s.Recovers first rest (s.recover (leading first rest) (rest.getLast?.getD first)) := by
  unfold recover
  split
  next =>
    unfold skipBlock
    split
    next found => exact .skips ends found
    next endless => exact .endless ends rfl endless
  next => exact .discards ends rfl rfl rfl

/-- A rejected statement takes back what it has done so far, but for the members that an enum has
taken, and leaves no declaration behind. -/
theorem readStatement_rejected (s : AnalysisState) (first : Token) (rest : List Token)
    (report : Report)
    (rejected : ((s.checkReachable first).environment.statement s.setting first rest).result =
      .error report) :
    ∃ left, s.environment.Warned (s.checkReachable first).environment ∧
      (InPlace.statement s.setting first rest).on (s.checkReachable first).environment =
        (.error report, left) ∧
      (s.checkReachable first).environment.Remains s.setting first rest report left ∧
      ({ s.checkReachable first with environment := left }.reportTo report).Recovers first rest
        (s.readStatement first rest) := by
  obtain ⟨warned, log, checked, _, warns⟩ := s.checkReachable_warned first
  rw [checked] at rejected ⊢
  generalize read : warned.statement s.setting first rest = outcome at rejected
  obtain ⟨left, result⟩ := outcome
  cases rejected
  have remains := Environment.statement_remains read
  refine ⟨left, warns, ?_, remains, ?_⟩
  · rw [InPlace.statement_on, read]
  · simp only [readStatement, checked, read]
    split
    next brace =>
      simp only [Bool.and_eq_true, decide_eq_true_eq] at brace
      exact recover_recovers _ (by simpa [Token.is] using brace.1)
    next brace =>
      refine .goesOn fun ends => brace ?_
      simp [Token.is, ends, reportTo, AnalysisState.report, remains.depth]

-- The enum of the second statement has `A` and `B` when it is given `A` again.
theorem readStatement_rejected_members :
    let tokens := (programTokens "module m { enum E { A, B, A; } }" false).toOption.getD []
    let s := (Analysis.startPass ⟨.declarations, {}⟩ .empty { maxErrors := 0 } tokens).steps 2
    ∃ first rest report left, s.remaining = first :: rest ∧
      ((s.checkReachable first).environment.statement s.setting first (rest.take 5)).result =
        .error report ∧
      (InPlace.statement s.setting first (rest.take 5)).on (s.checkReachable first).environment =
        (.error report, left) ∧
      (s.checkReachable first).environment.Remains s.setting first (rest.take 5) report left := by
  intro tokens s
  have fails : (s.remaining.head?.map fun first =>
      ((s.checkReachable first).environment.statement s.setting first
        (s.remaining.tail.take 5)).result.isOk) = some false := by decide +kernel
  cases remaining : s.remaining with
  | nil => simp [remaining] at fails
  | cons first rest =>
      simp only [remaining, List.head?_cons, List.tail_cons, Option.map_some, Option.some.injEq]
        at fails
      cases rejected : ((s.checkReachable first).environment.statement s.setting first
          (rest.take 5)).result with
      | ok => simp [rejected, Except.isOk, Except.toBool] at fails
      | error report =>
          obtain ⟨left, _, stops, remains, _⟩ :=
            readStatement_rejected s first (rest.take 5) report rejected
          exact ⟨first, rest, report, left, rfl, rejected, stops, remains⟩

/-- The enum that is open here has a member though the statement that gave it is rejected. -/
theorem repeatedMember_kept :
    let tokens := (programTokens "module m { enum E { A, A; } }" false).toOption.getD []
    let s := (Analysis.startPass ⟨.declarations, {}⟩ .empty { maxErrors := 0 } tokens).steps 2
    (s.remaining.head?.map fun first =>
        (s.environment.statement s.setting first (s.remaining.tail.take 3)).result.isOk) =
      some false ∧
    s.environment.openMembers = [] ∧
    (s.remaining.head?.map fun first =>
        (s.environment.statement s.setting first (s.remaining.tail.take 3)).environment.openMembers) =
      some ["A"] := by
  decide +kernel

end AnalysisState

end MiLanguage
