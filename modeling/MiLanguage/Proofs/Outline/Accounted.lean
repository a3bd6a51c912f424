import MiLanguage.Proofs.Expression.Surface
import MiLanguage.Proofs.Nesting.Step
import MiLanguage.Proofs.Outline.Blocks
import MiLanguage.Proofs.Outline.Run

set_option autoImplicit false

namespace MiLanguage

namespace AnalysisState

variable {s t last : AnalysisState} {first : Token} {rest later : List Token} {depth : Nat}

theorem Takes.closesAll (takes : s.Takes first rest later) (notClosing : first.kind ≠ .rightBrace) :
    closesAll depth s.remaining = closesAll (braceDepth depth (first :: rest)) later := by
  obtain ⟨remaining, ⟨terminator, rfl⟩ | ⟨plain, front, final, rfl, kind, inner⟩⟩ := takes.split
  · rw [remaining, List.nil_append]
    by_cases left : first.kind = .leftBrace
    · rw [closesAll_leftBrace left, braceDepth_leftBrace left]
      rfl
    · rw [closesAll_plain left notClosing, braceDepth_plain left notClosing]
      rfl
  · have plainFront : Outline.Plain (first :: front) := Outline.Plain.cons plain inner
    have whole : s.remaining = (first :: front) ++ final :: later := by simp [remaining]
    have same : first :: (front ++ [final]) = (first :: front) ++ [final] := rfl
    rw [whole, closesAll_open plainFront, same, braceDepth_append, braceDepth_open plainFront]
    rcases kind with kind | kind
    · have left : final.kind ≠ .leftBrace := by simp [kind]
      have right : final.kind ≠ .rightBrace := by simp [kind]
      rw [closesAll_plain left right, braceDepth_plain left right]
      rfl
    · rw [closesAll_leftBrace kind, braceDepth_leftBrace kind]
      rfl

theorem Takes.braceDepth (takes : s.Takes first rest later) (ends : Ends first rest .leftBrace)
    (depth : Nat) :
    braceDepth depth (first :: rest) = depth + 1 := by
  obtain ⟨_, ⟨_, rfl⟩ | ⟨plain, front, final, rfl, _, inner⟩⟩ := takes.split
  · have kind : first.kind = .leftBrace := ends
    rw [braceDepth_leftBrace kind]
    rfl
  · have kind : final.kind = .leftBrace := by simpa [Ends] using ends
    rw [← List.cons_append, braceDepth_append, braceDepth_open (Outline.Plain.cons plain inner),
      braceDepth_leftBrace kind]
    rfl

-- What a step takes off a text neither closes a brace too many nor leaves one out.
theorem CleanStep.closesAll (step : CleanStep s t) (nested : Nested s.shape depth) :
    ∃ after, Nested t.shape after ∧ closesAll depth s.remaining = closesAll after t.remaining := by
  cases step_lands step.1 nested with
  | ranOff ranOff =>
      obtain ⟨_, _, _, _, log, _, _, _, same⟩ := ranOff
      have clean := step.2
      rw [Clean, same] at clean
      simp at clean
  | nested taken _ whole inside =>
      refine ⟨_, inside, ?_⟩
      cases step.moves with
      | completes _ _ takes keyword =>
          rw [takes.closesAll (by simp [keyword])]
          rw [takes.split.1, ← List.cons_append] at whole
          rw [List.append_cancel_right whole]
      | closes _ _ remaining kind popped =>
          have opened : depth ≠ 0 := by
            rintro rfl
            have closed := nested.eq_nil
            rw [shape, Environment.shape, ScopeStack.shape_pop? popped] at closed
            cases closed
          obtain ⟨outer, rfl⟩ := Nat.exists_eq_succ_of_ne_zero opened
          rw [remaining] at whole ⊢
          rw [closesAll_rightBrace kind]
          have same : [_] = taken := List.append_cancel_right (show [_] ++ _ = taken ++ _ from whole)
          rw [← same, braceDepth_rightBrace kind]
          rfl
      | accepts _ _ takes notClosing =>
          rw [takes.closesAll notClosing]
          rw [takes.split.1, ← List.cons_append] at whole
          rw [List.append_cancel_right whole]
      | skips _ _ takes notClosing _ modifiers _ ends _ skip =>
          have deeper := takes.braceDepth (ends_of_read ends modifiers) depth
          obtain ⟨block, later, closed⟩ := Chunk.skipBlock_braceDepth depth skip
          rw [takes.closesAll notClosing, deeper, closesAll_skipBlock skip]
          rw [takes.split.1, later, ← List.cons_append, ← List.append_assoc] at whole
          rw [← List.append_cancel_right whole, braceDepth_append, deeper, closed]

theorem Leads.closesAll (leads : s.Leads last) (nested : Nested s.shape depth)
    (ended : last.remaining = []) (closed : last.shape = []) :
    closesAll depth s.remaining = true := by
  induction leads using Relation.ReflTransGen.head_induction_on generalizing depth with
  | refl =>
      rw [closed] at nested
      cases nested
      rw [ended]
      rfl
  | head step _ ih =>
      obtain ⟨after, inside, same⟩ := step.closesAll nested
      rw [same]
      exact ih inside

end AnalysisState

namespace Analysis

variable {setting : Setting} {modules : ModuleTree} {log : DiagnosticLog} {tokens : List Token}

theorem runPass_reads (clean : (runPass setting modules log tokens).Clean) :
    ∃ o alarms, Outline.ofTokens? tokens = some o ∧ o.Formed ∧
      (runPass setting modules log tokens).log =
        log.reportAll (AnalysisState.warnings alarms) ∧
      Environment.Reads setting none (startPass setting modules log tokens).environment o
        (runPass setting modules log tokens).environment alarms := by
  obtain ⟨leads, ended, closed, idle⟩ := runPass_leads clean
  have nested : Nested (startPass setting modules log tokens).shape 0 := .root
  have shut : (runPass setting modules log tokens).shape = [] := List.map_eq_nil_iff.mpr closed
  obtain ⟨o, found⟩ := Outline.ofTokens?_of_closesAll (leads.closesAll nested ended shut)
  have found : Outline.ofTokens? tokens = some o := found
  obtain ⟨whole, formed⟩ := Outline.ofTokens?_formed found
  have remaining : (startPass setting modules log tokens).remaining = o.tokens ++ [] := by
    rw [List.append_nil, ← whole]
    rfl
  obtain ⟨t, toT, _, left, _, alarms, logged, reads⟩ :=
    leads.reads idle ended formed remaining (.inl rfl)
  rw [← leads.unique toT (left.trans ended.symm)]
  exact ⟨o, alarms, found, formed, logged, reads⟩

end Analysis

namespace ModuleTree

variable {old new : ModuleTree}

theorem at?_empty (path : List String) : (empty.at? path).isSome = true ↔ path = [] := by
  cases path with
  | nil => simp [ModuleTree.at?]
  | cons name path =>
      have childless : empty.child? root name = none := rfl
      simp [ModuleTree.at?, childless]

theorem entriesAt_empty (path : List String) : empty.entriesAt path = [] := by
  unfold entriesAt
  split
  next id _ =>
    rw [(get_empty id).1]
    rfl
  next => rfl

/-- The modules are those that a text opens, and what is in them is what it declares. -/
structure DeclaredBy (t : ModuleTree) (o : Outline) : Prop where
  entries : ∀ path entry, (t.entriesAt path).count entry = (o.declared []).count (path, entry)
  distinct : t.paths.Nodup
  paths : ∀ path, path ∈ t.paths ↔ path = [] ∨ path ∈ o.modulePaths []

theorem Gains.declaredBy {o : Outline}
    (gains : empty.Gains new (o.declared []) (o.modulePaths [])) : new.DeclaredBy o where
  entries path entry := by simp [gains.entries, entriesAt_empty]
  distinct := new.nodup_paths gains.arena
  paths path := by rw [mem_paths gains.arena, gains.paths, at?_empty]

theorem Keeps.declaredBy {o : Outline} (keeps : old.Keeps new) (arena : old.Arena)
    (declared : old.DeclaredBy o) : new.DeclaredBy o where
  entries path entry := by rw [keeps.entries, declared.entries]
  distinct := new.nodup_paths (keeps.arena arena)
  paths path := by
    rw [mem_paths (keeps.arena arena), keeps.found, ← mem_paths arena, declared.paths]

end ModuleTree

namespace Analysis

variable {setting : Setting} {modules : ModuleTree} {log : DiagnosticLog} {tokens : List Token}
  {o : Outline}

theorem startPass_inModule (arena : modules.Arena) :
    (startPass setting modules log tokens).environment.InModule [] where
  isModule := rfl
  arena := arena
  place := rfl

theorem runPass_declares (pass : setting.declaring = true)
    (clean : (runPass setting .empty log tokens).Clean) (outline : Outline.ofTokens? tokens = some o) :
    o.Complete ∧ ModuleTree.empty.Gains (runPass setting .empty log tokens).environment.modules
      (o.declared []) (o.modulePaths []) := by
  obtain ⟨_, _, same, _, _, reads⟩ := runPass_reads clean
  rw [outline] at same
  cases same
  obtain ⟨complete, _, gains⟩ :=
    reads.ofModule pass rfl (startPass_inModule ModuleTree.arena_empty)
  exact ⟨complete, gains⟩

theorem startPass_ready (complete : o.Complete) (arena : modules.Arena)
    (declared : modules.DeclaredBy o) :
    (startPass setting modules log tokens).environment.Ready o := by
  refine .module (startPass_inModule arena) complete ?_
  intro path entry member
  rw [← List.count_pos_iff] at member ⊢
  exact (declared.entries path entry).symm ▸ member

-- The second pass enters every block and makes of a text the nodes that its outline shows. All that
-- it logs is warnings.
theorem runPass_shown (pass : setting.declaring = false)
    (clean : (runPass setting modules log tokens).Clean) (outline : Outline.ofTokens? tokens = some o)
    (complete : o.Complete) (arena : modules.Arena) (declared : modules.DeclaredBy o) :
    ∃ ns alarms, (runPass setting modules log tokens).root = emptyRoot.withChildren ns ∧
      Outline.Shown false o ns ∧
      modules.Keeps (runPass setting modules log tokens).environment.modules ∧
      (runPass setting modules log tokens).log = log.reportAll (AnalysisState.warnings alarms) ∧
      Environment.Enters setting none (startPass setting modules log tokens).environment o
        (runPass setting modules log tokens).environment alarms := by
  obtain ⟨_, alarms, same, _, logged, reads⟩ := runPass_reads clean
  rw [outline] at same
  cases same
  obtain ⟨ns, kept, ⟨shown⟩, enters⟩ := reads.shown pass (startPass_ready complete arena declared)
  obtain ⟨leads, _, closed, _⟩ := runPass_leads clean
  have bodies := leads.declaring
  have base := kept.scopes
  refine ⟨ns, alarms, ?_, shown, kept.modules, logged, enters⟩
  generalize runPass setting modules log tokens = last at closed bodies base
  have root : last.root = last.environment.scopes.base.node := by
    have bodies : last.declaring = false := bodies.trans pass
    simp [AnalysisState.root, bodies, closed, AnalysisState.closeAll]
  have all : last.environment.scopes.all = [last.environment.scopes.base] := by
    simp [ScopeStack.all, closed]
  rw [all] at base
  cases base with
  | cons scope => exact root.trans scope.node

theorem runPass_builds (pass : setting.declaring = false)
    (clean : (runPass setting modules log tokens).Clean) (outline : Outline.ofTokens? tokens = some o)
    (complete : o.Complete) (arena : modules.Arena) (declared : modules.DeclaredBy o) :
    Outline.Shown false o (runPass setting modules log tokens).root.children ∧
      modules.Keeps (runPass setting modules log tokens).environment.modules := by
  obtain ⟨ns, _, root, shown, keeps, _⟩ :=
    runPass_shown pass clean outline complete arena declared
  rw [root]
  exact ⟨shown, keeps⟩

/-- The tree of an accepted text shows each of its statements and blocks, once and in place, and the
modules have what it declares. -/
theorem outline_accounted {host : Host} {maxErrors : Nat}
    (accepted : (ofTokens host maxErrors tokens).isOk = true) :
    ∃ o, Outline.ofTokens? tokens = some o ∧
      Outline.Shown false o (ofTokens host maxErrors tokens).root.children ∧
      (ofTokens host maxErrors tokens).modules.DeclaredBy o := by
  obtain ⟨firstClean, secondClean⟩ := isOk_iff.mp accepted
  obtain ⟨o, _, outline, _⟩ := runPass_reads firstClean
  obtain ⟨complete, gains⟩ := runPass_declares rfl firstClean outline
  obtain ⟨shown, keeps⟩ :=
    runPass_builds rfl secondClean outline complete gains.arena gains.declaredBy
  have failed : (runPass ⟨.declarations, host⟩ .empty { maxErrors } tokens).log.failed = false :=
    firstClean
  refine ⟨o, outline, ?_⟩
  simp only [ofTokens, failed, Bool.false_eq_true, if_false]
  exact ⟨shown, keeps.declaredBy gains.arena gains.declaredBy⟩

-- The program `module m { enum E { A; } class C { int x = 1; new () { } } fn f { do { } while
-- (true); for (int i = 0, i -> 3) { } } }`.
def outlinedProgram : List Token :=
  [Token.alone (.keyword .module) "module", .alone .identifier "m", .alone .leftBrace "\x7b",
    .alone (.keyword .enum) "enum", .alone .identifier "E", .alone .leftBrace "\x7b",
    .alone .identifier "A", .alone .semicolon ";", .alone .rightBrace "\x7d",
    .alone (.keyword .«class») "class", .alone .identifier "C", .alone .leftBrace "\x7b",
    .alone (.datatype .int) "int", .alone .identifier "x", .alone .assign "=",
    .alone (.literal .int) "1", .alone .semicolon ";", .alone (.keyword .new) "new",
    .alone .leftParen "(", .alone .rightParen ")", .alone .leftBrace "\x7b",
    .alone .rightBrace "\x7d", .alone .rightBrace "\x7d", .alone (.keyword .fn) "fn",
    .alone .identifier "f", .alone .leftBrace "\x7b", .alone (.keyword .«do») "do",
    .alone .leftBrace "\x7b", .alone .rightBrace "\x7d", .alone (.keyword .«while») "while",
    .alone .leftParen "(", .alone (.literal .yes) "true", .alone .rightParen ")",
    .alone .semicolon ";", .alone (.keyword .«for») "for", .alone .leftParen "(",
    .alone (.datatype .int) "int", .alone .identifier "i", .alone .assign "=",
    .alone (.literal .int) "0", .alone .comma ",", .alone .identifier "i",
    .alone .arrow "->", .alone (.literal .int) "3", .alone .rightParen ")",
    .alone .leftBrace "\x7b", .alone .rightBrace "\x7d", .alone .rightBrace "\x7d",
    .alone .rightBrace "\x7d"]

theorem outlinedProgram_accounted :
    (ofTokens {} 100 outlinedProgram).isOk = true ∧
      ∃ o, Outline.ofTokens? outlinedProgram = some o ∧
        Outline.Shown false o (ofTokens {} 100 outlinedProgram).root.children ∧
        (ofTokens {} 100 outlinedProgram).modules.DeclaredBy o := by
  have accepted : (ofTokens {} 100 outlinedProgram).isOk = true := by decide +kernel
  exact ⟨accepted, outline_accounted accepted⟩

end Analysis

end MiLanguage
