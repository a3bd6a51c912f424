import MiLanguage.Proofs.Filling
import MiLanguage.Proofs.Passes.Body

set_option autoImplicit false

namespace MiLanguage

namespace Environment

theorem Warned.eq_of_outside {env warned : Environment} (warns : env.Warned warned)
    (outside : Title.Outside env.titles) : warned = env := by
  cases warns with
  | same => rfl
  | marked frame =>
      have bare := isBlock_of_outside outside
      rw [frame] at bare
      cases bare

theorem length_titles (env : Environment) : env.titles.length = env.scopes.depth := by
  simp [titles, AnalysisState.length_all]

theorem append_declaring {setting : Setting} (pass : setting.declaring = true) (env : Environment)
    (c : Node) : env.append setting c = env := by
  unfold Environment.append
  rw [if_pos pass]

theorem settled_declaring {setting : Setting} (pass : setting.declaring = true)
    (accepted : Accepted) : accepted.settled setting = accepted.environment := by
  unfold Accepted.settled
  split
  next => exact append_declaring pass _ _
  next => rfl

theorem isModule_of_title {frame : Frame} (module : frame.title.isModule = true) :
    frame.isModule = true := by
  cases frame <;> first | rfl | cases module

theorem Declaring.ends_leftBrace {env after : Environment} {mods : LeadingModifiers} {head : Token}
    {tail : List Token} (declaring : env.Declaring mods head tail after .body) :
    Ends head tail .leftBrace := by
  cases declaring with
  | body _ ends => exact ends

-- In the first pass, the body of a function is what does not open a scope.
theorem Declaring.level {env after : Environment} {mods : LeadingModifiers} {head : Token}
    {tail : List Token} {sort : StatementSort} (declaring : env.Declaring mods head tail after sort)
    (brace : Ends head tail .leftBrace) :
    sort = .body ↔ after.scopes.depth = env.scopes.depth := by
  have semicolon : ¬Ends head tail .semicolon := by
    intro ends
    rw [Ends, brace] at ends
    cases ends
  rw [← length_titles, ← length_titles]
  cases declaring with
  | module _ _ titles => simp [titles]
  | «class» _ _ titles => simp [titles]
  | enum _ _ titles => simp [titles]
  | body _ _ _ _ _ titles => simp [titles]
  | native _ ends => exact absurd ends semicolon
  | other ends => exact absurd ends semicolon

-- Outside of bodies, what closes is a declaration in a module.
theorem Closes.outside {setting : Setting} {env after : Environment} {scope : Scope}
    {scopes : ScopeStack} {waiting : Option Node} (outside : Title.Outside env.titles)
    (popped : env.scopes.pop? = some (scope, scopes))
    (closes : Closes setting { env with scopes } scope after waiting) :
    waiting = none ∧ env.titles = scope.title :: after.titles ∧
      (setting.declaring = true → after.declared = env.declared) ∧
      (setting.declaring = false → after.modules = env.modules) := by
  have current : env.scopes.current = scope := by
    obtain ⟨below, all, _⟩ := env.scopes.all_eq_current
    rw [ScopeStack.all_of_pop? popped] at all
    cases all
    rfl
  have frame : env.frame = scope.frame := congrArg Scope.frame current
  have titles : env.titles = scope.title :: scopes.all.map Scope.title := by
    simp [Environment.titles, ScopeStack.all_of_pop? popped]
  obtain ⟨kept, declaration, _⟩ := title_frame outside
  rw [frame] at declaration
  rw [current] at kept
  have leaves : waiting = none ∧ after.titles = scopes.all.map Scope.title ∧
      (setting.declaring = true → after.modules = env.declared) ∧
      (setting.declaring = false → after.modules = env.modules) := by
    cases closes with
    | «class» _ here | enum _ here =>
        refine ⟨rfl, titles_append _ _ _, ?_, ?_⟩
        · intro pass
          unfold Environment.declared
          rw [modules_append, frame, here]
          simp [pass]
        · intro pass
          rw [modules_append]
          simp [pass]
    | module _ isModule =>
        refine ⟨rfl, titles_append _ _ _, ?_, fun _ => modules_append _ _ _⟩
        intro _
        rw [modules_append, declared_of_isModule (by rw [frame]; exact isModule)]
    | discarded discard => rw [kept] at discard; cases discard
    | function _ block => rw [block] at declaration; cases declaration
    | doLoop _ block => rw [block] at declaration; cases declaration
    | forLoop _ block => rw [block] at declaration; cases declaration
    | bare _ block => rw [block] at declaration; cases declaration
    | block _ block => rw [block] at declaration; cases declaration
  obtain ⟨idle, same, declared, modules⟩ := leaves
  rw [← same] at titles
  have inner := outside
  rw [titles] at inner
  obtain ⟨inner, next, head, module⟩ := inner.pop (by simp [same, ScopeStack.all_ne_nil])
  have top := (title_frame inner).2.2
  rw [head] at top
  cases top
  have isModule := isModule_of_title module
  exact ⟨idle, titles, fun pass => (declared_of_isModule isModule).trans (declared pass), modules⟩

end Environment

namespace AnalysisState

variable {s t : AnalysisState}

/-- A step of the first pass. -/
inductive DeclaringTurn (s t : AnalysisState) : Prop
  | closes {brace : Token} {top : Title} :
      s.remaining = brace :: t.remaining → brace.kind = .rightBrace →
      s.environment.titles = top :: t.environment.titles →
      t.environment.declared = s.environment.declared → DeclaringTurn s t
  | reads {first head : Token} {rest tail : List Token} {mods : LeadingModifiers} :
      s.Takes first rest t.remaining → first.kind ≠ .rightBrace →
      LeadingModifiers.read (first :: rest) = .ok (mods, head :: tail) →
      s.environment.Declaring mods head tail t.environment (statementSort head tail) →
      statementSort head tail ≠ .body → DeclaringTurn s t
  | skips {first head : Token} {rest tail later : List Token} {mods : LeadingModifiers} :
      s.Takes first rest later → first.kind ≠ .rightBrace →
      LeadingModifiers.read (first :: rest) = .ok (mods, head :: tail) →
      s.environment.Declaring mods head tail t.environment (statementSort head tail) →
      statementSort head tail = .body → Chunk.skipBlock 0 later = some t.remaining →
      DeclaringTurn s t

theorem Moves.declaringTurn (moves : s.Moves t) (pass : s.declaring = true)
    (idle : s.pendingDo = none) (outer : s.environment.Outer) :
    s.DeclaringTurn t ∧ t.pendingDo = none := by
  have read : ∀ {warned mods head tail} {accepted : Accepted}, s.environment.Warned warned →
      Accepts warned s.setting mods head tail accepted →
      s.environment.Declaring mods head tail (accepted.settled s.setting)
        (statementSort head tail) ∧ accepted.settled s.setting = accepted.environment := by
    intro warned mods head tail accepted warns accepts
    cases warns.eq_of_outside outer.outside
    have settled := Environment.settled_declaring pass accepted
    rw [settled]
    exact ⟨accepts.declaring pass outer, rfl⟩
  cases moves with
  | completes _ waiting =>
      rw [idle] at waiting
      cases waiting
  | closes _ _ remaining kind popped closes =>
      obtain ⟨rfl, titles, declared, _⟩ := closes.outside outer.outside popped
      exact ⟨.closes remaining kind titles (declared pass), rfl⟩
  | accepts _ _ takes notClosing warns modifiers accepts stands =>
      obtain ⟨declaring, settled⟩ := read warns accepts
      refine ⟨.reads takes notClosing modifiers declaring ?_, idle⟩
      intro body
      have brace := (body ▸ declaring).ends_leftBrace
      have level := (declaring.level brace).mp body
      rw [settled] at level
      exact stands brace level
  | skips _ _ takes notClosing warns modifiers accepts brace level skip =>
      obtain ⟨declaring, settled⟩ := read warns accepts
      refine ⟨.skips takes notClosing modifiers declaring ((declaring.level brace).mpr ?_) skip, idle⟩
      rw [settled]
      exact level

theorem DeclaringTurn.declares (turn : s.DeclaringTurn t) (outer : s.environment.Outer) :
    t.environment.Outer ∧
      ∃ added, s.environment.declared.Declares t.environment.declared added := by
  have read : ∀ {mods head tail sort},
      s.environment.Declaring mods head tail t.environment sort →
      ∃ added, s.environment.declared.Declares t.environment.declared added := by
    intro mods head tail sort declaring
    cases declaring with
    | module _ _ _ _ declares => exact ⟨_, declares⟩
    | «class» _ _ _ _ declares => exact ⟨_, declares⟩
    | enum _ _ _ _ declares => exact ⟨_, declares⟩
    | body _ _ _ _ _ _ declares => exact ⟨_, declares⟩
    | native _ _ _ declares => exact ⟨_, declares⟩
    | other _ _ declares => exact ⟨_, declares⟩
  cases turn with
  | closes _ _ titles declared =>
      have outside := outer.outside
      have inside := outer.inside
      rw [titles] at outside inside
      have deeper : t.environment.titles ≠ [] := by simp [Environment.titles, ScopeStack.all_ne_nil]
      refine ⟨⟨(outside.pop deeper).1, by rw [declared]; exact outer.proper, ?_⟩, none, ?_⟩
      · intro title member id found
        rw [declared]
        exact inside title (by simp [member]) id found
      · rw [declared]
        exact ModuleTree.declares_refl outer.proper
  | reads _ _ _ declaring => exact ⟨declaring.outer outer, read declaring⟩
  | skips _ _ _ declaring => exact ⟨declaring.outer outer, read declaring⟩

/-- A step of the second pass that starts outside of bodies. -/
inductive EnteringTurn (s t : AnalysisState) : Prop
  | closes {brace : Token} {top : Title} :
      s.remaining = brace :: t.remaining → brace.kind = .rightBrace →
      s.environment.titles = top :: t.environment.titles →
      t.environment.modules = s.environment.modules → EnteringTurn s t
  | reads {first head : Token} {rest tail later : List Token} {mods : LeadingModifiers} :
      s.Takes first rest later → first.kind ≠ .rightBrace →
      LeadingModifiers.read (first :: rest) = .ok (mods, head :: tail) →
      s.environment.Entering mods head tail t.environment (statementSort head tail) →
      (Ends head tail .semicolon ∨ t.environment.scopes.depth ≠ s.environment.scopes.depth →
        t.remaining = later) → EnteringTurn s t

theorem Moves.enteringTurn (moves : s.Moves t) (pass : s.declaring = false)
    (idle : s.pendingDo = none) (outside : Title.Outside s.environment.titles) :
    s.EnteringTurn t ∧ t.pendingDo = none := by
  have read : ∀ {warned mods head tail} {accepted : Accepted}, s.environment.Warned warned →
      Accepts warned s.setting mods head tail accepted →
      s.environment.Entering mods head tail (accepted.settled s.setting)
        (statementSort head tail) := by
    intro warned mods head tail accepted warns accepts
    cases warns.eq_of_outside outside
    exact accepts.entering pass outside
  cases moves with
  | completes _ waiting =>
      rw [idle] at waiting
      cases waiting
  | closes _ _ remaining kind popped closes =>
      obtain ⟨rfl, titles, _, modules⟩ := closes.outside outside popped
      exact ⟨.closes remaining kind titles (modules pass), rfl⟩
  | accepts _ _ takes notClosing warns modifiers accepts =>
      exact ⟨.reads takes notClosing modifiers (read warns accepts) fun _ => rfl, idle⟩
  | skips _ _ takes notClosing warns modifiers accepts brace level =>
      refine ⟨.reads takes notClosing modifiers (read warns accepts) ?_, idle⟩
      rintro (semicolon | deeper)
      · rw [Ends, brace] at semicolon
        cases semicolon
      · refine absurd ?_ deeper
        rw [← Environment.length_titles, (Accepted.settled_kept _ _).1, Environment.length_titles]
        exact level

end AnalysisState

end MiLanguage
