import MiLanguage.Analysis.Run
import MiLanguage.Proofs.Analysis.Clean
import Mathlib.Logic.Relation

set_option autoImplicit false

namespace MiLanguage

/-- What happens to declarations and scopes in a step of either pass, one thing at a time. A
statement is one of these, whether it is accepted or blamed. -/
inductive Environment.Shifts (setting : Setting) (env : Environment) : Environment → Prop
  | reads (first : Token) (rest : List Token) :
      Shifts setting env (env.statement setting first rest).environment
  | warns : Shifts setting env (env.modifyBlock ({ · with warned := true }))
  | appends (node : Node) : Shifts setting env (env.append setting node)
  | recovers (head : Token) (node : Node) :
      Shifts setting env { env with
        scopes := env.scopes.push ⟨AnalysisState.recoveryFrame env head, node, true⟩ }
  | drops {scope : Scope} {scopes : ScopeStack} :
      env.scopes.pop? = some (scope, scopes) → Shifts setting env { env with scopes }
  | closesClass {scope : Scope} {scopes : ScopeStack} {id : ModuleId} {c : ClassDeclaration} :
      env.scopes.pop? = some (scope, scopes) → scope.frame = .class id c →
      setting.declaring = true →
      Shifts setting env { env with scopes, modules := env.modules.insertClass id c }
  | closesEnum {scope : Scope} {scopes : ScopeStack} {id : ModuleId} {e : EnumDeclaration} :
      env.scopes.pop? = some (scope, scopes) → scope.frame = .enum id e →
      setting.declaring = true →
      Shifts setting env { env with scopes, modules := env.modules.insertEnum id e }
  | closesBody {scope : Scope} {scopes : ScopeStack} {b : Block} {owner : BodyOwner} :
      env.scopes.pop? = some (scope, scopes) → scope.frame = .block .function b →
      b.bodyOf = some owner →
      Shifts setting env
        { env with scopes, modules := AnalysisState.attachBody env.modules scope.node owner }

namespace AnalysisState

/-- Some shifts lead from one state of a pass to another one. -/
structure Evolves (s t : AnalysisState) : Prop where
  setting : t.setting = s.setting
  environment : Relation.ReflTransGen (Environment.Shifts s.setting) s.environment t.environment

variable {s t u : AnalysisState}

theorem Evolves.keeps {P : Environment → Prop} (evolves : s.Evolves t)
    (each : ∀ env after, env.Shifts s.setting after → P env → P after) (start : P s.environment) :
    P t.environment := by
  have run := evolves.environment
  generalize t.environment = reached at run ⊢
  induction run with
  | refl => exact start
  | tail _ shifts ih => exact each _ _ shifts ih

theorem Evolves.trans (first : s.Evolves t) (second : t.Evolves u) : s.Evolves u := by
  have later := second.environment
  rw [first.setting] at later
  exact ⟨second.setting.trans first.setting, first.environment.trans later⟩

theorem evolves_of_same (setting : t.setting = s.setting)
    (environment : t.environment = s.environment) : s.Evolves t :=
  ⟨setting, environment ▸ .refl⟩

theorem evolves_of_shifts (setting : t.setting = s.setting)
    (shifts : s.environment.Shifts s.setting t.environment) : s.Evolves t :=
  ⟨setting, .single shifts⟩

theorem evolves_report (s : AnalysisState) (fault : Fault) (place : Token) :
    s.Evolves (s.report fault place) :=
  evolves_of_same rfl rfl

theorem evolves_append (s : AnalysisState) (node : Node) : s.Evolves (s.append node) :=
  evolves_of_shifts rfl (.appends node)

theorem evolves_flushDo (s : AnalysisState) : s.Evolves s.flushDo := by
  unfold flushDo
  split
  next node _ => exact evolves_of_shifts rfl (.appends node)
  next => exact evolves_of_same rfl rfl

theorem evolves_checkReachable (s : AnalysisState) (first : Token) :
    s.Evolves (s.checkReachable first) := by
  unfold checkReachable
  split
  next =>
    split
    next => exact evolves_of_same rfl rfl
    next => exact evolves_of_shifts rfl .warns
  next => exact evolves_of_same rfl rfl

theorem evolves_recover (s : AnalysisState) (head brace : Token) :
    s.Evolves (s.recover head brace) := by
  unfold recover
  split
  next =>
    unfold skipBlock
    split <;> exact evolves_of_same rfl rfl
  next => exact evolves_of_shifts rfl (.recovers head _)

theorem evolves_readStatement (s : AnalysisState) (first : Token) (rest : List Token) :
    s.Evolves (s.readStatement first rest) := by
  refine (s.evolves_checkReachable first).trans ?_
  simp only [readStatement]
  generalize s.checkReachable first = s
  have reads : s.Evolves
      { s with environment := (s.environment.statement s.setting first rest).environment } :=
    evolves_of_shifts rfl (.reads first rest)
  have recovers : ∀ {t : AnalysisState} {skips : Bool} (head brace : Token), s.Evolves t →
      s.Evolves (if skips = true then t.recover head brace else t) := by
    intro t skips head brace evolves
    split
    next => exact evolves.trans (t.evolves_recover head brace)
    next => exact evolves
  generalize s.environment.statement s.setting first rest = outcome at reads ⊢
  obtain ⟨after, result⟩ := outcome
  cases result with
  | error r => exact recovers _ _ (reads.trans (evolves_report _ r.fault r.place))
  | ok node =>
      cases node with
      | none => exact recovers _ _ reads
      | some node => exact (recovers _ _ reads).trans (evolves_append _ node)

section Close

variable {scope : Scope} {scopes : ScopeStack}

theorem evolves_closeFunction {b : Block} (brace : Token)
    (popped : s.environment.scopes.pop? = some (scope, scopes))
    (frame : scope.frame = .block .function b) :
    s.Evolves ({ s with environment := { s.environment with scopes } }.closeFunction b scope.node
      brace) := by
  have closes : s.environment.Shifts s.setting { s.environment with
      scopes, modules := b.attached scope.node s.environment.modules } := by
    unfold Block.attached
    cases owner : b.bodyOf with
    | none => exact .drops popped
    | some owner' => exact .closesBody popped frame owner
  rw [closeFunction_eq]
  refine Evolves.trans ?_ (evolves_append _ _)
  split
  next =>
    split
    next => exact evolves_of_shifts rfl closes
    next => exact evolves_of_shifts rfl closes
  next => exact evolves_of_shifts rfl closes

theorem evolves_closeFrame (brace : Token)
    (popped : s.environment.scopes.pop? = some (scope, scopes)) :
    s.Evolves ({ s with environment := { s.environment with scopes } }.closeFrame scope.frame
      scope.node brace) := by
  have drops : s.Evolves { s with environment := { s.environment with scopes } } :=
    evolves_of_shifts rfl (.drops popped)
  cases frame : scope.frame with
  | parent | module => exact drops.trans (evolves_append _ _)
  | «class» id c =>
      refine Evolves.trans ?_ (evolves_append _ _)
      split
      next declaring => exact evolves_of_shifts rfl (.closesClass popped frame declaring)
      next => exact drops
  | enum id e =>
      refine Evolves.trans ?_ (evolves_append _ _)
      split
      next declaring => exact evolves_of_shifts rfl (.closesEnum popped frame declaring)
      next => exact drops
  | block kind b =>
      cases kind with
      | function => exact evolves_closeFunction brace popped frame
      | doLoop => exact evolves_of_shifts rfl (.drops popped)
      | forLoop =>
          have appends := drops.trans (evolves_append _ scope.node)
          simp only [closeFrame]
          split
          next head scopes popped =>
            refine (appends.trans ?_).trans (evolves_append _ head.node)
            exact evolves_of_shifts rfl (.drops popped)
          next => exact appends
      | branch | whileLoop | loopHead => exact drops.trans (evolves_append _ _)

theorem evolves_closeScope (s : AnalysisState) (brace : Token) :
    s.Evolves (s.closeScope brace) := by
  unfold closeScope
  split
  next => exact s.evolves_report _ _
  next scope scopes popped =>
    dsimp only
    split
    next => exact evolves_of_shifts rfl (.drops popped)
    next => exact evolves_closeFrame brace popped

end Close

theorem evolves_finishDo (s : AnalysisState) (block : Node) (keyword : Token)
    (condition : List Token) : s.Evolves (s.finishDo block keyword condition) := by
  simp only [finishDo]
  split
  next node _ => exact evolves_of_shifts rfl (.appends _)
  next => exact evolves_of_shifts rfl (.appends _)

theorem evolves_statementOrBrace (s : AnalysisState) (first : Token) (rest : List Token) :
    s.Evolves (s.statementOrBrace first rest) := by
  unfold statementOrBrace
  split
  next => exact s.evolves_closeScope first
  next => exact s.evolves_readStatement first rest

theorem evolves_statement (s : AnalysisState) (first : Token) (rest : List Token) :
    s.Evolves (s.statement first rest) := by
  unfold statement
  split
  next => exact s.evolves_statementOrBrace first rest
  next block _ =>
    split
    next => exact s.evolves_finishDo block first _
    next =>
      exact ((s.evolves_report _ _).trans (evolves_flushDo _)).trans
        (evolves_statementOrBrace _ first rest)

theorem step_evolves (stepped : s.step = some t) : s.Evolves t := by
  unfold step at stepped
  split at stepped
  next => cases stepped
  next first rest _ =>
    have taken : ∀ remaining, s.Evolves { s with remaining } := fun _ => evolves_of_same rfl rfl
    dsimp only at stepped
    split at stepped
    all_goals cases stepped
    · exact (taken _).trans (evolves_statement _ _ _)
    · exact (taken _).trans (evolves_report _ _ _)
    · exact (taken _).trans (evolves_report _ _ _)

theorem steps_evolves (bound : Nat) (s : AnalysisState) : s.Evolves (steps bound s) := by
  induction bound generalizing s with
  | zero => exact evolves_of_same rfl rfl
  | succ bound ih =>
      unfold steps
      split
      next => exact evolves_of_same rfl rfl
      next next stepped => exact (step_evolves stepped).trans (ih next)

theorem finish_evolves (s : AnalysisState) (last : Option Token) : s.Evolves (s.finish last) := by
  obtain ⟨u, flushes, ends⟩ := s.finish_cases last
  have flushed : s.Evolves u := by
    rcases flushes with rfl | ⟨t, rfl⟩
    · exact s.evolves_flushDo
    · exact (s.evolves_report _ _).trans (evolves_flushDo _)
  rcases ends with same | ⟨t, same⟩
  · exact same ▸ flushed
  · exact same ▸ flushed.trans (evolves_report _ _ t)

end AnalysisState

theorem Analysis.runPass_evolves (setting : Setting) (modules : ModuleTree) (log : DiagnosticLog)
    (tokens : List Token) :
    (startPass setting modules log tokens).Evolves (runPass setting modules log tokens) :=
  (AnalysisState.steps_evolves _ _).trans (AnalysisState.finish_evolves _ _)

end MiLanguage
