import MiLanguage.Proofs.Analysis.Pass
import MiLanguage.Proofs.Nesting.Shape
import MiLanguage.Proofs.Statement.Blame

set_option autoImplicit false

namespace MiLanguage

/-- More has been reported, and only faults that `allowed` holds of. -/
inductive DiagnosticLog.Grows (allowed : Fault → Prop) (old : DiagnosticLog) : DiagnosticLog → Prop
  | refl : Grows allowed old old
  | report {new : DiagnosticLog} {fault : Fault} (severity : Severity) (place : Token) :
      Grows allowed old new → allowed fault →
      Grows allowed old (new.report (.ofFault severity fault place))

theorem DiagnosticLog.Grows.trans {allowed : Fault → Prop} {a b c : DiagnosticLog}
    (first : a.Grows allowed b) (second : b.Grows allowed c) : a.Grows allowed c := by
  induction second with
  | refl => exact first
  | report severity place _ fault ih => exact .report severity place ih fault

-- A statement ends the depth of its braces where it began, or one deeper.
theorem Chunk.next_depth {head first : Token} {tail rest later : List Token}
    (found : Chunk.next head tail = (.statement first rest, later)) (notClosing : first.kind ≠ .rightBrace) :
    ∃ front last, head :: tail = front ++ last :: later ∧ rest.getLast?.getD first = last ∧
      (last.kind = .semicolon ∨ last.kind = .leftBrace) ∧
      ∀ depth, braceDepth depth front = depth := by
  obtain ⟨rfl, rfl, ⟨terminator, rfl⟩ | ⟨plain, front, last, rfl, kind, inner⟩⟩ :=
    Chunk.next_statement found
  · refine ⟨[], first, rfl, rfl, ?_, fun _ => rfl⟩
    unfold TokenKind.isTerminator at terminator
    split at terminator
    next kind => exact .inl kind
    next kind => exact .inr kind
    next kind => exact absurd kind notClosing
    next => cases terminator
  · refine ⟨first :: front, last, by simp, by simp, kind, fun depth => braceDepth_open ?_⟩
    intro t member
    rcases List.mem_cons.mp member with rfl | member
    · exact plain
    · exact inner t member

namespace Environment

variable {env : Environment} {setting : Setting} {mods : LeadingModifiers} {first : Token}
  {rest : List Token} {accepted : Accepted}

@[simp] theorem shape_openBody (type : Datatype) (owner : BodyOwner)
    (parameters : List FunctionParameter) (place : Token) (node : Node) :
    (env.openBody type owner parameters place node).shape = (some .function, false) :: env.shape :=
  (env.updated_openBody type owner parameters place node).shape

theorem length_shape (env : Environment) : env.scopes.depth = env.shape.length + 1 := by
  simp [shape, ScopeStack.shape, ScopeStack.depth]

theorem Defines.shape {placement : Placement} {declared : Environment} {node : Node}
    (defines : env.Defines placement declared node) : declared.shape = env.shape := by
  obtain ⟨_, _, _, found⟩ := defines
  exact shape_declareVariable? found

@[simp] theorem shape_modifyBlock (env : Environment) (f : Block → Block) :
    (env.modifyBlock f).shape = env.shape := by
  refine ScopeStack.shape_modifyCurrent ?_ rfl
  cases env.scopes.current.frame <;> rfl

theorem shape_modifyEnum {id : ModuleId} {e : EnumDeclaration} (extended : EnumDeclaration)
    (frame : env.frame = .enum id e) :
    Environment.shape { env with
      scopes := env.scopes.modifyCurrent ({ · with frame := .enum id extended }) } = env.shape := by
  refine ScopeStack.shape_modifyCurrent ?_ rfl
  rw [show env.scopes.current.frame = .enum id e from frame]
  rfl

end Environment

-- A statement that opens no scope leaves all of them as they are. Where it opens any it ends in a
-- brace, and it opens those that the brace calls for.
theorem Accepts.shape {env : Environment} {setting : Setting} {mods : LeadingModifiers}
    {first : Token} {rest : List Token} {accepted : Accepted}
    (accepts : Accepts env setting mods first rest accepted) :
    accepted.environment.shape = env.shape ∨
      (Ends first rest .leftBrace ∧ env.shape.length < accepted.environment.shape.length ∧
        ∀ depth, Nested env.shape depth → Nested accepted.environment.shape (depth + 1)) := by
  have opens : ∀ {kind : Option BlockKind} {env' : Environment},
      Ends first rest .leftBrace → kind ≠ some .loopHead → kind ≠ some .forLoop →
      env'.shape = (kind, false) :: env.shape →
      env'.shape = env.shape ∨ (Ends first rest .leftBrace ∧ env.shape.length < env'.shape.length ∧
        ∀ depth, Nested env.shape depth → Nested env'.shape (depth + 1)) := by
    intro kind env' brace head loop same
    rw [same]
    exact .inr ⟨brace, by simp, fun depth nested => .scope head (by simp [loop]) nested⟩
  cases accepts with
  | moduleDeclared _ title | moduleEntered _ title | classDeclared _ title | classEntered _ title
  | enumDeclared _ title | enumEntered _ title =>
      exact opens title.ends (by simp [Frame.blockKind?]) (by simp [Frame.blockKind?]) rfl
  | functionOpened _ brace =>
      exact opens brace (by simp) (by simp) (Environment.shape_openBody ..)
  | constructorOpened _ brace =>
      exact opens brace (by simp) (by simp) (Environment.shape_openBody ..)
  | doLoop _ brace => exact opens brace (by simp [Frame.blockKind?]) (by simp [Frame.blockKind?]) rfl
  | conditional starts brace =>
      rcases conditional_eq_some starts with ⟨_, rfl, _⟩ | ⟨_, rfl, _⟩
      · exact opens brace (by simp [Frame.blockKind?]) (by simp [Frame.blockKind?]) rfl
      · exact opens brace (by simp [Frame.blockKind?]) (by simp [Frame.blockKind?]) rfl
  | forLoop _ brace _ defines _ advances =>
      have shape := advances.updated.shape.trans defines.shape
      refine .inr ⟨brace, ?_, fun depth nested => ?_⟩
      · simp only [List.foldl_cons, List.foldl_nil, Environment.shape_push,
          Environment.shape_append, shape, List.length_cons]
        omega
      · simp only [List.foldl_cons, List.foldl_nil, Environment.shape_push,
          Environment.shape_append, shape]
        exact .loop nested
  | membersDeclared _ _ frame => exact .inl (Environment.shape_modifyEnum _ frame)
  | functionDeclared _ _ _ _ _ _ added => exact .inl (Environment.shape_addFunction? added)
  | nativeDeclared _ _ _ _ _ added => exact .inl (Environment.shape_addFunction? added)
  | constructorDeclared _ _ frame =>
      refine .inl (ScopeStack.shape_modifyCurrent ?_ rfl)
      rw [show env.scopes.current.frame = _ from frame]
      rfl
  | returned | exited => exact .inl (Environment.shape_modifyBlock _ _)
  | used => exact .inl (Environment.updated_use _ _).shape
  | variableDefined _ _ _ _ defines => exact .inl defines.shape
  | assigned _ _ _ assigns => exact .inl assigns.updated.shape
  | _ => exact .inl rfl

namespace AnalysisState

variable {s t u : AnalysisState} {depth : Nat}

def shape (s : AnalysisState) : List (Option BlockKind × Bool) := s.environment.shape

/-- Between the two nothing is read, and nothing is said of a closing brace. -/
structure Calm (s t : AnalysisState) : Prop where
  remaining : t.remaining = s.remaining
  log : s.log.Grows (·.ofBrace = false) t.log

theorem calm_refl (s : AnalysisState) : s.Calm s := ⟨rfl, .refl⟩

theorem Calm.trans (first : s.Calm t) (second : t.Calm u) : s.Calm u :=
  ⟨second.remaining.trans first.remaining, first.log.trans second.log⟩

theorem calm_report {fault : Fault} (s : AnalysisState) (place : Token)
    (plain : fault.ofBrace = false) : s.Calm (s.report fault place) :=
  ⟨rfl, .report .error place .refl plain⟩

@[simp] theorem shape_report (s : AnalysisState) (fault : Fault) (place : Token) :
    (s.report fault place).shape = s.shape :=
  rfl

@[simp] theorem shape_append (s : AnalysisState) (node : Node) : (s.append node).shape = s.shape :=
  Environment.shape_append node

theorem calm_flushDo (s : AnalysisState) : s.Calm s.flushDo := by
  unfold flushDo
  split
  next => exact ⟨rfl, .refl⟩
  next => exact s.calm_refl

@[simp] theorem shape_flushDo (s : AnalysisState) : s.flushDo.shape = s.shape := by
  unfold flushDo
  split
  next => exact shape_append _ _
  next => rfl

theorem calm_checkReachable (s : AnalysisState) (first : Token) :
    s.Calm (s.checkReachable first) := by
  unfold checkReachable
  split
  next =>
    split
    next => exact s.calm_refl
    next => exact ⟨rfl, .report .warning first .refl rfl⟩
  next => exact s.calm_refl

@[simp] theorem shape_checkReachable (s : AnalysisState) (first : Token) :
    (s.checkReachable first).shape = s.shape := by
  unfold checkReachable
  split
  next =>
    split
    next => rfl
    next => exact Environment.shape_modifyBlock _ _
  next => rfl

theorem calm_closeFunction (s : AnalysisState) (b : Block) (node : Node) (brace : Token) :
    s.Calm (s.closeFunction b node brace) := by
  rw [closeFunction_eq]
  split
  next =>
    split
    next => exact ⟨rfl, .refl⟩
    next => exact ⟨rfl, .report .error brace .refl rfl⟩
  next => exact ⟨rfl, .refl⟩

theorem shape_closeFunction (s : AnalysisState) (b : Block) (node : Node) (brace : Token) :
    (s.closeFunction b node brace).shape = s.shape := by
  rw [closeFunction_eq, shape_append]
  split
  next => split <;> rfl
  next => rfl

theorem calm_closeFrame (s : AnalysisState) (frame : Frame) (node : Node) (brace : Token) :
    s.Calm (s.closeFrame frame node brace) := by
  unfold closeFrame
  split
  next => split <;> exact ⟨rfl, .refl⟩
  next => split <;> exact ⟨rfl, .refl⟩
  next => exact ⟨rfl, .refl⟩
  next => exact ⟨rfl, .refl⟩
  next => exact s.calm_closeFunction _ node brace
  next => exact ⟨rfl, .refl⟩
  next => simp only; split <;> exact ⟨rfl, .refl⟩
  next => exact ⟨rfl, .refl⟩

theorem shape_closeFrame {frame : Frame} (other : frame.blockKind? ≠ some .forLoop)
    (s : AnalysisState) (node : Node) (brace : Token) :
    (s.closeFrame frame node brace).shape = s.shape := by
  unfold closeFrame
  split
  next => rw [shape_append]; split <;> rfl
  next => rw [shape_append]; split <;> rfl
  next => exact shape_append _ _
  next => exact shape_append _ _
  next => exact shape_closeFunction _ _ _ _
  next => rfl
  next => exact absurd rfl other
  next => exact shape_append _ _

-- A loop takes the scope around it along.
theorem shape_closeFrame_forLoop {frame : Frame} {head : Option BlockKind × Bool}
    {rest : List (Option BlockKind × Bool)} (loop : frame.blockKind? = some .forLoop)
    (opened : s.shape = head :: rest) (node : Node) (brace : Token) :
    (s.closeFrame frame node brace).shape = rest := by
  cases frame with
  | block kind b =>
      cases loop
      unfold closeFrame
      cases popped : (s.append node).environment.scopes.pop? with
      | none =>
          have same : (s.append node).shape = s.shape := shape_append s node
          rw [ScopeStack.pop?_eq_none_iff, Environment.length_shape,
            show (s.append node).environment.shape = s.shape from same, opened] at popped
          simp at popped
      | some pair =>
          have whole := ScopeStack.shape_pop? popped
          rw [show (s.append node).environment.scopes.shape = s.shape from shape_append s node,
            opened] at whole
          simp only [popped]
          exact (shape_append _ _).trans (List.cons.inj whole).2.symm
  | _ => cases loop

theorem calm_finishDo (s : AnalysisState) (block : Node) (keyword : Token)
    (condition : List Token) : s.Calm (s.finishDo block keyword condition) := by
  simp only [finishDo]
  split
  next => exact ⟨rfl, .refl⟩
  next r found =>
    exact ⟨rfl, .report .error _ .refl (Environment.wrappedCondition_braceless _ r found)⟩

theorem shape_finishDo (s : AnalysisState) (block : Node) (keyword : Token)
    (condition : List Token) : (s.finishDo block keyword condition).shape = s.shape := by
  simp only [finishDo]
  split
  next => exact shape_append _ _
  next => exact shape_append _ _

-- The search for the end of a block has come to the end of the text, and says so.
def RanOff (tokens : List Token) (t : AnalysisState) : Prop :=
  t.remaining = [] ∧ ∃ front brace block log,
    tokens = front ++ brace :: block ∧ brace.kind = .leftBrace ∧
      Chunk.skipBlock 0 block = none ∧
      t.log = DiagnosticLog.report log
        (.ofFault .error (SyntaxFault.expected .rightBrace "to close this block") brace)

/-- Where a pass that begins with `tokens`, `depth` deep in braces, has got to. -/
inductive Lands (tokens : List Token) (log : DiagnosticLog) (depth : Nat) (t : AnalysisState) : Prop
  | nested (taken : List Token) :
      taken ≠ [] → tokens = taken ++ t.remaining → Nested t.shape (braceDepth depth taken) →
      (closesAll depth tokens = true → log.Grows (·.ofBrace = false) t.log) →
      Lands tokens log depth t
  | ranOff : t.RanOff tokens → Lands tokens log depth t

variable {tokens front later : List Token} {log : DiagnosticLog} {first last brace : Token}
  {rest : List Token}

theorem RanOff.not_closesAll (ranOff : t.RanOff tokens) : closesAll depth tokens = false := by
  obtain ⟨_, front, brace, block, log, whole, kind, endless, _⟩ := ranOff
  rw [← Bool.not_eq_true]
  intro closes
  rw [whole] at closes
  have inside := closesAll_append closes
  rw [closesAll_leftBrace kind] at inside
  obtain ⟨beyond, found⟩ : ∃ beyond, Chunk.skipBlock 0 block = some beyond :=
    Chunk.skipBlock_of_closesAll inside
  rw [endless] at found
  cases found

theorem Lands.append (lands : t.Lands tokens log depth) (node : Node) :
    (t.append node).Lands tokens log depth := by
  cases lands with
  | nested taken some whole nested grows =>
      refine .nested taken some whole ?_ grows
      rwa [shape_append]
  | ranOff ranOff => exact .ranOff ranOff

theorem Lands.remaining_lt (lands : t.Lands tokens log depth) :
    t.remaining.length < tokens.length := by
  cases lands with
  | nested taken some whole =>
      have length := List.length_pos_iff.mpr some
      rw [whole, List.length_append]
      omega
  | ranOff ranOff =>
      obtain ⟨empty, front, brace, block, log, whole, _⟩ := ranOff
      simp only [empty, whole, List.length_nil, List.length_append, List.length_cons]
      omega

theorem recoveryFrame_kind (env : Environment) (head : Token) :
    (recoveryFrame env head).blockKind? ≠ some .loopHead := by
  unfold recoveryFrame
  repeat' split
  all_goals simp [Frame.blockKind?]

-- A statement that opens no scope but ends in a brace.
theorem recover_lands (whole : tokens = front ++ brace :: s.remaining)
    (level : ∀ depth, braceDepth depth front = depth) (kind : brace.kind = .leftBrace)
    (nested : Nested s.shape depth) (grows : log.Grows (·.ofBrace = false) s.log) (head : Token) :
    (s.recover head brace).Lands tokens log depth := by
  unfold recover
  split
  next =>
    unfold skipBlock
    split
    next beyond found =>
      obtain ⟨block, inside, closed⟩ := Chunk.skipBlock_braceDepth depth found
      refine .nested (front ++ brace :: block) (by simp) ?_ ?_ fun _ => grows
      · rw [whole, inside]
        simp
      · rw [braceDepth_append, level, braceDepth_leftBrace kind]
        rw [closed]
        exact nested
    next endless => exact .ranOff ⟨rfl, front, brace, s.remaining, s.log, whole, kind, endless, rfl⟩
  next =>
    refine .nested (front ++ [brace]) (by simp) (by simp [whole, pushRecovery]) ?_ fun _ => grows
    rw [braceDepth_append, level, braceDepth_leftBrace kind]
    exact .scope (recoveryFrame_kind s.environment head) (by simp) nested

-- The statement itself, before what its brace calls for.
def attempt (s : AnalysisState) (first : Token) (rest : List Token) : AnalysisState :=
  let outcome := s.environment.statement s.setting first rest
  let s := { s with environment := outcome.environment }
  match outcome.result with
  | .error r => s.reportTo r
  | .ok _ => s

theorem attempt_calm (s : AnalysisState) (first : Token) (rest : List Token) :
    s.Calm (s.attempt first rest) ∧
      ((s.attempt first rest).shape = s.shape ∨
        (rest.getLast?.getD first).kind = .leftBrace ∧
          s.shape.length < (s.attempt first rest).shape.length ∧
          ∀ depth, Nested s.shape depth → Nested (s.attempt first rest).shape (depth + 1)) := by
  have braceless : Checked.Braceless (s.environment.statement s.setting first rest).result :=
    Environment.statement_braceless
  unfold attempt
  generalize read : s.environment.statement s.setting first rest = outcome at braceless ⊢
  obtain ⟨after, result⟩ := outcome
  cases result with
  | error r =>
      refine ⟨⟨rfl, .report .error r.place .refl (braceless r rfl)⟩, .inl ?_⟩
      rcases Environment.statement_rejects read with rfl | ⟨id, e, extended, frame, rfl⟩
      · rfl
      · exact Environment.shape_modifyEnum extended frame
  | ok node =>
      obtain ⟨mods, head, tail, modifiers, accepts⟩ := Environment.statement_accepts read
      have last := (find_head modifiers).2
      rw [List.getLast?_cons, Option.some.injEq] at last
      refine ⟨⟨rfl, .refl⟩, ?_⟩
      rw [last]
      exact accepts.shape

theorem readStatement_lands (whole : tokens = front ++ last :: s.remaining)
    (ends : rest.getLast?.getD first = last) (kind : last.kind = .semicolon ∨ last.kind = .leftBrace)
    (level : ∀ depth, braceDepth depth front = depth) (nested : Nested s.shape depth)
    (grows : log.Grows (·.ofBrace = false) s.log) :
    (s.readStatement first rest).Lands tokens log depth := by
  have shape := s.shape_checkReachable first
  have checked := s.calm_checkReachable first
  generalize reachable : s.checkReachable first = r at shape checked
  obtain ⟨tried, effect⟩ := r.attempt_calm first rest
  have calm := checked.trans tried
  have lands : (if last.is .leftBrace &&
      (r.attempt first rest).environment.scopes.depth = r.environment.scopes.depth then
        (r.attempt first rest).recover (((first :: rest).find? (!·.kind.isModifier)).getD first) last
      else r.attempt first rest).Lands tokens log depth := by
    rw [← shape] at nested
    rw [← calm.remaining] at whole
    have grows := grows.trans calm.log
    rw [ends] at effect
    rw [Environment.length_shape, Environment.length_shape]
    rcases kind with semicolon | brace
    · rw [if_neg (by simp [semicolon])]
      refine .nested (front ++ [last]) (by simp) (by simp [whole]) ?_ fun _ => grows
      rw [braceDepth_append, level, braceDepth_plain (by simp [semicolon]) (by simp [semicolon])]
      rcases effect with same | ⟨brace, _⟩
      · rwa [same]
      · rw [semicolon] at brace
        cases brace
    · rcases effect with same | ⟨_, longer, deeper⟩
      · have level' : (r.attempt first rest).environment.shape = r.environment.shape := same
        rw [if_pos (by simp [brace, level'])]
        exact recover_lands whole level brace (by rwa [same]) grows _
      · have level' : (r.attempt first rest).environment.shape.length ≠ r.environment.shape.length :=
          Nat.ne_of_gt longer
        rw [if_neg (by simpa using fun _ => level')]
        refine .nested (front ++ [last]) (by simp) (by simp [whole]) ?_ fun _ => grows
        rw [braceDepth_append, level, braceDepth_leftBrace brace]
        exact deeper depth nested
  unfold readStatement
  rw [reachable]
  dsimp only
  rw [ends]
  split
  next => exact lands.append _
  next => exact lands

theorem closeScope_lands (whole : tokens = brace :: s.remaining) (kind : brace.kind = .rightBrace)
    (nested : Nested s.shape depth) (grows : log.Grows (·.ofBrace = false) s.log) :
    (s.closeScope brace).Lands tokens log depth := by
  have takes : ∀ t : AnalysisState, s.Calm t → Nested t.shape (depth - 1) →
      t.Lands tokens log depth := by
    intro t calm nested
    refine .nested [brace] (by simp) (by rw [calm.remaining]; exact whole) ?_ fun _ => grows.trans calm.log
    rw [braceDepth_rightBrace kind]
    exact nested
  unfold closeScope
  cases popped : s.environment.scopes.pop? with
  | none =>
      rw [ScopeStack.pop?_eq_none_iff, Environment.length_shape] at popped
      have empty : s.shape = [] := List.eq_nil_of_length_eq_zero (Nat.succ.inj popped)
      rw [empty] at nested
      cases nested
      refine .nested [brace] (by simp) whole ?_ ?_
      · rw [braceDepth_rightBrace kind, shape_report, empty]
        exact .root
      · intro closes
        rw [whole, closesAll, kind] at closes
        simp at closes
  | some pair =>
      obtain ⟨scope, scopes⟩ := pair
      have opened : s.shape = (scope.frame.blockKind?, scope.discard) :: scopes.shape :=
        ScopeStack.shape_pop? popped
      rw [opened] at nested
      have calm : s.Calm { s with environment := { s.environment with scopes } } := ⟨rfl, .refl⟩
      obtain ⟨outer, rfl, ⟨head, loop, inside⟩ | ⟨loop, kept, head, below, inside⟩⟩ := nested.cons
      · dsimp only
        split
        next => exact takes _ ⟨rfl, .refl⟩ inside
        next kept =>
          refine takes _ (calm.trans (calm_closeFrame _ _ _ _)) ?_
          rw [shape_closeFrame]
          · exact inside
          · intro same
            exact loop (by simp [same, kept])
      · dsimp only
        rw [if_neg (by simp [kept])]
        refine takes _ (calm.trans (calm_closeFrame _ _ _ _)) ?_
        rw [shape_closeFrame_forLoop
          (s := { s with environment := { s.environment with scopes } }) loop below]
        exact inside

theorem statementOrBrace_lands {head : Token} {tail : List Token}
    (found : Chunk.next head tail = (.statement first rest, s.remaining))
    (nested : Nested s.shape depth) (grows : log.Grows (·.ofBrace = false) s.log) :
    (s.statementOrBrace first rest).Lands (head :: tail) log depth := by
  unfold statementOrBrace
  by_cases brace : first.kind = .rightBrace
  · rw [if_pos (by simpa using brace)]
    obtain ⟨rfl, rfl, ⟨_, rfl⟩ | ⟨plain, _⟩⟩ := Chunk.next_statement found
    · exact closeScope_lands rfl brace nested grows
    · rw [brace] at plain
      cases plain
  · rw [if_neg (by simpa using brace)]
    obtain ⟨front, last, whole, ends, kind, level⟩ := Chunk.next_depth found brace
    exact readStatement_lands whole ends kind level nested grows

theorem statement_lands {head : Token} {tail : List Token}
    (found : Chunk.next head tail = (.statement first rest, s.remaining))
    (nested : Nested s.shape depth) (grows : log.Grows (·.ofBrace = false) s.log) :
    (s.statement first rest).Lands (head :: tail) log depth := by
  rcases Option.eq_none_or_eq_some s.pendingDo with idle | ⟨block, waiting⟩
  · rw [statement_idle idle]
    exact statementOrBrace_lands found nested grows
  · rw [statement_waiting waiting]
    split
    next completes =>
      simp only [Bool.and_eq_true, Token.is_iff] at completes
      obtain ⟨front, last, whole, ends, kind, level⟩ :=
        Chunk.next_depth found (by simp [completes.1])
      have calm := s.calm_finishDo block first rest.dropLast
      refine .nested (front ++ [last]) (by simp) (by rw [whole, calm.remaining]; simp) ?_
        fun _ => grows.trans calm.log
      have semicolon : last.kind = .semicolon := by rw [← ends]; exact completes.2
      rw [braceDepth_append, level, braceDepth_plain (by simp [semicolon]) (by simp [semicolon])]
      rw [shape_finishDo]
      exact nested
    next =>
      have said : s.Calm (s.report (SyntaxFault.doWithoutWhile false) first) :=
        s.calm_report first rfl
      have calm := said.trans (calm_flushDo _)
      rw [← calm.remaining] at found
      refine statementOrBrace_lands found ?_ (grows.trans calm.log)
      rw [shape_flushDo]
      exact nested

theorem step_lands (stepped : s.step = some t) (nested : Nested s.shape depth) :
    t.Lands s.remaining s.log depth := by
  unfold step at stepped
  split at stepped
  next => cases stepped
  next head tail remaining =>
    rw [remaining]
    generalize found : Chunk.next head tail = next at stepped
    obtain ⟨chunk, later⟩ := next
    have breaks : ∀ {fault : Fault} {place : Token}, fault.ofBrace = false →
        chunk.breaksOff = true →
        AnalysisState.Lands (head :: tail) s.log depth
          ({ s with remaining := later }.report fault place) := by
      intro fault place plain breaks
      obtain ⟨front, whole, unended⟩ := Chunk.next_breaksOff found breaks
      have shorter := Chunk.length_next head tail
      have nonempty : front ≠ [] := by
        rintro rfl
        rw [found, ← List.nil_append later, ← whole, List.length_cons] at shorter
        omega
      refine .nested front nonempty whole ?_ fun _ => .report .error place .refl plain
      rw [braceDepth_open unended]
      exact nested
    cases chunk with
    | endsAtBrace => cases stepped; exact breaks rfl rfl
    | endsAtInput => cases stepped; exact breaks rfl rfl
    | statement first rest =>
        cases stepped
        exact statement_lands (s := { s with remaining := later }) found nested .refl

end AnalysisState

end MiLanguage
