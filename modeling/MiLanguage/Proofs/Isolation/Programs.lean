import MiLanguage.Proofs.Diagnostic.Limit
import MiLanguage.Proofs.Isolation.Storing

set_option autoImplicit false

namespace MiLanguage

namespace AnalysisState

variable {first last s : AnalysisState} {m : Relocation}

theorem InStep.downTo (inStep : InStep first last s) (left : Nat) :
    InStep first last (s.downTo left) :=
  downTo_invariant (P := InStep first last) inStep fun _ _ inStep _ stepped =>
    inStep.reaches (step_reaches inStep.pass stepped)

theorem InStep.proper (inStep : InStep first last s) : s.environment.modules.Proper := by
  obtain ⟨p, -, scouts, -⟩ := inStep.place
  exact inStep.built.fills.proper scouts.proper.1

theorem InStep.placed (inStep : InStep first last s)
    (bare : s.environment.frame.isBlock = false) : Title.Outside s.environment.titles := by
  obtain ⟨p, -, meets⟩ := inStep.outside bare
  exact meets.outside

-- Without a limit, what has been reported stays reported.
theorem downTo_log (free : s.log.maxErrors = 0) (left : Nat) :
    (s.downTo left).log.maxErrors = 0 ∧
      ∃ later, (s.downTo left).log.entries = s.log.entries ++ later := by
  refine downTo_invariant (P := fun t => t.log.maxErrors = 0 ∧
    ∃ later, t.log.entries = s.log.entries ++ later) ⟨free, [], (List.append_nil _).symm⟩ ?_
  rintro u v ⟨unlimited, later, entries⟩ - stepped
  obtain ⟨ds, -, writes⟩ := blind_step u
  have log : v.log = u.log.reportAll ds := by
    have step := congrArg AnalysisState.log (writes u.log)
    rw [show u.withLog u.log = u from rfl] at step
    simpa only [stepped, Option.getD_some, log_withLog] using step
  rw [log, DiagnosticLog.reportAll_unlimited unlimited]
  exact ⟨unlimited, later ++ ds, by rw [entries, List.append_assoc]⟩

theorem facing_of_remaining {text : List Token} (remaining : s.remaining = text) :
    s.facing text = s := by
  rw [← remaining]
  rfl

theorem downTo_facing (s : AnalysisState) (text : List Token) :
    (s.facing text).downTo text.length = s.facing text :=
  downTo_of_le (Nat.le_refl _)

theorem readOn_move (left bound : Nat) (s : AnalysisState) :
    readOn left bound (move m s) = move m (readOn left bound s) := by
  induction bound generalizing s with
  | zero => rfl
  | succ bound ih =>
      unfold readOn
      rw [remaining_move, length_move, step_move]
      refine ite_move rfl ?_
      cases s.step with
      | none => rfl
      | some t => exact ih t

theorem downTo_move (left : Nat) (s : AnalysisState) :
    (move m s).downTo left = move m (s.downTo left) := by
  unfold downTo
  rw [remaining_move, length_move, readOn_move]

end AnalysisState

namespace FunctionText

-- The same program with another text in the body.
def withBody (t : FunctionText) (body : List Token) (balanced : closesAll 0 body = true) :
    FunctionText :=
  { t with body, balanced }

section Runs

variable (t : FunctionText) (host : Host)

def declarations : AnalysisState :=
  Analysis.runPass ⟨.declarations, host⟩ .empty { maxErrors := 0 } t.program

def bodies : AnalysisState :=
  Analysis.runPass ⟨.bodies, host⟩ (t.declarations host).environment.modules
    (t.declarations host).log t.program

-- The second pass behind the brace that opens the body.
def entered : AnalysisState := (Analysis.bodiesStart host 0 t.program).downTo t.inner.length

-- The second pass behind the brace that closes it.
def left : AnalysisState := (Analysis.bodiesStart host 0 t.program).downTo t.after.length

-- No statement of the body stores to a global or a field, unless it is `mut`.
def StoresToMutable : Prop := (t.entered host).StoresToMutable t.after.length

instance : Decidable (t.StoresToMutable host) :=
  inferInstanceAs (Decidable ((t.entered host).StoresToMutable t.after.length))

theorem head?_program : t.program.head? = (t.before ++ t.heading ++ [t.opening]).head? := by
  unfold program text
  cases t.before <;> cases t.heading <;> rfl

theorem getLast?_program : t.program.getLast? = (t.closing :: t.after).getLast? := by
  unfold program text inner
  simp only [List.getLast?_append, List.getLast?_cons, Option.some_or, Option.getD_some]

theorem length_inner : t.after.length < t.inner.length := by
  rw [inner, List.length_append, List.length_cons]
  omega

theorem length_text : t.inner.length < t.text.length := by
  rw [text, List.length_append, List.length_cons]
  omega

theorem bodies_eq : t.bodies host =
    ((t.left host).downTo 0).finish (t.closing :: t.after).getLast? := by
  have enough : (Analysis.bodiesStart host 0 t.program).remaining.length ≤ t.program.length :=
    Nat.le_refl _
  unfold bodies left
  rw [AnalysisState.downTo_downTo (Nat.zero_le _), ← getLast?_program,
    ← AnalysisState.steps_eq_downTo enough]
  rfl

end Runs

section Bodies

variable {t : FunctionText} {body : List Token} {balanced : closesAll 0 body = true}

theorem ahead_start (setting : Setting) (modules : ModuleTree) (log : DiagnosticLog) :
    AnalysisState.Ahead t.text (t.withBody body balanced).text
      (Analysis.startPass setting modules log t.program)
      (Analysis.startPass setting modules log (t.withBody body balanced).program) := by
  refine ⟨t.before, t.whole, rfl, ?_⟩
  have head : (t.withBody body balanced).program.head? = t.program.head? := by
    rw [head?_program, head?_program]
    rfl
  unfold Analysis.startPass
  rw [head]
  rfl

theorem level (depth : Nat) :
    Chunk.skipBlock depth t.text = Chunk.skipBlock depth (t.withBody body balanced).text :=
  (t.skipBlock_text depth).trans ((t.withBody body balanced).skipBlock_text depth).symm

theorem short (depth : Nat) (rest : List Token) (skipped : Chunk.skipBlock depth t.text = some rest) :
    rest.length ≤ t.after.length := by
  rw [skipBlock_text] at skipped
  exact Nat.le_of_lt (Chunk.length_skipBlock skipped)

-- The first pass skips the body.
theorem step_declaring {s : AnalysisState} (pass : s.declaring = true) :
    ∃ v, ∀ u : FunctionText, u.heading = t.heading → u.opening = t.opening → u.after = t.after →
      (s.facing u.text).step = some v := by
  obtain ⟨first, rest, -, heading, steps⟩ := t.exists_heading
  obtain ⟨v, brace, skips⟩ := heading.skips_statement s pass
  refine ⟨v.facing t.after, fun u same same' after => ?_⟩
  rw [text, same, same', steps, skips, AnalysisState.skipBlock_facing, u.skipBlock_inner, after]

theorem downTo_declaring (setting : Setting) (modules : ModuleTree) (log : DiagnosticLog)
    (pass : setting.declaring = true) :
    (Analysis.startPass setting modules log (t.withBody body balanced).program).downTo 0 =
      (Analysis.startPass setting modules log t.program).downTo 0 := by
  generalize mine : Analysis.startPass setting modules log t.program = s
  generalize theirs : Analysis.startPass setting modules log (t.withBody body balanced).program = s'
  have ahead := @ahead_start t body balanced setting modules log
  rw [mine, theirs] at ahead
  have declaring : (s.downTo t.text.length).declaring = true := by
    unfold AnalysisState.declaring
    rw [AnalysisState.downTo_setting, ← mine]
    exact pass
  rw [← AnalysisState.downTo_downTo (s := s') (Nat.zero_le (t.withBody body balanced).text.length),
    ← AnalysisState.downTo_downTo (s := s) (Nat.zero_le t.text.length)]
  rcases AnalysisState.downTo_ahead level short ahead with ⟨here, there⟩ | ⟨same, -⟩
  · obtain ⟨v, steps⟩ := @step_declaring t _ declaring
    have more (u : FunctionText) : 0 < u.text.length :=
      Nat.lt_of_le_of_lt (Nat.zero_le _) u.length_text
    have first := steps t rfl rfl rfl
    have second := steps (t.withBody body balanced) rfl rfl rfl
    rw [there, AnalysisState.downTo_of_step second (more _)]
    rw [AnalysisState.facing_of_remaining here] at first
    rw [AnalysisState.downTo_of_step first (by rw [here]; exact more t)]
  · rw [same]

theorem declarations_withBody (host : Host) :
    (t.withBody body balanced).declarations host = t.declarations host := by
  unfold declarations Analysis.runPass
  have enough (u : FunctionText) :
      (Analysis.startPass ⟨.declarations, host⟩ .empty { maxErrors := 0 } u.program).remaining.length ≤
        u.program.length := Nat.le_refl _
  rw [AnalysisState.steps_eq_downTo (enough _), AnalysisState.steps_eq_downTo (enough t),
    downTo_declaring ⟨.declarations, host⟩ _ _ rfl, getLast?_program, getLast?_program]
  rfl

theorem bodiesStart_withBody (host : Host) :
    Analysis.bodiesStart host 0 (t.withBody body balanced).program =
      Analysis.startPass ⟨.bodies, host⟩ (t.declarations host).environment.modules
        (t.declarations host).log (t.withBody body balanced).program := by
  rw [← @declarations_withBody t body balanced]
  rfl

variable {host : Host}

theorem enters (clean : (t.declarations host).Clean) :
    ((t.withBody body balanced).entered host = t.entered host ∧
        (t.entered host).remaining.length ≤ t.after.length) ∨
      ∃ home outer, AnalysisState.Opens (t.entered host) home outer ∧
        (t.entered host).remaining = t.inner ∧
        (t.withBody body balanced).entered host =
          (t.entered host).facing (t.withBody body balanced).inner := by
  have inStep := (Analysis.inStep_start clean).downTo t.text.length
  have ahead : AnalysisState.Ahead t.text (t.withBody body balanced).text
      (Analysis.bodiesStart host 0 t.program)
      (Analysis.bodiesStart host 0 (t.withBody body balanced).program) := by
    rw [bodiesStart_withBody]
    exact ahead_start _ _ _
  rw [entered, entered,
    ← AnalysisState.downTo_downTo (s := Analysis.bodiesStart host 0 t.program)
      (Nat.le_of_lt t.length_text),
    ← AnalysisState.downTo_downTo
      (s := Analysis.bodiesStart host 0 (t.withBody body balanced).program)
      (Nat.le_of_lt (t.withBody body balanced).length_text)]
  rcases AnalysisState.downTo_ahead level short ahead with ⟨here, there⟩ | ⟨same, few⟩
  · generalize (Analysis.bodiesStart host 0 t.program).downTo t.text.length = s at *
    obtain ⟨first, rest, -, heading, steps⟩ := t.exists_heading
    obtain ⟨v, home, outer, -, opens, reads⟩ := heading.opens_statement s inStep.pass inStep.placed
    have mine := steps s t.inner
    rw [reads, show t.heading ++ t.opening :: t.inner = t.text from rfl,
      AnalysisState.facing_of_remaining here] at mine
    have theirs : (s.facing (t.withBody body balanced).text).step =
        some (v.facing (t.withBody body balanced).inner) :=
      (steps s _).trans (congrArg some (reads _))
    rw [there, AnalysisState.downTo_of_step mine (by rw [here]; exact t.length_text),
      AnalysisState.downTo_of_step theirs (t.withBody body balanced).length_text,
      AnalysisState.downTo_facing, AnalysisState.downTo_facing]
    exact .inr ⟨home, outer, ⟨opens.scopes, opens.function, opens.some, opens.single⟩, rfl, rfl⟩
  · have within := Nat.le_trans few (Nat.le_of_lt t.length_inner)
    have within' := Nat.le_trans few (Nat.le_of_lt (t.withBody body balanced).length_inner)
    rw [same, AnalysisState.downTo_of_le within, AnalysisState.downTo_of_le within']
    exact .inl ⟨rfl, few⟩

theorem left_eq (t : FunctionText) (host : Host) :
    t.left host = (t.entered host).downTo t.after.length :=
  (AnalysisState.downTo_downTo (Nat.le_of_lt t.length_inner)).symm

theorem entered_log (t : FunctionText) (host : Host) :
    (t.entered host).log.maxErrors = 0 ∧
      ∃ inside, (t.left host).log.entries = (t.entered host).log.entries ++ inside := by
  have free : (Analysis.bodiesStart host 0 t.program).log.maxErrors = 0 := by
    obtain ⟨s, ds, -, writes⟩ := Analysis.runPass_blind ⟨.declarations, host⟩ .empty t.program
    show (Analysis.runPass _ _ _ _).log.maxErrors = 0
    rw [writes, AnalysisState.log_withLog, DiagnosticLog.reportAll_unlimited rfl]
  have entered := (AnalysisState.downTo_log free t.inner.length).1
  rw [left_eq]
  exact ⟨entered, (AnalysisState.downTo_log entered t.after.length).2⟩

-- From the brace on that opens the body.
theorem reading {start : AnalysisState} {home : Scope} {outer : List Scope}
    (opens : AnalysisState.Opens start home outer) (text : start.remaining = t.inner) :
    AnalysisState.Reading start home outer t.after 0 start := by
  have kept : home.Continued home := by
    refine Scope.continued_refl ?_
    have function := opens.function
    cases frame : home.frame with
    | block => rfl
    | _ => rw [frame] at function; simp [Frame.isFunction, Frame.blockKind?] at function
  have scopes : start.environment.Enclosed home outer 0 := by
    unfold Environment.Enclosed
    rw [opens.scopes]
    exact .body kept (.refl outer)
  exact ⟨⟨rfl, .refl, rfl, scopes, .refl⟩, by rw [text]; exact t.skipBlock_inner⟩

-- Through the brace that closes it.
theorem finished {start : AnalysisState} {home : Scope} {outer : List Scope}
    (opens : AnalysisState.Opens start home outer) (text : start.remaining = t.inner)
    (pass : start.setting.declaring = false) :
    AnalysisState.Finished start home outer t.after (start.downTo t.after.length) :=
  (reading opens text).finished opens.function pass opens.some

-- What is not `mut` has after the body the mark that it had before.
theorem StoresToMutable.spares (clean : (t.declarations host).Clean) (stores : t.StoresToMutable host) :
    (t.entered host).environment.Spares (t.left host).environment := by
  have inStep := (Analysis.inStep_start clean).downTo t.inner.length
  rw [left_eq]
  rcases @enters t t.body t.balanced host clean with ⟨-, few⟩ | ⟨home, outer, opens, text, -⟩
  · rw [AnalysisState.downTo_of_le few]
    exact (Environment.keepsMarks_refl _).spares
  · exact (reading opens text).spares opens.function inStep.pass opens.some stores

theorem left_like (clean : (t.declarations host).Clean) (stores : t.StoresToMutable host)
    (stores' : (t.withBody body balanced).StoresToMutable host) :
    ∃ run others, (t.left host).Like
      (.contained (t.entered host).environment.scopes.current.node run others
        (t.entered host).environment.bodyOwner? (t.left host).log.entries
        ((t.withBody body balanced).left host).log.entries)
      ((t.withBody body balanced).left host) := by
  have inStep := (Analysis.inStep_start clean).downTo t.inner.length
  have free := (entered_log t host).1
  have spares := stores.spares clean
  have spares' := stores'.spares (by rw [declarations_withBody]; exact clean)
  rw [left_eq] at spares spares' ⊢
  rw [left_eq]
  rcases @enters t body balanced host clean with ⟨same, few⟩ | ⟨home, outer, opens, text, same⟩
  · rw [same, AnalysisState.downTo_of_le few, AnalysisState.downTo_of_le (by exact few)]
    exact ⟨[], [], AnalysisState.like_refl inStep.pass inStep.proper free⟩
  · rw [same] at spares' ⊢
    have mine := finished opens text inStep.pass
    have theirs := @finished (t.withBody body balanced)
      ((t.entered host).facing (t.withBody body balanced).inner) home outer
      ⟨opens.scopes, opens.function, opens.some, opens.single⟩ rfl inStep.pass
    obtain ⟨run, others, idle⟩ := mine.contained theirs opens inStep.pass inStep.proper free spares spares'
    have current : (t.entered host).environment.scopes.current = home := by
      obtain ⟨below, all, -⟩ := (t.entered host).environment.scopes.all_eq_current
      rw [opens.scopes] at all
      exact (List.cons.inj all).1.symm
    rw [current]
    exact ⟨run, others, idle.like⟩

end Bodies

end FunctionText

/-- A second pass where it has opened a body, where it has closed it, and at its end. -/
structure SecondPass where
  entered : AnalysisState
  left : AnalysisState
  last : AnalysisState

namespace SecondPass

-- The node of the function, as it is before anything of the body has been read.
def header (p : SecondPass) : Node := p.entered.environment.scopes.current.node

-- The function that the body is stored in, if the heading has been accepted.
def owner (p : SecondPass) : Option BodyOwner := p.entered.environment.bodyOwner?

/-- Two passes are the same but for the node of one function and its stored body, in which `run` and
`others` differ, the marks of variables that are `mut`, and what is reported inside of the body. -/
structure Alike (p q : SecondPass) (run others : List Node) (inside inside' late : List Diagnostic) :
    Prop where
  root : q.last.root = p.last.root ∨ Node.Rebodied p.header run others p.last.root q.last.root
  modules : p.last.environment.modules.Like
    (.contained p.header run others p.owner p.left.log.entries q.left.log.entries)
    q.last.environment.modules
  entered : q.entered.log.entries = p.entered.log.entries
  left : p.left.log.entries = p.entered.log.entries ++ inside ∧
    q.left.log.entries = q.entered.log.entries ++ inside'
  last : p.last.log.entries = p.left.log.entries ++ late ∧
    q.last.log.entries = q.left.log.entries ++ late

instance : Movable SecondPass := ⟨fun m p => ⟨move m p.entered, move m p.left, move m p.last⟩⟩

end SecondPass

namespace FunctionText

def secondPass (t : FunctionText) (host : Host) : SecondPass :=
  ⟨t.entered host, t.left host, t.bodies host⟩

variable {t : FunctionText} {body : List Token} {balanced : closesAll 0 body = true} {host : Host}

-- The same outside of the body, token for token.
theorem secondPass_withBody (clean : (t.declarations host).Clean) (stores : t.StoresToMutable host)
    (stores' : (t.withBody body balanced).StoresToMutable host) :
    ∃ run others inside inside' late, (t.secondPass host).Alike
      ((t.withBody body balanced).secondPass host) run others inside inside' late := by
  obtain ⟨run, others, like⟩ := left_like clean stores stores'
  obtain ⟨-, inside, mine⟩ := entered_log t host
  obtain ⟨-, inside', theirs⟩ := entered_log (t.withBody body balanced) host
  have idle := (like.downTo 0).finish (t.closing :: t.after).getLast?
  rw [← bodies_eq, show ((t.withBody body balanced).left host |>.downTo 0).finish
    (t.closing :: t.after).getLast? = (t.withBody body balanced).bodies host from
    (bodies_eq (t.withBody body balanced) host).symm] at idle
  have pass : (t.bodies host).declaring = false := by
    unfold AnalysisState.declaring
    rw [bodies_eq, AnalysisState.finish_setting, AnalysisState.downTo_setting, left,
      AnalysisState.downTo_setting]
    rfl
  obtain ⟨-, -, late, ended, ended'⟩ := idle.log
  refine ⟨run, others, inside, inside', late, idle.root pass, idle.environment.modules, ?_,
    ⟨mine, theirs⟩, ended, ended'⟩
  rcases @enters t body balanced host clean with ⟨same, -⟩ | ⟨home, outer, -, -, same⟩
  · exact congrArg (·.log.entries) same
  · exact congrArg (·.log.entries) same

end FunctionText

section Places

variable {m : Relocation}

theorem closesAll_move (depth : Nat) (tokens : List Token) :
    closesAll depth (move m tokens) = closesAll depth tokens := by
  induction tokens generalizing depth with
  | nil => rfl
  | cons t rest ih => simp only [move_cons, closesAll, kind_move, ih]

theorem toOption_move {α : Type} [Movable α] (x : Checked α) : (move m x).toOption = move m x.toOption := by
  cases x <;> rfl

theorem loopTarget?_move (keyword : Token) (tokens : List Token) :
    loopTarget? (move m keyword) (move m tokens) = move m (loopTarget? keyword tokens) := by
  unfold loopTarget?
  rw [dropLastOf_move, toOption_move]
  refine option_bind_move (fun header => ?_) _
  rw [unwrap_move]
  refine option_bind_move (fun (opening, inner) => ?_) _
  show ((ForHead.read (move m keyword) (move m inner)).toOption >>= _) = _
  rw [forHead_move, toOption_move]
  refine option_bind_move (fun head => ?_) _
  rw [show (move m head).start = move m head.start from rfl,
    show (move m head).step = move m head.step from rfl, LeadingModifiers.read_move, toOption_move]
  refine option_bind_move (fun (mods, definition) => ?_) _
  rw [head?_move]
  refine option_bind_move (fun target => ?_) _
  rw [tail_move, head?_move]
  refine option_bind_move (fun op => ?_) _
  have name : (move m definition).tail.head?.map Token.lexeme = definition.tail.head?.map Token.lexeme := by
    rw [tail_move, head?_move]
    cases definition.tail.head? <;> rfl
  dsimp only
  rw [kind_move, lexeme_move, name]
  exact ite_move rfl rfl

theorem storeTarget?_move (first : Token) (rest : List Token) :
    storeTarget? (move m first) (move m rest) = move m (storeTarget? first rest) := by
  unfold storeTarget?
  rw [← move_cons, LeadingModifiers.read_move, toOption_move]
  refine option_bind_move (fun (mods, tokens) => ?_) _
  show ((move m tokens).head? >>= _) = _
  rw [head?_move]
  refine option_bind_move (fun head => ?_) _
  have assigns : (move m tokens).tail.head?.any (·.kind.isAssignment) =
      tokens.tail.head?.any (·.kind.isAssignment) := by
    rw [tail_move, head?_move]
    exact option_any_move (fun _ => rfl) _
  dsimp only
  rw [is_move, is_move, assigns, tail_move, loopTarget?_move]
  exact ite_move (ite_move rfl rfl) (ite_move rfl rfl)

theorem Environment.StoresToMutable.move {env : Environment} {first : Token} {rest : List Token}
    (stores : env.StoresToMutable first rest) :
    (MiLanguage.move m env).StoresToMutable (MiLanguage.move m first) (MiLanguage.move m rest) := by
  intro target v stored resolved outside
  rw [storeTarget?_move] at stored
  obtain ⟨word, here, rfl⟩ := Option.map_eq_some_iff.mp stored
  rw [Environment.resolveVariable_move] at resolved
  cases found : env.resolveVariable word with
  | error => rw [found] at resolved; cases resolved
  | ok w =>
      rw [found] at resolved
      cases resolved
      exact stores word w here found outside

theorem AnalysisState.StoresToMutable.move {s : AnalysisState} {left : Nat}
    (stores : s.StoresToMutable left) : (MiLanguage.move m s).StoresToMutable left := by
  intro count first rest later more takes
  rw [steps_move] at more takes ⊢
  rw [remaining_move, length_move] at more
  obtain ⟨head, tail, remaining, found⟩ := takes
  rw [remaining_move] at remaining
  cases here : (steps count s).remaining with
  | nil => rw [here] at remaining; cases remaining
  | cons head' tail' =>
      rw [here] at remaining
      cases remaining
      have found : MiLanguage.move m (Chunk.next head' tail') = (.statement first rest, later) :=
        (Chunk.next_move head' tail').symm.trans found
      generalize taken : Chunk.next head' tail' = next at found
      obtain ⟨chunk, beyond⟩ := next
      cases chunk with
      | statement first' rest' =>
          cases found
          exact (stores count first' rest' beyond more ⟨head', tail', here, taken⟩).move
      | endsAtBrace | endsAtInput => cases found

namespace FunctionText

-- The same program with its tokens in other places.
def relocate (m : Relocation) (t : FunctionText) : FunctionText where
  before := move m t.before
  heading := move m t.heading
  opening := move m t.opening
  body := move m t.body
  closing := move m t.closing
  after := move m t.after
  whole := by
    intro token last
    rw [getLast?_move] at last
    obtain ⟨other, here, rfl⟩ := Option.map_eq_some_iff.mp last
    exact t.whole other here
  plain := by
    intro token member
    obtain ⟨other, here, rfl⟩ := List.mem_map.mp member
    exact t.plain other here
  names := by
    rw [find?_move fun _ => rfl, option_any_move fun _ => rfl]
    exact t.names
  opens := t.opens
  balanced := (closesAll_move 0 t.body).trans t.balanced
  closes := t.closes

variable (t : FunctionText) (host : Host)

theorem inner_relocate : (t.relocate m).inner = move m t.inner := by
  simp only [inner, relocate, move_append, move_cons]

theorem program_relocate : (t.relocate m).program = move m t.program := by
  simp only [program, text, inner, relocate, move_append, move_cons]

theorem declarations_relocate : (t.relocate m).declarations host = move m (t.declarations host) := by
  unfold declarations
  rw [program_relocate, ← Analysis.runPass_move, ModuleTree.empty_move]
  rfl

theorem start_relocate : Analysis.bodiesStart host 0 (t.relocate m).program =
    move m (Analysis.bodiesStart host 0 t.program) := by
  have declares := t.declarations_relocate host (m := m)
  unfold declarations at declares
  unfold Analysis.bodiesStart
  rw [declares, program_relocate, ← Analysis.startPass_move]
  rfl

theorem secondPass_relocate : (t.relocate m).secondPass host = move m (t.secondPass host) := by
  have entered : (t.relocate m).entered host = move m (t.entered host) := by
    unfold FunctionText.entered
    rw [start_relocate, inner_relocate, length_move, AnalysisState.downTo_move]
  have left : (t.relocate m).left host = move m (t.left host) := by
    unfold FunctionText.left
    rw [start_relocate, show (t.relocate m).after = move m t.after from rfl, length_move,
      AnalysisState.downTo_move]
  have last : (t.relocate m).bodies host = move m (t.bodies host) := by
    unfold bodies
    rw [declarations_relocate, program_relocate, ← Analysis.runPass_move]
    rfl
  unfold secondPass
  rw [entered, left, last]
  rfl

theorem StoresToMutable.relocate {t : FunctionText} {host : Host} (stores : t.StoresToMutable host) :
    (t.relocate m).StoresToMutable host := by
  unfold StoresToMutable
  rw [show (t.relocate m).entered host = _ from congrArg SecondPass.entered (t.secondPass_relocate host),
    show (t.relocate m).after = move m t.after from rfl, length_move]
  exact AnalysisState.StoresToMutable.move stores

/-- The same tokens outside of the two bodies, but for where they stand. -/
structure SameAround (t u : FunctionText) : Prop where
  before : move .nowhere u.before = move .nowhere t.before
  heading : move .nowhere u.heading = move .nowhere t.heading
  opening : move .nowhere u.opening = move .nowhere t.opening
  closing : move .nowhere u.closing = move .nowhere t.closing
  after : move .nowhere u.after = move .nowhere t.after

theorem SameAround.withBody {t u : FunctionText} (around : t.SameAround u) :
    u.relocate .nowhere =
      (t.relocate .nowhere).withBody (u.relocate .nowhere).body (u.relocate .nowhere).balanced := by
  simp only [relocate, FunctionText.withBody, around.before, around.heading, around.opening,
    around.closing, around.after]

/-- What is in the body of a function has no effect on what is outside of it, however malformed it
is. The first pass reports and declares the same. If it is clean, and neither body stores to a global
or a field that is not `mut`, then the second pass builds the same tree and modules and reports the
same, the function's own node and stored body and the reports inside of it aside. -/
theorem body_contained (host : Host) (t u : FunctionText) (around : t.SameAround u) :
    move .nowhere (u.declarations host).log = move .nowhere (t.declarations host).log ∧
    move .nowhere (u.declarations host).environment.modules =
      move .nowhere (t.declarations host).environment.modules ∧
    ((t.declarations host).log.failed = false → t.StoresToMutable host → u.StoresToMutable host →
      ∃ run others inside inside' late, (move .nowhere (t.secondPass host)).Alike
        (move .nowhere (u.secondPass host)) run others inside inside' late) := by
  have declares : move .nowhere (u.declarations host) = move .nowhere (t.declarations host) := by
    rw [← declarations_relocate, ← declarations_relocate, around.withBody, declarations_withBody]
  refine ⟨congrArg AnalysisState.log declares,
    congrArg (·.environment.modules) declares, fun clean stores stores' => ?_⟩
  have clean' : ((t.relocate .nowhere).declarations host).Clean := by
    rw [declarations_relocate]
    exact clean
  have stores' := stores'.relocate (m := .nowhere)
  rw [around.withBody] at stores'
  have alike := secondPass_withBody clean' stores.relocate stores'
  rw [← around.withBody, secondPass_relocate, secondPass_relocate] at alike
  exact alike

-- The program `module m { int k = 3; mut int g; class c { int a; mut int b; fn f { … } fn h :: int
-- { ret a; } } }`, with this body of `f`.
def amidst (body : List Token) (balanced : closesAll 0 body = true) : FunctionText where
  before := [.alone (.keyword .module) "module", .alone .identifier "m", .alone .leftBrace "\x7b",
    .alone (.datatype .int) "int", .alone .identifier "k", .alone .assign "=",
    .alone (.literal .int) "3", .alone .semicolon ";",
    .alone (.modifier .mut) "mut", .alone (.datatype .int) "int", .alone .identifier "g",
    .alone .semicolon ";",
    .alone (.keyword .«class») "class", .alone .identifier "c", .alone .leftBrace "\x7b",
    .alone (.datatype .int) "int", .alone .identifier "a", .alone .semicolon ";",
    .alone (.modifier .mut) "mut", .alone (.datatype .int) "int", .alone .identifier "b",
    .alone .semicolon ";"]
  heading := [.alone (.keyword .fn) "fn", .alone .identifier "f"]
  opening := .alone .leftBrace "\x7b"
  body := body
  closing := .alone .rightBrace "\x7d"
  after := [.alone (.keyword .fn) "fn", .alone .identifier "h", .alone .doubleColon "::",
    .alone (.datatype .int) "int", .alone .leftBrace "\x7b", .alone (.keyword .ret) "ret",
    .alone .identifier "a", .alone .semicolon ";", .alone .rightBrace "\x7d",
    .alone .rightBrace "\x7d", .alone .rightBrace "\x7d"]
  whole := by decide
  plain := by
    unfold Outline.Plain
    decide
  names := by decide
  opens := rfl
  balanced := balanced
  closes := rfl

-- The body `b = k; for (int i = 0, i -> 3) { g = i; }`.
def storing : FunctionText :=
  amidst [.alone .identifier "b", .alone .assign "=", .alone .identifier "k", .alone .semicolon ";",
    .alone (.keyword .for) "for", .alone .leftParen "(", .alone (.datatype .int) "int",
    .alone .identifier "i", .alone .assign "=", .alone (.literal .int) "0", .alone .comma ",",
    .alone .identifier "i", .alone .arrow "->", .alone (.literal .int) "3", .alone .rightParen ")",
    .alone .leftBrace "\x7b", .alone .identifier "g", .alone .assign "=", .alone .identifier "i",
    .alone .semicolon ";", .alone .rightBrace "\x7d"] (by decide)

-- The body `use q; do { if ( fn { b = a; ret 1 } int }`, in which little is right but the braces.
def malformed : FunctionText :=
  amidst [.alone (.keyword .use) "use", .alone .identifier "q", .alone .semicolon ";",
    .alone (.keyword .«do») "do", .alone .leftBrace "\x7b", .alone (.keyword .«if») "if",
    .alone .leftParen "(", .alone (.keyword .fn) "fn", .alone .leftBrace "\x7b",
    .alone .identifier "b", .alone .assign "=", .alone .identifier "a", .alone .semicolon ";",
    .alone (.keyword .ret) "ret", .alone (.literal .int) "1", .alone .rightBrace "\x7d",
    .alone (.datatype .int) "int", .alone .rightBrace "\x7d"] (by decide)

theorem malformed_contained :
    (storing.bodies {}).log.entries.length = 0 ∧ (malformed.bodies {}).log.errorCount = 5 ∧
      storing.StoresToMutable {} ∧ malformed.StoresToMutable {} ∧
      ∃ run others inside inside' late, (move .nowhere (storing.secondPass {})).Alike
        (move .nowhere (malformed.secondPass {})) run others inside inside' late := by
  have around : storing.SameAround malformed := ⟨rfl, rfl, rfl, rfl, rfl⟩
  have clean : (storing.declarations {}).log.failed = false := by decide +kernel
  have stores : storing.StoresToMutable {} := by decide +kernel
  have stores' : malformed.StoresToMutable {} := by decide +kernel
  exact ⟨by decide +kernel, by decide +kernel, stores, stores',
    (body_contained {} storing malformed around).2.2 clean stores stores'⟩

end FunctionText

end Places

end MiLanguage
