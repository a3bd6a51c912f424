import MiLanguage.Proofs.Passes.Again
import MiLanguage.Proofs.Passes.Agreement

set_option autoImplicit false

namespace MiLanguage

section Blocks

variable {tokens beyond : List Token} {inner : Nat}

-- What is open around a block counts on behind it.
theorem Chunk.skipBlock_inside (skipped : Chunk.skipBlock inner tokens = some beyond) (depth : Nat) :
    Chunk.skipBlock (inner + (depth + 1)) tokens = Chunk.skipBlock depth beyond := by
  induction tokens generalizing inner with
  | nil => cases skipped
  | cons t rest ih =>
      by_cases left : t.kind = .leftBrace
      · rw [Chunk.skipBlock_leftBrace left] at skipped ⊢
        rw [← ih skipped]
        congr 1
        omega
      · by_cases right : t.kind = .rightBrace
        · rw [← Nat.add_assoc, Chunk.skipBlock_rightBrace right]
          cases inner with
          | zero =>
              simp only [Chunk.skipBlock, right, Option.some.injEq] at skipped
              rw [skipped, Nat.zero_add]
          | succ inner =>
              rw [Chunk.skipBlock_rightBrace right] at skipped
              rw [← ih skipped]
              congr 1
              omega
        · rw [Chunk.skipBlock_plain left right] at skipped ⊢
          exact ih skipped

theorem Chunk.skipBlock_endless (endless : Chunk.skipBlock inner tokens = none) (depth : Nat) :
    Chunk.skipBlock (inner + depth) tokens = none := by
  induction tokens generalizing inner with
  | nil => rfl
  | cons t rest ih =>
      by_cases left : t.kind = .leftBrace
      · rw [Chunk.skipBlock_leftBrace left] at endless ⊢
        rw [← ih endless]
        congr 1
        omega
      · by_cases right : t.kind = .rightBrace
        · cases inner with
          | zero => simp [Chunk.skipBlock, right] at endless
          | succ inner =>
              rw [Chunk.skipBlock_rightBrace right] at endless
              rw [Nat.add_right_comm, Chunk.skipBlock_rightBrace right]
              exact ih endless
        · rw [Chunk.skipBlock_plain left right] at endless ⊢
          exact ih endless

theorem Chunk.skipBlock_breaksOff {head : Token} {tail later : List Token} {chunk : Chunk}
    (found : Chunk.next head tail = (chunk, later)) (breaks : chunk.breaksOff = true) (depth : Nat) :
    Chunk.skipBlock depth (head :: tail) = Chunk.skipBlock depth later := by
  obtain ⟨front, whole, plain⟩ := Chunk.next_breaksOff found breaks
  rw [whole]
  exact Chunk.skipBlock_append plain depth later

end Blocks

/-- What is open in a body that is read, whatever of it is rejected: the scope of the function, and
those of `depth` braces inside of its own. -/
inductive Inner : Nat → List Sketch → Prop
  | body {discard : Bool} : Inner 0 [⟨.block .function, false, discard⟩]
  | block {kind : BlockKind} {discard : Bool} {depth : Nat} {rest : List Sketch} :
      kind ≠ .loopHead → (kind = .forLoop → discard = true) → Inner depth rest →
      Inner (depth + 1) (⟨.block kind, false, discard⟩ :: rest)
  | loop {depth : Nat} {rest : List Sketch} :
      Inner depth rest →
      Inner (depth + 1) (⟨.block .forLoop, false, false⟩ :: ⟨.block .loopHead, false, false⟩ :: rest)

theorem Inner.head {depth : Nat} {inner : List Sketch} (inside : Inner depth inner) :
    ∃ kind discard rest, inner = ⟨.block kind, false, discard⟩ :: rest := by
  cases inside with
  | body => exact ⟨_, _, _, rfl⟩
  | block => exact ⟨_, _, _, rfl⟩
  | loop => exact ⟨_, _, _, rfl⟩

theorem Inner.opens {depth : Nat} {inner new : List Sketch} (inside : Inner depth inner)
    (opens : Opening true new) : Inner (depth + 1) (new ++ inner) := by
  cases opens with
  | block kind => exact .block (by rintro rfl; simp at kind) (by rintro rfl; simp at kind) inside
  | loop => exact .loop inside

@[simp] theorem Scope.sketch_fulfilled (s : Scope) : s.fulfilled.sketch = s.sketch := by
  unfold Scope.sketch Scope.fulfilled
  cases s.frame <;> rfl

theorem Scope.title_fulfilled (s : Scope) : s.fulfilled.frame.title = s.frame.title :=
  congrArg Sketch.title s.sketch_fulfilled

theorem Frame.isBlock_of_title {frame : Frame} {kind : BlockKind} (title : frame.title = .block kind) :
    frame.isBlock = true := by
  cases frame <;> first | rfl | cases title

namespace AnalysisState

variable {p p' s t : AnalysisState} {depth : Nat} {inner outer : List Sketch}

theorem sketches_pushRecovery (s : AnalysisState) (head : Token) :
    (s.pushRecovery head).environment.sketches =
      ⟨(recoveryFrame s.environment head).title, (recoveryFrame s.environment head).isParent, true⟩ ::
        s.environment.sketches := rfl

-- In a block every statement stands for a block.
theorem recoveryFrame_block (block : s.environment.frame.isBlock = true) (head : Token) :
    ∃ kind, (recoveryFrame s.environment head).title = .block kind ∧
      (recoveryFrame s.environment head).isParent = false ∧ kind ≠ .loopHead := by
  unfold recoveryFrame
  split
  all_goals
    first
    | exact ⟨_, rfl, rfl, by simp⟩
    | exact ⟨.branch, by simp [block, Frame.title], by simp [block, Frame.isParent], by simp⟩

/-- Where the second pass is when the first one comes to `p`: at the same place outside of bodies,
or in a body that the first one has passed over on its way there. -/
inductive Abreast (p s : AnalysisState) : Prop
  | outside :
      s.remaining = p.remaining → s.pendingDo = none →
      s.environment.titles = p.environment.titles →
      s.environment.inLibrary = p.environment.inLibrary → Abreast p s
  | inside {inner outer : List Sketch} {depth : Nat} :
      s.environment.sketches = inner ++ outer → Inner depth inner →
      outer.map Sketch.shown = p.environment.titles →
      Chunk.skipBlock depth s.remaining = some p.remaining →
      s.environment.inLibrary = p.environment.inLibrary → Abreast p s

theorem titles_ne_nil (env : Environment) : env.titles ≠ [] := by
  simp [Environment.titles, ScopeStack.all_ne_nil]

section Inside

variable (sketches : s.environment.sketches = inner ++ outer) (inside : Inner depth inner)
  (around : outer.map Sketch.shown = p.environment.titles)
  (skips : Chunk.skipBlock depth s.remaining = some p.remaining)
  (inLibrary : s.environment.inLibrary = p.environment.inLibrary)

include around

theorem outer_ne_nil : outer ≠ [] := by
  rintro rfl
  exact titles_ne_nil p.environment around.symm

omit around

include sketches inside

theorem isBlock_of_inner : s.environment.frame.isBlock = true := by
  obtain ⟨kind, discard, rest, rfl⟩ := inside.head
  obtain ⟨below, all, _⟩ := s.environment.scopes.all_eq_current
  rw [Environment.sketches, all, List.map_cons, List.cons_append, List.cons.injEq] at sketches
  exact Frame.isBlock_of_title (congrArg Sketch.title sketches.1)

include around

theorem deep_of_inner : s.environment.scopes.depth ≠ 1 := by
  obtain ⟨kind, discard, rest, rfl⟩ := inside.head
  have nonempty := outer_ne_nil around
  rw [← Environment.length_sketches, sketches]
  cases outer with
  | nil => exact absurd rfl nonempty
  | cons =>
      simp only [List.cons_append, List.length_cons, List.length_append]
      omega

include skips inLibrary

-- The brace that ends a body ends it in the second pass, too.
theorem abreast_of_closes {brace : Token} {later : List Token} {scope : Scope}
    {scopes : ScopeStack} {after : Environment} {waiting : Option Node} (log : DiagnosticLog)
    (remaining : s.remaining = brace :: later) (kind : brace.kind = .rightBrace)
    (popped : s.environment.scopes.pop? = some (scope, scopes))
    (closes : Environment.Closes s.setting { s.environment with scopes } scope.fulfilled after
      waiting) :
    Abreast p { s with remaining := later, environment := after, log, pendingDo := waiting } := by
  have all := Environment.sketches_of_pop? popped
  obtain ⟨library, stays, takes, ofFunction, _⟩ := closes.leaves
  rw [Scope.title_fulfilled] at stays takes ofFunction
  have library := library.trans inLibrary
  rw [sketches] at all
  have title : ∀ {kind : BlockKind} {parent discard : Bool} {rest : List Sketch},
      ⟨.block kind, parent, discard⟩ :: rest =
        scope.sketch :: ({ s.environment with scopes } : Environment).sketches →
      scope.frame.title = .block kind ∧ scope.discard = discard ∧
        ({ s.environment with scopes } : Environment).sketches = rest := by
    intro kind parent discard rest same
    obtain ⟨top, rest⟩ := List.cons.inj same
    exact ⟨(congrArg Sketch.title top).symm, (congrArg Sketch.discard top).symm, rest.symm⟩
  rw [remaining] at skips
  cases inside with
  | body =>
      obtain ⟨function, _, rest⟩ := title all
      have here : later = p.remaining := by simpa [Chunk.skipBlock, kind] using skips
      have left : after.sketches = outer := by
        rw [stays (by simp [function]), rest]
        rfl
      refine .outside here (ofFunction function) ?_ library
      rw [Environment.titles_eq_sketches, left]
      exact around
  | block head loop inside =>
      obtain ⟨block, discard, rest⟩ := title all
      rw [Chunk.skipBlock_rightBrace kind] at skips
      refine .inside ?_ inside around skips library
      rw [stays ?_, rest]
      · rfl
      · intro same
        rw [block] at same
        cases same
        exact discard.trans (loop rfl)
  | loop inside =>
      obtain ⟨block, discard, rest⟩ := title all
      rw [Chunk.skipBlock_rightBrace kind] at skips
      refine .inside ?_ inside around skips library
      refine takes block discard _ _ rest ?_
      obtain ⟨_, _, _, rfl⟩ := inside.head
      simp

theorem abreast_inside (turns : s.Turns t) : Abreast p t := by
  have block := isBlock_of_inner sketches inside
  have deep := deep_of_inner sketches inside around
  have stays : ∀ {u : AnalysisState}, u.environment.sketches = s.environment.sketches →
      u.environment.inLibrary = s.environment.inLibrary →
      Chunk.skipBlock depth u.remaining = Chunk.skipBlock depth s.remaining → Abreast p u :=
    fun same library left => .inside (same.trans sketches) inside around (left.trans skips)
      (library.trans inLibrary)
  cases turns with
  | reports => exact stays rfl rfl rfl
  | breaksOff _ remaining next breaks =>
      refine stays rfl rfl ?_
      rw [remaining]
      exact (Chunk.skipBlock_breaksOff next breaks depth).symm
  | flushes => exact stays (Environment.sketches_append _) (Environment.inLibrary_append _) rfl
  | completes _ takes keyword ends | fails _ _ takes keyword ends =>
      refine stays (Environment.sketches_append _) (Environment.inLibrary_append _) ?_
      exact ((takes.skipBlock (by rw [keyword]; nofun) depth).1 ends).symm
  | closes log _ remaining kind popped closes =>
      exact abreast_of_closes sketches inside around skips inLibrary log remaining kind popped closes
  | stray _ _ _ _ popped => exact absurd ((ScopeStack.pop?_eq_none_iff _).mp popped) deep
  | warns _ _ warns => exact stays warns.updated.sketches warns.updated.inLibrary rfl
  | @accepts first rest later mods head tail accepted _ takes notClosing modifiers accepts _ deeper =>
      have leaves := accepts.leaves
      have library : (accepted.settled s.setting).inLibrary = p.environment.inLibrary := by
        rcases leaves.inLibrary with same | ⟨_, level, _⟩
        · exact same.trans inLibrary
        · exact absurd level deep
      rcases leaves.scopes with same | ⟨brace, new, opens, same⟩
      · refine .inside (same.trans sketches) inside around ?_ library
        rcases takes.ends notClosing with semicolon | brace
        · exact ((takes.skipBlock notClosing depth).1 semicolon).symm.trans skips
        · refine absurd ?_ (deeper brace)
          have level := congrArg List.length same
          rw [Environment.length_sketches, Environment.length_sketches] at level
          rw [← level, ← Environment.length_titles, ← Environment.length_titles,
            (accepted.settled_kept s.setting).1]
      · rw [block] at opens
        refine .inside ?_ (inside.opens opens) around ?_ library
        · rw [same, sketches, List.append_assoc]
        · exact ((takes.skipBlock notClosing depth).2 (ends_of_read brace modifiers)).symm.trans skips
  | rejects _ _ takes notClosing _ ends => exact stays rfl rfl ((takes.skipBlock notClosing depth).1 ends).symm
  | @recovers first rest later r log _ takes notClosing _ brace =>
      obtain ⟨kind, title, parent, head⟩ := recoveryFrame_block block (leading first rest)
      have opened := sketches_pushRecovery { s with remaining := later, log } (leading first rest)
      rw [show recoveryFrame ({ s with remaining := later, log } : AnalysisState).environment
        (leading first rest) = recoveryFrame s.environment (leading first rest) from rfl, title,
        parent] at opened
      refine .inside ?_ (.block head (fun _ => rfl) inside) around ?_ inLibrary
      · rw [opened, List.cons_append, ← sketches]
      · exact ((takes.skipBlock notClosing depth).2 brace).symm.trans skips
  | skips _ _ takes notClosing _ brace _ found =>
      refine stays rfl rfl ?_
      rw [(takes.skipBlock notClosing depth).2 brace]
      have inside := Chunk.skipBlock_inside found depth
      rw [Nat.zero_add] at inside
      exact inside.symm
  | runsOff _ _ takes notClosing _ brace _ endless =>
      rw [(takes.skipBlock notClosing depth).2 brace] at skips
      have unskipped := Chunk.skipBlock_endless endless (depth + 1)
      rw [Nat.zero_add, skips] at unskipped
      cases unskipped

end Inside

/-- The first pass on its way to the end. -/
structure Scouts (last p : AnalysisState) : Prop where
  declaring : p.declaring = true
  idle : p.pendingDo = none
  outer : p.environment.Outer
  rooted : Rooted p.environment.sketches
  toward : p.Leads last
  ended : last.remaining = []

variable {last : AnalysisState}

theorem Moves.rooted (moves : p.Moves p') (idle : p.pendingDo = none) (outer : p.environment.Outer)
    (rooted : Rooted p.environment.sketches) : Rooted p'.environment.sketches := by
  have reads : ∀ {mods head tail} {warned : Environment} {accepted : Accepted},
      p.environment.Warned warned → Accepts warned p.setting mods head tail accepted →
      Rooted (accepted.settled p.setting).sketches := by
    intro mods head tail warned accepted warns accepts
    cases warns.eq_of_outside outer.outside
    rcases accepts.leaves.scopes with same | ⟨_, new, opens, same⟩
    · rwa [same]
    · rw [same]
      exact rooted.append opens.isParent
  cases moves with
  | completes _ waiting =>
      rw [idle] at waiting
      cases waiting
  | @closes brace later scope _ _ _ _ _ _ _ popped closes =>
      have declaration := (Environment.title_frame outer.outside).2.1
      have current : p.environment.scopes.current = scope := by
        obtain ⟨below, all, _⟩ := p.environment.scopes.all_eq_current
        rw [ScopeStack.all_of_pop? popped] at all
        exact (List.cons.inj all).1.symm
      unfold Environment.frame at declaration
      rw [current] at declaration
      rw [closes.leaves.2.1]
      · rw [Environment.sketches_of_pop? popped] at rooted
        refine rooted.tail ?_
        simp [Environment.sketches, ScopeStack.all_ne_nil]
      · intro loop
        rw [loop] at declaration
        cases declaration
  | accepts _ _ _ _ warns _ accepts => exact reads warns accepts
  | skips _ _ _ _ warns _ accepts => exact reads warns accepts

namespace Scouts

variable (scouts : Scouts last p)

include scouts

-- The first pass goes on as long as there is text.
theorem next (text : p.remaining ≠ []) : ∃ p', CleanStep p p' ∧ Scouts last p' := by
  obtain ⟨p', step, toward⟩ := scouts.toward.head_of_remaining (by
    rw [scouts.ended]
    exact text.symm)
  obtain ⟨turn, idle⟩ := step.moves.declaringTurn scouts.declaring scouts.idle scouts.outer
  refine ⟨p', step, step.moves.declaring.trans scouts.declaring, idle,
    (turn.declares scouts.outer).1, ?_, toward, scouts.ended⟩
  exact step.moves.rooted scouts.idle scouts.outer scouts.rooted

theorem proper : last.environment.declared.Proper ∧
    p.environment.declared.Extends last.environment.declared := by
  obtain ⟨_, outer, extending⟩ :=
    Leads.extends scouts.toward scouts.declaring scouts.idle scouts.outer
  exact ⟨outer.proper, extending⟩

end Scouts

theorem leading_of_read {first head : Token} {rest tail : List Token} {mods : LeadingModifiers}
    (modifiers : LeadingModifiers.read (first :: rest) = .ok (mods, head :: tail)) :
    leading first rest = head := by
  rw [leading, (find_head modifiers).1, Option.getD_some]

/-- What the first pass makes of a statement. -/
structure Declares (p p' : AnalysisState) (first : Token) (rest later : List Token)
    (mods : LeadingModifiers) (head : Token) (tail : List Token) (accepted : Accepted) : Prop where
  modifiers : LeadingModifiers.read (first :: rest) = .ok (mods, head :: tail)
  read : p.environment.statement p.setting first rest = ⟨accepted.environment, .ok accepted.node⟩
  accepts : Accepts p.environment p.setting mods head tail accepted
  environment : p'.environment = accepted.environment
  declaring : p.environment.Declaring mods head tail p'.environment (statementSort head tail)
  header : statementSort head tail ≠ .body → p'.remaining = later
  body : statementSort head tail = .body → Chunk.skipBlock 0 later = some p'.remaining

theorem Moves.declares {first : Token} {rest later : List Token} (moves : p.Moves p')
    (pass : p.declaring = true) (idle : p.pendingDo = none) (outer : p.environment.Outer)
    (takes : p.Takes first rest later) (notClosing : first.kind ≠ .rightBrace) :
    ∃ mods head tail accepted, p.Declares p' first rest later mods head tail accepted := by
  cases moves with
  | completes _ waiting =>
      rw [idle] at waiting
      cases waiting
  | closes _ _ remaining kind =>
      have start := takes.split.1
      rw [remaining] at start
      obtain rfl := (List.cons.inj start).1
      exact absurd kind notClosing
  | @accepts _ _ _ _ mods head tail _ _ _ takes' _ warns modifiers accepts stands read =>
      obtain ⟨rfl, rfl, rfl⟩ := takes.unique takes' rfl
      cases warns.eq_of_outside outer.outside
      have settled := Environment.settled_declaring pass
      have declaring := accepts.declaring pass outer
      have header : statementSort head tail ≠ .body := by
        intro body
        have brace := (body ▸ declaring).ends_leftBrace
        have level := (declaring.level brace).mp body
        exact stands brace level
      refine ⟨_, _, _, _, modifiers, read, accepts, settled _, ?_, fun _ => rfl,
        fun body => absurd body header⟩
      rw [settled]
      exact declaring
  | skips _ _ takes' _ warns modifiers accepts brace level skip read =>
      obtain ⟨rfl, rfl, rfl⟩ := takes.unique takes' rfl
      cases warns.eq_of_outside outer.outside
      have settled := Environment.settled_declaring pass
      have declaring := accepts.declaring pass outer
      have body := (declaring.level brace).mpr level
      refine ⟨_, _, _, _, modifiers, read, accepts, settled _, ?_, fun header => absurd body header,
        fun _ => skip⟩
      rw [settled]
      exact declaring

-- A statement that breaks off is an error in the first pass, too.
theorem not_breaksOff {head : Token} {tail later : List Token} {chunk : Chunk}
    (step : CleanStep p p') (remaining : p.remaining = head :: tail)
    (next : Chunk.next head tail = (chunk, later)) : chunk.breaksOff = false := by
  obtain ⟨stepped, clean⟩ := step
  unfold AnalysisState.step at stepped
  rw [remaining] at stepped
  simp only [next] at stepped
  cases chunk with
  | statement => rfl
  | endsAtBrace => cases stepped; exact absurd clean (not_clean_report _ _ _)
  | endsAtInput => cases stepped; exact absurd clean (not_clean_report _ _ _)

theorem kind_of_sort {head : Token} {tail : List Token} :
    (statementSort head tail = .module → head.kind = .keyword .module) ∧
      (statementSort head tail = .class → head.kind = .keyword .«class») ∧
      (statementSort head tail = .enum → head.kind = .keyword .enum) ∧
      (statementSort head tail = .body → head.kind = .keyword .fn ∨ head.kind = .keyword .new) := by
  unfold statementSort
  split <;> simp_all
  split <;> simp

section Outside

variable {first head : Token} {rest later tail : List Token} {mods : LeadingModifiers}
  {accepted : Accepted}

-- What opens a declaration in the first pass does so in the second one, which finds it.
theorem Declares.deepens (declares : p.Declares p' first rest later mods head tail accepted)
    (scouts : Scouts last p') (level : p.environment.Level s.environment)
    (outside : Title.Outside p.environment.titles) (pass : s.declaring = false)
    (filled : last.environment.declared.Fills s.environment.modules)
    (brace : Ends first rest .leftBrace) (header : statementSort head tail ≠ .body) :
    s.environment.Deepens s.setting first rest := by
  have declaring := declares.declaring
  have kinds := @kind_of_sort head tail
  have here : s.environment.currentModule = p.environment.currentModule := by
    rw [Environment.currentModule_eq outside, Environment.currentModule_eq (level.titles ▸ outside),
      level.titles]
  have extending := scouts.proper.2
  have semicolon : ¬Ends head tail .semicolon := by
    intro semicolon
    have ends := ends_of_read semicolon declares.modifiers
    rw [Ends, brace] at ends
    cases ends
  generalize statementSort head tail = sort at declaring kinds header
  cases declaring with
  | module titled _ _ child =>
      refine Environment.module_again level outside declares.read declares.modifiers (kinds.1 rfl)
        pass fun name titled' => ?_
      cases titled'.unique titled
      rw [here, filled.children, extending.children _ _ _ child]
      rfl
  | «class» titled _ _ found =>
      refine Environment.class_again level outside declares.read declares.modifiers (kinds.2.1 rfl)
        pass fun name titled' => ?_
      cases titled'.unique titled
      rw [here, filled.classes]
      exact extending.classes _ _ found
  | enum titled _ _ found =>
      refine Environment.enum_again level outside declares.read declares.modifiers
        (kinds.2.2.1 rfl) pass fun name titled' => ?_
      cases titled'.unique titled
      rw [here, filled.enums]
      exact extending.enums _ _ found
  | body => exact absurd rfl header
  | native _ ends => exact absurd ends semicolon
  | other ends => exact absurd ends semicolon

theorem Declares.leaves (declares : p.Declares p' first rest later mods head tail accepted)
    (scouts : Scouts last p) : p.environment.Leaves p'.environment head tail ∧
      (head.kind = .keyword .libraryEnd → p'.environment.inLibrary = false) := by
  have settled := Environment.settled_declaring scouts.declaring accepted
  rw [declares.environment, ← settled]
  exact ⟨declares.accepts.leaves, fun ends => (declares.accepts.endsLibrary ends).2⟩

-- Where the second pass turns a statement down, that declares nothing around it.
theorem Declares.stays (declares : p.Declares p' first rest later mods head tail accepted)
    (scouts : Scouts last p) (level : p.environment.Level s.environment) {r : Report}
    (error : (s.environment.statement s.setting first rest).result = .error r)
    (semicolon : Ends first rest .semicolon) :
    p'.remaining = later ∧ p'.environment.titles = p.environment.titles ∧
      p'.environment.inLibrary = p.environment.inLibrary := by
  have declaring := declares.declaring
  have brace : ¬Ends head tail .leftBrace := by
    intro brace
    have ends := ends_of_read brace declares.modifiers
    rw [Ends, semicolon] at ends
    cases ends
  have titled : ∀ {name}, ¬Titled tail name := fun titled => brace titled.ends
  have left := declares.header
  refine and_assoc.mp ⟨?_, ?_⟩
  · generalize statementSort head tail = sort at declaring left
    cases declaring with
    | module title => exact absurd title titled
    | «class» title => exact absurd title titled
    | enum title => exact absurd title titled
    | body _ ends => exact absurd ends brace
    | native _ _ titles => exact ⟨left (by simp), titles⟩
    | other _ titles => exact ⟨left (by simp), titles⟩
  · rcases (declares.leaves scouts).1.inLibrary with same | ⟨kind, _⟩
    · exact same
    · obtain ⟨accepted', read⟩ := Environment.libraryEnd_again s.setting level
        declares.read declares.modifiers kind
      rw [read] at error
      cases error

end Outside

/-- Both passes are at the same place outside of bodies. -/
structure Meets (last p s : AnalysisState) : Prop where
  scouts : Scouts last p
  pass : s.declaring = false
  idle : s.pendingDo = none
  remaining : s.remaining = p.remaining
  level : p.environment.Level s.environment
  filled : last.environment.declared.Fills s.environment.modules

namespace Meets

variable {first head : Token} {rest later tail : List Token} {mods : LeadingModifiers}
  {accepted : Accepted}

theorem outside (meets : Meets last p s) : Title.Outside s.environment.titles :=
  meets.level.titles.symm ▸ meets.scouts.outer.outside

-- The statement that both passes are at.
theorem reads (meets : Meets last p s) (takes : s.Takes first rest later)
    (notClosing : first.kind ≠ .rightBrace) : ∃ p', CleanStep p p' ∧ Scouts last p' ∧
      ∃ mods head tail accepted, p.Declares p' first rest later mods head tail accepted := by
  obtain ⟨x, xs, start, next⟩ := takes
  have takes' : p.Takes first rest later := ⟨x, xs, meets.remaining ▸ start, next⟩
  obtain ⟨p', step, scouts'⟩ := meets.scouts.next (by rw [← meets.remaining, start]; simp)
  exact ⟨p', step, scouts', step.moves.declares meets.scouts.declaring meets.scouts.idle
    meets.scouts.outer takes' notClosing⟩

-- The brace that both passes are at.
theorem closes {brace : Token} (meets : Meets last p s) (start : s.remaining = brace :: later)
    (kind : brace.kind = .rightBrace) : ∃ p' top, CleanStep p p' ∧ Scouts last p' ∧
      p'.remaining = later ∧ p.environment.titles = top :: p'.environment.titles ∧
      p'.environment.inLibrary = p.environment.inLibrary := by
  have scouts := meets.scouts
  have start' := meets.remaining.symm.trans start
  obtain ⟨p', step, scouts'⟩ := scouts.next (by rw [start']; simp)
  obtain ⟨turn, _⟩ := step.moves.declaringTurn scouts.declaring scouts.idle scouts.outer
  have stray : ∀ {first : Token} {rest later : List Token}, p.Takes first rest later →
      first.kind ≠ .rightBrace → False := by
    intro first rest later takes notClosing
    have same := takes.split.1
    rw [start'] at same
    exact notClosing ((List.cons.inj same).1 ▸ kind)
  cases turn with
  | @closes _ top left _ titles _ =>
      refine ⟨p', top, step, scouts', ?_, titles, ?_⟩
      · rw [start'] at left
        exact (List.cons.inj left).2.symm
      · cases step.moves with
        | completes _ waiting =>
            rw [scouts.idle] at waiting
            cases waiting
        | closes _ _ _ _ _ closes => exact closes.leaves.1
        | accepts _ _ takes notClosing => exact (stray takes notClosing).elim
        | skips _ _ takes notClosing => exact (stray takes notClosing).elim
  | reads takes notClosing => exact (stray takes notClosing).elim
  | skips takes notClosing => exact (stray takes notClosing).elim

theorem deepens (meets : Meets last p s)
    (declares : p.Declares p' first rest later mods head tail accepted) (scouts' : Scouts last p')
    (brace : Ends first rest .leftBrace) (header : statementSort head tail ≠ .body) :
    s.environment.Deepens s.setting first rest :=
  declares.deepens scouts' meets.level meets.scouts.outer.outside meets.pass meets.filled brace header

-- No class and no enum is passed over.
theorem not_missing (meets : Meets last p s) (takes : s.Takes first rest later)
    (notClosing : first.kind ≠ .rightBrace) (brace : Ends first rest .leftBrace)
    (skips : s.skipsBody (leading first rest) = true) :
    (s.environment.statement s.setting first rest).environment ≠ s.environment := by
  intro same
  obtain ⟨p', step, scouts', mods, head, tail, accepted, declares⟩ := meets.reads takes notClosing
  rw [leading_of_read declares.modifiers] at skips
  have header : statementSort head tail ≠ .body := by
    intro body
    rcases kind_of_sort.2.2.2 body with kind | kind <;> simp [skipsBody, kind, meets.pass] at skips
  obtain ⟨accepted', read, deeper⟩ := meets.deepens declares scouts' brace header
  rw [read] at same
  rw [show accepted'.environment = s.environment from same] at deeper
  omega

theorem abreast_of_closes {brace : Token} {scope : Scope} {scopes : ScopeStack}
    {after : Environment} {waiting : Option Node} (meets : Meets last p s) (log : DiagnosticLog)
    (start : s.remaining = brace :: later) (kind : brace.kind = .rightBrace)
    (popped : s.environment.scopes.pop? = some (scope, scopes))
    (closes : Environment.Closes s.setting { s.environment with scopes } scope.fulfilled after
      waiting) :
    ∃ p', CleanStep p p' ∧ Scouts last p' ∧
      Abreast p' { s with remaining := later, environment := after, log, pendingDo := waiting } := by
  obtain ⟨p', top, step, scouts', left, titles', library⟩ := meets.closes start kind
  have bare : scope.fulfilled = scope := by
    have block := Environment.isBlock_of_outside meets.outside
    obtain ⟨below, all, _⟩ := s.environment.scopes.all_eq_current
    rw [ScopeStack.all_of_pop? popped] at all
    have current : scope.frame = s.environment.frame := congrArg Scope.frame (List.cons.inj all).1
    rw [← current] at block
    unfold Scope.fulfilled
    cases scope with
    | mk frame node discard => cases frame <;> first | rfl | cases block
  rw [bare] at closes
  obtain ⟨rfl, below, _⟩ := closes.outside meets.outside popped
  refine ⟨p', step, scouts', .outside left.symm rfl ?_ ?_⟩
  · have same := below.symm.trans (meets.level.titles.trans titles')
    exact (List.cons.inj same).2
  · exact closes.leaves.1.trans (meets.level.inLibrary.trans library.symm)

theorem abreast_of_accepts (meets : Meets last p s) (takes : s.Takes first rest later)
    (notClosing : first.kind ≠ .rightBrace)
    (modifiers : LeadingModifiers.read (first :: rest) = .ok (mods, head :: tail))
    (accepts : Accepts s.environment s.setting mods head tail accepted) :
    ∃ p', CleanStep p p' ∧ Scouts last p' ∧
      Abreast p' { s with remaining := later, environment := accepted.settled s.setting } := by
  obtain ⟨p', step, scouts', mods', head', tail', accepted', declares⟩ := meets.reads takes notClosing
  have modifiers' := declares.modifiers
  rw [modifiers] at modifiers'
  cases modifiers'
  have entering := accepts.entering meets.pass meets.outside
  have library : (accepted.settled s.setting).inLibrary = p'.environment.inLibrary := by
    obtain ⟨leaves, ends⟩ := declares.leaves meets.scouts
    by_cases kind : head.kind = .keyword .libraryEnd
    · rw [(accepts.endsLibrary kind).2, ends kind]
    · rcases accepts.leaves.inLibrary with same | ⟨ended, _⟩
      · rcases leaves.inLibrary with same' | ⟨ended, _⟩
        · exact same.trans (meets.level.inLibrary.trans same'.symm)
        · exact absurd ended kind
      · exact absurd ended kind
  refine ⟨p', step, scouts', ?_⟩
  by_cases body : statementSort head tail = .body
  · have declaring := declares.declaring
    rw [body] at declaring entering
    cases declaring with
    | body _ _ _ _ _ stays =>
        cases entering with
        | @body owner sig parameters place n _ _ opened =>
            have updated := s.environment.updated_openBody sig.returnType owner parameters place n
            rw [← opened] at updated
            refine .inside (show _ = [_] ++ s.environment.sketches from updated.sketches) .body ?_
              (declares.body body) library
            rw [← Environment.titles_eq_sketches, stays, meets.level.titles]
  · obtain ⟨proper, extending⟩ := scouts'.proper
    obtain ⟨same, _, _⟩ := declares.declaring.matches entering body meets.scouts.outer.outside
      meets.level.titles ⟨proper, extending, meets.filled⟩
    exact .outside (declares.header body).symm meets.idle same library

theorem abreast_of_recovers (meets : Meets last p s) (takes : s.Takes first rest later)
    (notClosing : first.kind ≠ .rightBrace) {r : Report} (log : DiagnosticLog)
    (error : (s.environment.statement s.setting first rest).result = .error r)
    (brace : Ends first rest .leftBrace) :
    ∃ p', CleanStep p p' ∧ Scouts last p' ∧
      Abreast p' ({ s with remaining := later, log }.pushRecovery (leading first rest)) := by
  obtain ⟨p', step, scouts', mods, head, tail, accepted, declares⟩ := meets.reads takes notClosing
  have body : statementSort head tail = .body := by
    by_contra header
    obtain ⟨accepted', read, _⟩ := meets.deepens declares scouts' brace header
    rw [read] at error
    cases error
  have stays : p'.environment.titles = p.environment.titles := by
    have declaring := declares.declaring
    rw [body] at declaring
    cases declaring with
    | body _ _ _ _ _ stays => exact stays
  have library : p'.environment.inLibrary = p.environment.inLibrary := by
    rcases (declares.leaves meets.scouts).1.inLibrary with same | ⟨kind, _⟩
    · exact same
    · rcases kind_of_sort.2.2.2 body with kind' | kind' <;> (rw [kind] at kind'; cases kind')
  refine ⟨p', step, scouts', @Abreast.inside _ _ [⟨.block .function, false, true⟩]
    s.environment.sketches 0 ?_ .body ?_ (declares.body body)
    (meets.level.inLibrary.trans library.symm)⟩
  · rw [sketches_pushRecovery, leading_of_read declares.modifiers]
    rcases kind_of_sort.2.2.2 body with kind | kind <;> simp [recoveryFrame, kind, Frame.title,
      Frame.isParent]
  · rw [← Environment.titles_eq_sketches, meets.level.titles, stays]

-- One pass does not lose the other: with each part of a step the second pass either stays where the
-- first pass has been to, or keeps up with the first pass's next step.
theorem abreast (meets : Meets last p s) (turns : s.Turns t) :
    Abreast p t ∨ ∃ p', CleanStep p p' ∧ Scouts last p' ∧ Abreast p' t := by
  have busy : ∀ {block : Node}, s.pendingDo ≠ some block := by
    intro block waiting
    rw [meets.idle] at waiting
    cases waiting
  cases turns with
  | reports =>
      exact .inl (.outside meets.remaining meets.idle meets.level.titles meets.level.inLibrary)
  | breaksOff _ start next breaks =>
      obtain ⟨p', step, _⟩ := meets.scouts.next (by rw [← meets.remaining, start]; simp)
      rw [not_breaksOff step (meets.remaining ▸ start) next] at breaks
      cases breaks
  | flushes waiting => exact absurd waiting busy
  | completes waiting => exact absurd waiting busy
  | fails _ waiting => exact absurd waiting busy
  | closes log _ start kind popped closes =>
      exact .inr (meets.abreast_of_closes log start kind popped closes)
  | stray _ _ start kind popped =>
      obtain ⟨p', top, _, _, _, titles, _⟩ := meets.closes start kind
      have level := (ScopeStack.pop?_eq_none_iff _).mp popped
      rw [← Environment.length_titles, meets.level.titles, titles, List.length_cons] at level
      exact absurd (List.eq_nil_of_length_eq_zero (Nat.succ.inj level)) (titles_ne_nil _)
  | warns _ _ warns =>
      cases warns.eq_of_outside meets.outside
      exact .inl (.outside meets.remaining meets.idle meets.level.titles meets.level.inLibrary)
  | accepts _ takes notClosing modifiers accepts =>
      exact .inr (meets.abreast_of_accepts takes notClosing modifiers accepts)
  | rejects _ _ takes notClosing error semicolon =>
      obtain ⟨p', step, scouts', _, _, _, _, declares⟩ := meets.reads takes notClosing
      obtain ⟨left, titles, library⟩ := declares.stays meets.scouts meets.level error semicolon
      exact .inr ⟨p', step, scouts', .outside left.symm meets.idle
        (meets.level.titles.trans titles.symm) (meets.level.inLibrary.trans library.symm)⟩
  | recovers log _ takes notClosing error brace =>
      exact .inr (meets.abreast_of_recovers takes notClosing log error brace)
  | skips _ _ takes notClosing same brace skips =>
      exact absurd same (meets.not_missing takes notClosing brace skips)
  | runsOff _ _ takes notClosing same brace skips =>
      exact absurd same (meets.not_missing takes notClosing brace skips)

end Meets

end AnalysisState

end MiLanguage
