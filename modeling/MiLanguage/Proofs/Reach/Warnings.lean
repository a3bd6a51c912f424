import MiLanguage.Proofs.Outline.Blocks
import MiLanguage.Proofs.Reach.Alarms

set_option autoImplicit false

namespace MiLanguage

/-- What a scope tells about what can be reached in it. -/
structure Mark where
  kind : Option BlockKind := none
  discard : Bool := false
  terminated : Bool := false
  warned : Bool := false

def Scope.mark (scope : Scope) : Mark where
  kind := scope.frame.blockKind?
  discard := scope.discard
  terminated := scope.frame.block?.any Block.terminated
  warned := scope.frame.block?.any Block.warned

namespace ScopeStack

variable {s t : ScopeStack} {scope : Scope}

def marks (s : ScopeStack) : List Mark := s.all.map Scope.mark

@[simp] theorem marks_push (s : ScopeStack) (scope : Scope) :
    (s.push scope).marks = scope.mark :: s.marks := rfl

theorem marks_of_pop? (popped : s.pop? = some (scope, t)) : s.marks = scope.mark :: t.marks := by
  rw [marks, all_of_pop? popped]
  rfl

theorem length_marks (s : ScopeStack) : s.marks.length = s.depth := by
  simp [marks, all, depth]

theorem marks_modifyCurrent (s : ScopeStack) {f : Scope → Scope}
    (same : ∀ scope, (f scope).mark = scope.mark) : (s.modifyCurrent f).marks = s.marks := by
  obtain ⟨outer, all, changed⟩ := s.all_eq_current
  simp only [marks, all, changed, List.map_cons, same]

@[simp] theorem marks_append (s : ScopeStack) (node : Node) : (s.append node).marks = s.marks :=
  s.marks_modifyCurrent fun _ => rfl

theorem mark_modifyBlock (scope : Scope) {f : Block → Block}
    (terminated : ∀ b, (f b).terminated = b.terminated) (warned : ∀ b, (f b).warned = b.warned) :
    ({ scope with frame := scope.frame.modifyBlock f } : Scope).mark = scope.mark := by
  cases frame : scope.frame <;>
    simp [Scope.mark, frame, Frame.modifyBlock, Frame.blockKind?, Frame.block?, terminated, warned]

theorem marks_modifyInnermost {f : Scope → Option Scope}
    (same : ∀ a b, f a = some b → a.mark = b.mark) (changed : s.modifyInnermost f = some t) :
    t.marks = s.marks := by
  obtain ⟨opened, found, rfl⟩ := Option.map_eq_some_iff.mp changed
  have marks : s.opened.map Scope.mark = opened.map Scope.mark := by
    rw [← List.forall₂_eq_eq_eq, List.forall₂_map_left_iff, List.forall₂_map_right_iff]
    exact modifyFirst_related (R := fun a b => a.mark = b.mark) (fun _ => rfl) same found
  simp [ScopeStack.marks, all, marks]

theorem marks_declareLocal? {v : Variable} (declared : s.declareLocal? v = some t) :
    t.marks = s.marks := by
  unfold declareLocal? at declared
  split at declared
  · cases declared
  · cases declared
    exact s.marks_modifyCurrent fun scope => mark_modifyBlock scope (fun _ => rfl) fun _ => rfl

@[simp] theorem marks_modifyLocal (s : ScopeStack) (name : String)
    (f : LocalVariable → LocalVariable) : (s.modifyLocal name f).marks = s.marks := by
  unfold modifyLocal
  split
  · rfl
  · generalize changed : s.modifyInnermost _ = found
    cases found with
    | none => rfl
    | some t =>
        refine marks_modifyInnermost ?_ changed
        intro a b same
        split at same
        next kind block frame =>
          split at same
          · cases same
            simp [Scope.mark, frame, Frame.blockKind?, Frame.block?]
          · cases same
        next => cases same

theorem marks_addUse? {id : ModuleId} (added : s.addUse? id = some t) : t.marks = s.marks := by
  refine marks_modifyInnermost ?_ added
  intro a b same
  split at same
  next block frame =>
    cases same
    simp [Scope.mark, frame, Frame.blockKind?, Frame.block?]
  next => cases same

theorem marks_modifyClass? {f : ClassDeclaration → ClassDeclaration}
    (changed : s.modifyClass? f = some t) : t.marks = s.marks := by
  refine marks_modifyInnermost ?_ changed
  intro a b same
  split at same
  next id c frame =>
    cases same
    simp [Scope.mark, frame, Frame.blockKind?, Frame.block?]
  next => cases same

end ScopeStack

namespace Environment

variable {env after : Environment} {setting : Setting} {node : Node} {implied : Bool} {m : Mark}
  {outer : List Mark}

@[simp] theorem marks_append (env : Environment) (setting : Setting) (node : Node) :
    (env.append setting node).scopes.marks = env.scopes.marks := by
  unfold Environment.append
  split
  · rfl
  · exact env.scopes.marks_append node

theorem marks_markInitialized (env : Environment) (v : ResolvedVariable) :
    (env.markInitialized v).scopes.marks = env.scopes.marks := by
  unfold markInitialized
  split
  · exact env.scopes.marks_modifyLocal _ _
  · rfl
  · dsimp only
    generalize changed : env.scopes.modifyClass? _ = found
    cases found with
    | none => rfl
    | some scopes => exact ScopeStack.marks_modifyClass? changed

theorem Defines.marks (defines : env.Defines .inBlock after node) :
    after.scopes.marks = env.scopes.marks := by
  obtain ⟨_, _, _, added⟩ := defines
  obtain ⟨scopes, declared, rfl⟩ := Option.map_eq_some_iff.mp added
  exact ScopeStack.marks_declareLocal? declared

theorem Assigns.marks (assigns : env.Assigns implied after node) :
    after.scopes.marks = env.scopes.marks := by
  obtain ⟨_, _, _, _, _, _, _⟩ := assigns
  exact env.marks_markInitialized _

theorem Advances.marks (advances : env.Advances implied after node) :
    after.scopes.marks = env.scopes.marks := by
  cases advances with
  | assigns assigns => exact assigns.marks
  | calls => rfl

theorem marks_use (env : Environment) (id : ModuleId) :
    ((env.scopes.addUse? id).getD env.scopes).marks = env.scopes.marks := by
  cases added : env.scopes.addUse? id with
  | none => rfl
  | some scopes => exact ScopeStack.marks_addUse? added

theorem marks_openBody (env : Environment) (type : Datatype) (owner : BodyOwner)
    (parameters : List FunctionParameter) (place : Token) (node : Node) :
    (env.openBody type owner parameters place node).scopes.marks =
      { kind := some .function } :: env.scopes.marks := by
  have declares : ∀ opened : Environment,
      (parameters.foldl (fun env p =>
        { env with scopes := (env.scopes.declareLocal?
            { name := p.name, type := p.type, modifiers := p.modifiers,
              origin := env.originOf place, initialized := true }).getD env.scopes })
        opened).scopes.marks = opened.scopes.marks := by
    induction parameters with
    | nil => exact fun _ => rfl
    | cons p parameters ih =>
        intro opened
        rw [List.foldl_cons, ih]
        dsimp only
        generalize declared : opened.scopes.declareLocal? _ = found
        cases found with
        | none => rfl
        | some scopes => exact ScopeStack.marks_declareLocal? declared
  exact declares _

-- The current scope's mark is the first.
theorem marks_current (marks : env.scopes.marks = m :: outer) :
    env.scopes.current.mark = m ∧ ∀ f, (env.scopes.modifyCurrent f).marks =
      (f env.scopes.current).mark :: outer := by
  obtain ⟨rest, all, changed⟩ := env.scopes.all_eq_current
  rw [ScopeStack.marks, all, List.map_cons, List.cons.injEq] at marks
  refine ⟨marks.1, fun f => ?_⟩
  rw [ScopeStack.marks, changed, List.map_cons, marks.2]

theorem marks_terminated (marks : env.scopes.marks = m :: outer) (block : env.frame.isBlock = true)
    {f : Block → Block} (terminated : ∀ b, (f b).terminated = true)
    (warned : ∀ b, (f b).warned = b.warned) :
    (env.modifyBlock f).scopes.marks = { m with terminated := true } :: outer ∧
      m.kind.isSome = true := by
  obtain ⟨rfl, changed⟩ := marks_current marks
  refine ⟨(changed _).trans ?_, ?_⟩
  all_goals
    unfold Environment.frame at block
    cases frame : env.scopes.current.frame <;>
      simp_all [Scope.mark, Frame.modifyBlock, Frame.blockKind?, Frame.block?, Frame.isBlock]

theorem exhausted_of_marks (marks : env.scopes.marks = m :: outer) :
    env.exhausted = (m.terminated && !m.warned) := by
  obtain ⟨rfl, -⟩ := marks_current marks
  unfold exhausted Environment.frame
  cases frame : env.scopes.current.frame <;> simp [Scope.mark, Frame.block?, frame]

theorem Checks.marks {first : Token} {here : List Token}
    (checks : env.Checks setting first after here) (pass : setting.declaring = false)
    (marks : env.scopes.marks = m :: outer) :
    after.scopes.marks = { m with warned := m.warned || m.terminated } :: outer ∧
      here = if m.terminated && !m.warned then [first] else [] := by
  have exhausted := exhausted_of_marks marks
  cases checks with
  | reached reached =>
      have quiet : (m.terminated && !m.warned) = false := by
        rwa [pass, exhausted, Bool.false_or, Bool.not_eq_true'] at reached
      refine ⟨?_, by rw [quiet]; rfl⟩
      rw [marks]
      obtain ⟨kind, discard, terminated, warned⟩ := m
      cases terminated <;> simp_all
  | unreached _ loud =>
      rw [exhausted] at loud
      refine ⟨?_, by rw [loud]; rfl⟩
      obtain ⟨rfl, changed⟩ := marks_current marks
      refine (changed _).trans ?_
      cases frame : env.scopes.current.frame <;>
        simp_all [Scope.mark, Frame.modifyBlock, Frame.blockKind?, Frame.block?]

end Environment

namespace Outline

variable {head : Token} {tail : List Token} {p : NodeKind → Bool}

theorem leadKind_startsVariable (starts : startsVariable head = true)
    (plain : ∀ kind ∈ [NodeKind.varDefinition, .varDefAndSetValue, .functionCall, .varSetValue],
      p kind = false) : p (leadKind false head tail) = false := by
  have named : p (variableKind tail) = false := by
    unfold variableKind
    split <;> exact plain _ (by simp)
  simp only [startsVariable, Bool.or_eq_true, decide_eq_true_eq] at starts
  unfold leadKind
  split
  case h_15 =>
    rw [if_neg (by simp)]
    split
    · exact named
    · exact plain _ (by simp)
    · exact plain _ (by simp)
  case h_16 => exact named
  all_goals simp_all [TokenKind.isDatatype]

/-- The marks of the scopes that a header opens, the inner one first. -/
inductive Opens (header : List Token) : Mark → List Mark → Prop
  | scope {kind : Option BlockKind} :
      kind ≠ some .doLoop → kind ≠ some .forLoop → opensDo header = false →
      kind.isSome = opensBlock header → Opens header { kind } []
  | doLoop : opensDo header = true → opensBlock header = true →
      Opens header { kind := some .doLoop } []
  | forLoop : opensDo header = false → opensBlock header = true →
      Opens header { kind := some .forLoop } [{ kind := some .loopHead }]

theorem Opens.isBlock {header : List Token} {m : Mark} {below : List Mark}
    (opens : Opens header m below) : m = { kind := m.kind } ∧ m.kind.isSome = opensBlock header := by
  cases opens with
  | scope _ _ _ block => exact ⟨rfl, block⟩
  | doLoop _ block => exact ⟨rfl, block.symm⟩
  | forLoop _ block => exact ⟨rfl, block.symm⟩

end Outline

namespace Environment

variable {env : Environment} {setting : Setting} {first : Token} {tail : List Token}
  {accepted : Accepted} {m : Mark} {outer : List Mark}

theorem marks_settled (accepted : Accepted) (setting : Setting) :
    (accepted.settled setting).scopes.marks = accepted.environment.scopes.marks := by
  unfold Accepted.settled
  split
  · exact marks_append _ _ _
  · rfl

theorem marks_of_statement (pass : setting.declaring = false)
    (read : env.statement setting first tail = ⟨accepted.environment, .ok accepted.node⟩)
    (semicolon : Ends first tail .semicolon) (marks : env.scopes.marks = m :: outer) :
    (accepted.settled setting).scopes.marks =
        { m with terminated := m.terminated || Outline.exits (first :: tail) } :: outer ∧
      (Outline.nodeKind false (first :: tail)).any NodeKind.isHost = false ∧
      (Outline.exits (first :: tail) = true → m.kind.isSome = true) := by
  obtain ⟨mods, head, rest, modifiers, accepts⟩ := statement_accepts read
  have noBrace : ¬Ends head rest .leftBrace := by
    intro brace
    have kind := ends_of_read brace modifiers
    rw [Ends, semicolon] at kind
    cases kind
  have nonDeclaring : ¬setting.declaring = true := by simp [pass]
  unfold Outline.exits
  rw [marks_settled, Outline.nodeKind_of_read _ modifiers]
  simp only [Option.any_some]
  generalize same : (⟨accepted.environment, accepted.node⟩ : Accepted) = found at accepts
  have environment : accepted.environment = found.environment := congrArg Accepted.environment same
  rw [environment]
  -- Most statements leave the marks alone.
  have goesOn : ∀ (kind : NodeKind) {after : Environment}, kind.isHost = false →
      kind.isExit = false → after.scopes.marks = env.scopes.marks →
      after.scopes.marks = { m with terminated := m.terminated || kind.isExit } :: outer ∧
        kind.isHost = false ∧ (kind.isExit = true → m.kind.isSome = true) := by
    intro kind after plain goesOn kept
    refine ⟨?_, plain, by simp [goesOn]⟩
    rw [kept, marks, goesOn, Bool.or_false]
  have named : ∀ {after : Environment}, startsVariable head = true →
      after.scopes.marks = env.scopes.marks → _ := fun starts kept =>
    goesOn (Outline.leadKind false head rest)
      (Outline.leadKind_startsVariable starts (by decide))
      (Outline.leadKind_startsVariable starts (by decide)) kept
  have name : head.kind = .identifier → startsVariable head = true := by
    intro kind
    simp [startsVariable, kind]
  cases accepts with
  | membersKept kind => exact named (name kind) rfl
  | nativeKept kind ends =>
      have last : (rest.getLast?.getD head).is .leftBrace = false := by
        rw [Token.is, decide_eq_false_iff_not]
        exact noBrace
      have lead : Outline.leadKind false head rest = .nativeFunctionDefinition := by
        simp [Outline.leadKind, kind, last]
      rw [lead]
      exact goesOn _ rfl rfl rfl
  | returned kind _ block =>
      have lead : Outline.leadKind false head rest = .returnValue := by
        simp [Outline.leadKind, kind]
      obtain ⟨ended, inside⟩ := marks_terminated marks block (f := fun b =>
        { b with returned := true, terminated := true }) (fun _ => rfl) fun _ => rfl
      rw [lead]
      refine ⟨?_, rfl, fun _ => inside⟩
      simpa [NodeKind.isExit] using ended
  | exited exits _ block =>
      obtain ⟨ended, inside⟩ := marks_terminated marks block
        (f := ({ · with terminated := true })) (fun _ => rfl) fun _ => rfl
      rcases exitKind_eq_some exits with ⟨kind, rfl⟩ | ⟨kind, rfl⟩
      all_goals
        simp only [Outline.leadKind, kind]
        refine ⟨?_, rfl, fun _ => inside⟩
        simpa [NodeKind.isExit] using ended
  | used kind =>
      have lead : Outline.leadKind false head rest = .useStatement := by
        simp [Outline.leadKind, kind]
      rw [lead]
      exact goesOn _ rfl rfl (env.marks_use _)
  | libraryEnded kind =>
      have lead : Outline.leadKind false head rest = .stdlibFinish := by
        simp [Outline.leadKind, kind]
      rw [lead]
      exact goesOn _ rfl rfl rfl
  | variableDefined starts _ _ isLocal defines =>
      rcases isLocal with declaring | rfl
      · exact absurd declaring nonDeclaring
      · exact named starts defines.marks
  | variableKept starts => exact named starts rfl
  | called kind => exact named (name kind) rfl
  | assigned kind _ _ assigns => exact named (name kind) assigns.marks
  | _ => first | exact absurd ‹_› noBrace | exact absurd ‹Titled _ _›.ends noBrace | simp_all

theorem marks_of_header (pass : setting.declaring = false)
    (read : env.statement setting first tail = ⟨accepted.environment, .ok accepted.node⟩)
    (leftBrace : Ends first tail .leftBrace)
    (deeper : accepted.environment.scopes.depth ≠ env.scopes.depth) :
    (Outline.nodeKind false (first :: tail)).any NodeKind.isHost = true ∧
      ∃ top below, Outline.Opens (first :: tail) top below ∧
        (accepted.settled setting).scopes.marks = top :: (below ++ env.scopes.marks) := by
  obtain ⟨mods, head, rest, modifiers, accepts⟩ := statement_accepts read
  have noSemicolon : ¬Ends head rest .semicolon := by
    intro semicolon
    have kind := ends_of_read semicolon modifiers
    rw [Ends, leftBrace] at kind
    cases kind
  have nonDeclaring : ¬setting.declaring = true := by simp [pass]
  have lead : ∀ kind, Outline.leadKind false head rest = kind →
      Outline.nodeKind false (first :: tail) = some kind := by
    rintro _ rfl
    exact Outline.nodeKind_of_read _ modifiers
  rw [marks_settled]
  generalize same : (⟨accepted.environment, accepted.node⟩ : Accepted) = found at accepts
  have environment : accepted.environment = found.environment := congrArg Accepted.environment same
  rw [environment] at deeper ⊢
  -- All headers but those of loops with an end of their own open one scope.
  have opensOne : ∀ (kind : NodeKind) (around : Option BlockKind) {after : Environment},
      (kind.isHost = true ∧ kind ≠ .doStatement ∧ around ≠ some .doLoop ∧
        around ≠ some .forLoop ∧ around.isSome = kind.isBlock) →
      Outline.leadKind false head rest = kind →
      after.scopes.marks = { kind := around } :: env.scopes.marks →
      (Outline.nodeKind false (first :: tail)).any NodeKind.isHost = true ∧
        ∃ top below, Outline.Opens (first :: tail) top below ∧
          after.scopes.marks = top :: (below ++ env.scopes.marks) := by
    rintro kind around after ⟨host, noDo, plainDo, plainFor, block⟩ leads opened
    have shown := lead kind leads
    refine ⟨by rw [shown]; exact host, _, [], .scope plainDo plainFor ?_ ?_, opened⟩
    · rw [Outline.opensDo_eq shown, decide_eq_false noDo]
    · rw [Outline.opensBlock_eq shown, block]
  cases accepts with
  | moduleDeclared _ _ _ declaring => exact absurd declaring nonDeclaring
  | moduleEntered kind =>
      exact opensOne .createModule none (by decide) (by simp [Outline.leadKind, kind]) rfl
  | classDeclared _ _ _ declaring => exact absurd declaring nonDeclaring
  | classEntered kind =>
      exact opensOne .createClass none (by decide) (by simp [Outline.leadKind, kind]) rfl
  | classMissing => exact absurd rfl deeper
  | enumDeclared _ _ _ declaring => exact absurd declaring nonDeclaring
  | enumEntered kind =>
      exact opensOne .createEnum none (by decide) (by simp [Outline.leadKind, kind]) rfl
  | enumMissing => exact absurd rfl deeper
  | functionDeclared _ _ _ declaring => exact absurd declaring nonDeclaring
  | functionOpened kind ends =>
      have last : (rest.getLast?.getD head).is .leftBrace = true := by
        rw [Token.is, decide_eq_true_iff]
        exact ends
      exact opensOne .functionDefinition (some .function) (by decide)
        (by simp [Outline.leadKind, kind, last]) (marks_openBody ..)
  | constructorDeclared _ _ _ declaring => exact absurd declaring nonDeclaring
  | constructorOpened kind =>
      exact opensOne .createConstructor (some .function) (by decide)
        (by simp [Outline.leadKind, kind]) (marks_openBody ..)
  | conditional starts =>
      rcases conditional_eq_some starts with ⟨kind, rfl, rfl⟩ | ⟨kind, rfl, rfl⟩
      · exact opensOne .ifStatement (some .branch) (by decide) (by simp [Outline.leadKind, kind]) rfl
      · exact opensOne .whileStatement (some .whileLoop) (by decide)
          (by simp [Outline.leadKind, kind]) rfl
  | doLoop kind =>
      have shown := lead .doStatement (by simp [Outline.leadKind, kind])
      refine ⟨by rw [shown]; rfl, _, [], .doLoop ?_ ?_, rfl⟩
      · rw [Outline.opensDo_eq shown]
        rfl
      · rw [Outline.opensBlock_eq shown]
        rfl
  | @forLoop defined stepped _ _ _ _ kind _ _ defines _ advances =>
      have shown := lead .forFakeScope (by simp [Outline.leadKind, kind])
      have marks : stepped.scopes.marks = { kind := some .loopHead } :: env.scopes.marks :=
        advances.marks.trans defines.marks
      refine ⟨by rw [shown]; rfl, _, _, .forLoop ?_ ?_, ?_⟩
      · rw [Outline.opensDo_eq shown]
        rfl
      · rw [Outline.opensBlock_eq shown]
        rfl
      · simp only [List.foldl_cons, List.foldl_nil, push, ScopeStack.marks_push, marks_append, marks,
          List.cons_append, List.nil_append]
        rfl
  | _ => exact absurd ‹_› noSemicolon

variable {header : List Token} {top full : Mark} {below : List Mark} {scope : Scope}
  {after : Environment} {waiting : Option Node}

theorem Closes.marks (closes : Closes setting env scope after waiting)
    (opened : Outline.Opens header top below) (kind : scope.mark.kind = top.kind)
    (kept : scope.mark.discard = false) (marks : env.scopes.marks = below ++ m :: outer) :
    after.scopes.marks = m :: outer ∧ waiting.isSome = Outline.opensDo header := by
  have own : scope.frame.blockKind? = top.kind := kind
  -- A scope that is no loop with an end of its own has nothing below.
  have alone : scope.frame.blockKind? ≠ some .doLoop → scope.frame.blockKind? ≠ some .forLoop →
      env.scopes.marks = m :: outer ∧ (none : Option Node).isSome = Outline.opensDo header := by
    intro noDo noFor
    rw [own] at noDo noFor
    cases opened with
    | scope _ _ opensDo => exact ⟨marks, opensDo.symm⟩
    | doLoop => exact absurd rfl noDo
    | forLoop => exact absurd rfl noFor
  cases closes with
  | discarded discard => exact absurd (discard.symm.trans kept) (by simp)
  | «class» _ frame =>
      rw [marks_append]
      exact alone (by simp [frame, Frame.blockKind?]) (by simp [frame, Frame.blockKind?])
  | enum _ frame =>
      rw [marks_append]
      exact alone (by simp [frame, Frame.blockKind?]) (by simp [frame, Frame.blockKind?])
  | module _ isModule =>
      have bare : scope.frame.blockKind? = none := by
        cases frame : scope.frame <;> first | rfl | simp [frame, Frame.isModule] at isModule
      rw [marks_append]
      exact alone (by simp [bare]) (by simp [bare])
  | function _ frame =>
      rw [marks_append]
      exact alone (by simp [frame, Frame.blockKind?]) (by simp [frame, Frame.blockKind?])
  | block _ frame plain =>
      rw [marks_append]
      refine alone ?_ ?_ <;> rcases plain with rfl | rfl | rfl <;> simp [frame, Frame.blockKind?]
  | doLoop _ frame =>
      rw [frame] at own
      cases opened with
      | scope noDo => exact absurd own.symm noDo
      | doLoop opensDo => exact ⟨marks, opensDo.symm⟩
      | forLoop => cases own
  | forLoop _ frame popped =>
      rw [frame] at own
      have around := ScopeStack.marks_of_pop? popped
      rw [marks_append, marks] at around
      rw [marks_append]
      cases opened with
      | scope _ noFor => exact absurd own.symm noFor
      | doLoop => cases own
      | forLoop opensDo => exact ⟨(List.cons.inj around).2.symm, opensDo.symm⟩
  | bare _ frame lowest =>
      rw [frame] at own
      have deep := (env.append setting scope.node).scopes.length_marks
      rw [(ScopeStack.pop?_eq_none_iff _).mp lowest, marks_append, marks] at deep
      cases opened with
      | scope _ noFor => exact absurd own.symm noFor
      | doLoop => cases own
      | forLoop => simp at deep

theorem Enters.alarms {o : Outline} {last : Environment} {alarms : List Token}
    (enters : Enters setting waiting env o last alarms) (pass : setting.declaring = false)
    (marks : env.scopes.marks = m :: outer) :
    o.Whole m.kind.isSome waiting.isSome ∧
      alarms = o.alarms waiting.isSome m.terminated m.warned ∧
      ∃ later, last.scopes.marks = later :: outer ∧ later.kind = m.kind ∧
        later.discard = m.discard := by
  induction enters generalizing m outer with
  | nil => exact ⟨trivial, rfl, m, marks, rfl, rfl⟩
  | @statement env warned last first tail here beyond accepted rest checks read semicolon _ ih =>
      obtain ⟨marked, rfl⟩ := checks.marks pass marks
      obtain ⟨settled, plain, within⟩ := marks_of_statement pass read semicolon marked
      obtain ⟨whole, rfl, later, left, kind, discard⟩ := ih settled
      exact ⟨⟨fun _ => ⟨plain, within⟩, whole⟩, rfl, later, left, kind, discard⟩
  | @block env warned full after last first tail here inside beyond accepted inner rest brace scope
      scopes waiting checks read leftBrace deeper _ popped closes _ ihInner ih =>
      obtain ⟨marked, rfl⟩ := checks.marks pass marks
      have level : warned.scopes.depth = env.scopes.depth := checks.warned.updated.scopes.depth
      obtain ⟨host, top, below, opened, settled⟩ :=
        marks_of_header pass read leftBrace (by rwa [level])
      rw [marked] at settled
      obtain ⟨fresh, isBlock⟩ := opened.isBlock
      obtain ⟨inWhole, rfl, closing, left, kind, discard⟩ := ihInner settled
      rw [ScopeStack.marks_of_pop? popped] at left
      obtain ⟨rfl, around⟩ := List.cons.inj left
      rw [fresh] at discard
      obtain ⟨behind, waits⟩ := closes.marks opened kind discard around
      obtain ⟨whole, rfl, later, left, kind', discard'⟩ := ih behind
      rw [waits] at whole
      refine ⟨⟨host, ?_, whole⟩, ?_, later, left, kind', discard'⟩
      · rwa [isBlock] at inWhole
      · rw [waits, fresh]
        rfl
  | completes _ _ ih =>
      obtain ⟨whole, rfl, later⟩ := ih ((marks_append _ _ _).trans marks)
      exact ⟨⟨nofun, whole⟩, rfl, later⟩

end Environment

end MiLanguage
