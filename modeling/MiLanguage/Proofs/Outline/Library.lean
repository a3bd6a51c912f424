import MiLanguage.Proofs.Outline.Accounted
import MiLanguage.Proofs.Passes.Sketch
import MiLanguage.Proofs.Statement.Words

set_option autoImplicit false

namespace MiLanguage

-- The word behind which the library's own text is over.
def Token.endsLibrary (t : Token) : Bool := t.is (.keyword .libraryEnd)

-- The text does not end the library's own.
def Unmarked (tokens : List Token) : Prop := ∀ t ∈ tokens, t.endsLibrary = false

section Unmarked

variable {t : Token} {tokens more : List Token}

theorem Token.endsLibrary_of_kind {kind : TokenKind} (same : t.kind = kind)
    (other : kind ≠ .keyword .libraryEnd) : t.endsLibrary = false := by
  simpa [Token.endsLibrary, Token.is, same] using other

theorem unmarked_append : Unmarked (tokens ++ more) ↔ Unmarked tokens ∧ Unmarked more :=
  List.forall_mem_append

theorem unmarked_cons : Unmarked (t :: tokens) ↔ t.endsLibrary = false ∧ Unmarked tokens :=
  List.forall_mem_cons

theorem Wordless.unmarked (wordless : Wordless tokens) : Unmarked tokens := by
  intro t member
  have plain := wordless t member
  refine Token.endsLibrary_of_kind rfl fun kind => ?_
  rw [kind] at plain
  cases plain

end Unmarked

namespace Environment

variable {env : Environment} {setting : Setting} {first : Token} {tail : List Token}
  {accepted : Accepted}

/-- The statement that ends the library's text, at root level. -/
structure EndsLibrary (env : Environment) (first : Token) (tail : List Token) (after : Environment) :
    Prop where
  marks : first.endsLibrary = true
  behind : Unmarked tail
  semicolon : Ends first tail .semicolon
  allowed : env.inLibrary = true
  level : env.scopes.depth = 1
  left : after = { env with inLibrary := false }

theorem endLibrary_eq_ok {mods : LeadingModifiers} {head : Token} {rest : List Token}
    (read : env.endLibrary mods head rest = .ok accepted) :
    mods.tokens = [] ∧ Ends head rest .semicolon ∧ env.inLibrary = true ∧ env.scopes.depth = 1 ∧
      accepted.environment = { env with inLibrary := false } := by
  simp only [endLibrary, Checked.bind_eq_ok, Checked.require_eq_ok, Bool.and_eq_true,
    decide_eq_true_eq] at read
  obtain ⟨_, bare, _, ends, _, ⟨allowed, level⟩, same⟩ := read
  obtain ⟨semicolon, rfl, kind⟩ := requireEnd_eq_ok ends
  cases same
  refine ⟨?_, kind, allowed, level, rfl⟩
  unfold LeadingModifiers.requireNone at bare
  split at bare
  next empty => exact empty
  next => simp at bare

theorem settled_scopes (accepted : Accepted) (setting : Setting) :
    (accepted.settled setting).sketches = accepted.environment.sketches ∧
      (accepted.settled setting).inLibrary = accepted.environment.inLibrary := by
  unfold Accepted.settled
  split
  next => exact ⟨sketches_append _, inLibrary_append _⟩
  next => exact ⟨rfl, rfl⟩

theorem statement_marks
    (read : env.statement setting first tail = ⟨accepted.environment, .ok accepted.node⟩) :
    (Unmarked (first :: tail) ∧ accepted.environment.inLibrary = env.inLibrary) ∨
      (setting.declaring = false ∧ (env.frame.isModule || env.frame.isClass) = true ∧
        Ends first tail .semicolon ∧ accepted.environment = env) ∨
      env.EndsLibrary first tail accepted.environment := by
  obtain ⟨mods, head, rest, modifiers, accepts⟩ := statement_accepts read
  obtain ⟨whole, modified, _⟩ := LeadingModifiers.read_append modifiers
  have wordless := statement_wordless read modifiers
  by_cases marks : head.endsLibrary = true
  · have kind : head.kind = .keyword .libraryEnd := by simpa [Token.endsLibrary] using marks
    have dispatched := statement_read read modifiers (.inl (by simp [kind]))
    simp only [Environment.read, kind] at dispatched
    obtain ⟨bare, semicolon, allowed, level, left⟩ := endLibrary_eq_ok dispatched
    rw [bare, List.nil_append] at whole
    cases whole
    rcases wordless with wordless | recalled
    · exact .inr (.inr ⟨marks, wordless.unmarked, semicolon, allowed, level, left⟩)
    · have same := recalled.left
      rw [left] at same
      rw [← same] at allowed
      cases allowed
  · rcases wordless with wordless | recalled
    · rw [← (settled_scopes accepted setting).2]
      refine .inl ⟨?_, accepts.leaves.inLibrary.resolve_right fun ends => marks (by
        simp [Token.endsLibrary, ends.1])⟩
      rw [whole, unmarked_append, unmarked_cons]
      refine ⟨fun t member => ?_, by simpa using marks, wordless.unmarked⟩
      refine Token.endsLibrary_of_kind rfl fun kind => ?_
      have modifier := modified t member
      rw [kind] at modifier
      cases modifier
    · exact .inr (.inl ⟨recalled.pass, recalled.host, ends_of_read recalled.ends modifiers,
        recalled.left⟩)

theorem host_of_title {f g : Frame} (same : f.title = g.title) :
    (f.isModule || f.isClass) = (g.isModule || g.isClass) := by
  cases f <;> cases g <;> first | rfl | cases same

theorem frame_of_sketches {a b : Environment} (same : a.sketches = b.sketches) :
    (a.frame.isModule || a.frame.isClass) = (b.frame.isModule || b.frame.isClass) ∧
      a.frame.isParent = b.frame.isParent ∧ a.scopes.depth = b.scopes.depth := by
  have depth : a.scopes.depth = b.scopes.depth := by
    rw [← length_sketches, same, length_sketches]
  obtain ⟨_, left, _⟩ := a.scopes.all_eq_current
  obtain ⟨_, right, _⟩ := b.scopes.all_eq_current
  simp only [sketches, left, right, List.map_cons, List.cons.injEq, Scope.sketch,
    Sketch.mk.injEq] at same
  exact ⟨host_of_title same.1.1, same.1.2.1, depth⟩

variable {last : Environment} {waiting : Option Node} {o : Outline} {alarms : List Token}

theorem depth_settled (accepted : Accepted) (setting : Setting) :
    (accepted.settled setting).scopes.depth = accepted.environment.scopes.depth :=
  (frame_of_sketches (settled_scopes accepted setting).1).2.2

section Statement

variable {warned : Environment} {here : List Token} (checks : env.Checks setting first warned here)
  (read : warned.statement setting first tail = ⟨accepted.environment, .ok accepted.node⟩)

include checks read

theorem leaves_of_statement :
    (accepted.settled setting).sketches = env.sketches ∨ Ends first tail .leftBrace ∧
      ∃ block new, Opening block new ∧ (accepted.settled setting).sketches = new ++ env.sketches := by
  obtain ⟨mods, head, rest, modifiers, accepts⟩ := statement_accepts read
  rw [← checks.warned.updated.sketches]
  rcases accepts.leaves.scopes with same | ⟨brace, new, opens, same⟩
  · exact .inl same
  · exact .inr ⟨ends_of_read brace modifiers, _, new, opens, same⟩

theorem stays_of_statement
    (plain : Ends first tail .semicolon ∨ accepted.environment.scopes.depth = env.scopes.depth) :
    (accepted.settled setting).sketches = env.sketches := by
  rcases leaves_of_statement checks read with same | ⟨brace, _, new, opens, same⟩
  · exact same
  · rcases plain with semicolon | level
    · rw [Ends, semicolon] at brace
      cases brace
    · rw [← depth_settled accepted setting, ← length_sketches, same, List.length_append,
        length_sketches] at level
      have nonempty := List.length_pos_iff.mpr opens.ne_nil
      omega

theorem opens_of_header (deeper : accepted.environment.scopes.depth ≠ env.scopes.depth) :
    ∃ block new, Opening block new ∧ (accepted.settled setting).sketches = new ++ env.sketches := by
  rw [← depth_settled accepted setting] at deeper
  rcases leaves_of_statement checks read with same | ⟨_, opens⟩
  · exact absurd (frame_of_sketches same).2.2 deeper
  · exact opens

theorem inLibrary_of_statement (deep : env.scopes.depth ≠ 1) :
    (accepted.settled setting).inLibrary = env.inLibrary := by
  obtain ⟨mods, head, rest, modifiers, accepts⟩ := statement_accepts read
  have updated := checks.warned.updated
  rw [← updated.inLibrary]
  rcases accepts.leaves.inLibrary with same | ⟨_, level, _⟩
  · exact same
  · exact absurd ((frame_of_sketches updated.sketches).2.2.symm.trans level) deep

theorem unmarked_of_statement (deep : env.scopes.depth ≠ 1)
    (reads : setting.declaring = true ∨ (env.frame.isModule || env.frame.isClass) = false) :
    Unmarked (first :: tail) := by
  obtain ⟨frame, _, depth⟩ := frame_of_sketches checks.warned.updated.sketches
  rcases statement_marks read with ⟨clear, _⟩ | ⟨kept, host, _⟩ | ends
  · exact clear
  · rw [frame] at host
    rcases reads with pass | bare
    · rw [pass] at kept
      cases kept
    · rw [bare] at host
      cases host
  · exact absurd (depth.symm.trans ends.level) deep

end Statement

theorem Opening.deep {block : Bool} {new : List Sketch} {opened : Environment}
    (opens : Opening block new) (added : opened.sketches = new ++ env.sketches) :
    opened.scopes.depth ≠ 1 := by
  have nonempty := List.length_pos_iff.mpr opens.ne_nil
  have below : 0 < env.sketches.length := by
    rw [length_sketches]
    exact Nat.succ_pos _
  rw [← length_sketches, added, List.length_append]
  omega

theorem sketches_of_closes {block : Bool} {new : List Sketch} {opened full after : Environment}
    {scope : Scope} {scopes : ScopeStack} (opens : Opening block new)
    (added : opened.sketches = new ++ env.sketches) (kept : full.sketches = opened.sketches)
    (popped : full.scopes.pop? = some (scope, scopes))
    (closes : Closes setting { full with scopes } scope after waiting) :
    after.sketches = env.sketches ∧ after.inLibrary = full.inLibrary := by
  obtain ⟨library, plain, loop, _⟩ := closes.leaves
  refine ⟨?_, library⟩
  have whole := (sketches_of_pop? popped).symm.trans (kept.trans added)
  have one : ∀ {s : Sketch}, new = [s] → s.title ≠ .block .forLoop → after.sketches = env.sketches := by
    rintro s rfl other
    obtain ⟨top, below⟩ := List.cons.inj whole
    rw [plain fun same => absurd ((congrArg Sketch.title top).symm.trans same) other]
    exact below
  cases opens with
  | declaration declares =>
      refine one rfl ?_
      rintro rfl
      cases declares
  | function => exact one rfl (by simp)
  | block which =>
      refine one rfl ?_
      rcases which with rfl | rfl | rfl <;> simp
  | loop =>
      obtain ⟨top, below⟩ := List.cons.inj whole
      refine loop (congrArg Sketch.title top) (congrArg Sketch.discard top) _ _ below ?_
      rw [← List.length_pos_iff, length_sketches]
      exact Nat.succ_pos _

theorem Reads.level (reads : Reads setting waiting env o last alarms) :
    last.sketches = env.sketches ∧ (env.scopes.depth ≠ 1 → last.inLibrary = env.inLibrary) := by
  induction reads with
  | nil => exact ⟨rfl, fun _ => rfl⟩
  | statement checks read semicolon _ ih =>
      have same := stays_of_statement checks read (.inl semicolon)
      have depth := (frame_of_sketches same).2.2
      exact ⟨ih.1.trans same, fun deep =>
        (ih.2 (by rwa [depth])).trans (inLibrary_of_statement checks read deep)⟩
  | passed checks read _ level _ ih =>
      have same := stays_of_statement checks read (.inr level)
      have depth := (frame_of_sketches same).2.2
      exact ⟨ih.1.trans same, fun deep =>
        (ih.2 (by rwa [depth])).trans (inLibrary_of_statement checks read deep)⟩
  | block checks read _ deeper _ popped closes _ ihInner ih =>
      obtain ⟨_, new, opens, added⟩ := opens_of_header checks read deeper
      obtain ⟨around, kept⟩ := sketches_of_closes opens added ihInner.1 popped closes
      have depth := (frame_of_sketches around).2.2
      exact ⟨ih.1.trans around, fun deep => (ih.2 (by rwa [depth])).trans
        (kept.trans ((ihInner.2 (Opening.deep opens added)).trans
          (inLibrary_of_statement checks read deep)))⟩
  | completes _ _ _ _ ih =>
      refine ⟨ih.1.trans (sketches_append _), fun deep => ?_⟩
      rw [ih.2 (by rwa [depth_append]), inLibrary_append]

end Environment

namespace Outline

-- What follows the header is a list of declarations, those of a module or a class.
def Hosts (header : List Token) : Prop :=
  ∃ name, title? header = some (.module, name) ∨ title? header = some (.class, name)

-- The library's text is not ended outside of bodies.
def ClearOutside : Outline → Prop
  | nil => True
  | statement tokens rest => Unmarked tokens ∧ rest.ClearOutside
  | block header inner _ rest =>
      Unmarked header ∧ (Hosts header → inner.ClearOutside) ∧ rest.ClearOutside

-- It is not ended in bodies.
def ClearInside : Outline → Prop
  | nil => True
  | statement _ rest => rest.ClearInside
  | block header inner _ rest =>
      (Unmarked inner.tokens ∨ Hosts header ∧ inner.ClearInside) ∧ rest.ClearInside

theorem ClearOutside.unmarked {o : Outline} (outside : o.ClearOutside) (inside : o.ClearInside)
    (formed : o.Formed) : Unmarked o.tokens := by
  induction o with
  | nil => simp [Unmarked, tokens]
  | statement tokens rest ih =>
      exact unmarked_append.mpr ⟨outside.1, ih outside.2 inside formed.1⟩
  | block header inner brace rest ihInner ih =>
      obtain ⟨above, within, behind⟩ := outside
      obtain ⟨_, innerFormed, closing, restFormed⟩ := formed
      have body : Unmarked inner.tokens := by
        rcases inside.1 with body | ⟨hosts, inside⟩
        · exact body
        · exact ihInner (within hosts) inside innerFormed
      simp only [Outline.tokens, unmarked_append, unmarked_cons]
      exact ⟨above, body, Token.endsLibrary_of_kind closing (by decide),
        ih behind inside.2 restFormed⟩

end Outline

namespace Environment

variable {env last : Environment} {setting : Setting} {first : Token} {tail : List Token}
  {accepted : Accepted} {waiting : Option Node} {o : Outline} {alarms : List Token}

theorem head_of_hosts {mods : LeadingModifiers} {head : Token} {rest : List Token}
    (modifiers : LeadingModifiers.read (first :: tail) = .ok (mods, head :: rest))
    (hosts : Outline.Hosts (first :: tail)) :
    head.kind = .keyword .module ∨ head.kind = .keyword .«class» := by
  obtain ⟨name, title⟩ := hosts
  unfold Outline.title? at title
  rw [Outline.lead_of_read modifiers] at title
  cases rest with
  | nil => simp at title
  | cons t rest =>
      simp only at title
      split at title
      next k kind =>
        rcases title with title | title
        · cases title
          exact .inl kind
        · cases title
          exact .inr kind
      next => simp at title

theorem hosts_of_opened (brace : Ends first tail .leftBrace)
    (read : env.statement setting first tail = ⟨accepted.environment, .ok accepted.node⟩)
    (deeper : accepted.environment.scopes.depth ≠ env.scopes.depth)
    (host : (accepted.environment.frame.isModule || accepted.environment.frame.isClass) = true) :
    env.frame.isModule = true ∧ Outline.Hosts (first :: tail) := by
  obtain ⟨mods, head, rest, modifiers, accepts⟩ := statement_accepts read
  have noSemicolon : ¬Ends head rest .semicolon := not_ends_of_read brace modifiers (by simp)
  have blocked : ∀ {f : Frame}, accepted.environment.frame = f → f.isBlock = true → False := by
    rintro f rfl block
    rw [isBlock_of_host host] at block
    cases block
  generalize same : (⟨accepted.environment, accepted.node⟩ : Accepted) = found at accepts
  have environment : accepted.environment = found.environment := congrArg Accepted.environment same
  rw [environment] at deeper
  rw [environment] at host blocked
  cases accepts with
  | moduleDeclared kind titled isModule | moduleEntered kind titled isModule =>
      obtain ⟨_, shape, _⟩ := titled
      exact ⟨isModule, _, .inl (title_of_read modifiers kind shape)⟩
  | classDeclared kind titled isModule | classEntered kind titled isModule =>
      obtain ⟨_, shape, _⟩ := titled
      exact ⟨isModule, _, .inr (title_of_read modifiers kind shape)⟩
  | enumDeclared | enumEntered => cases host
  | functionOpened | constructorOpened =>
      obtain ⟨_, kept⟩ := openBody_kept ..
      exact (blocked rfl (kept.frame.isBlock.trans rfl)).elim
  | conditional | doLoop | forLoop => exact (blocked rfl rfl).elim
  | functionDeclared _ _ _ _ _ _ added =>
      exact absurd (frame_of_sketches (sketches_addFunction? added).1).2.2 deeper
  | constructorDeclared => exact absurd (ScopeStack.depth_modifyCurrent _ _) deeper
  | classMissing | enumMissing => exact absurd rfl deeper
  | _ => exact absurd ‹_› noSemicolon

theorem opened_of_hosts (pass : setting.declaring = true)
    (read : env.statement setting first tail = ⟨accepted.environment, .ok accepted.node⟩)
    (hosts : Outline.Hosts (first :: tail)) :
    accepted.environment.scopes.depth = env.scopes.depth + 1 ∧
      (accepted.environment.frame.isModule || accepted.environment.frame.isClass) = true := by
  obtain ⟨mods, head, rest, modifiers, accepts⟩ := statement_accepts read
  have heads := head_of_hosts modifiers hosts
  generalize same : (⟨accepted.environment, accepted.node⟩ : Accepted) = found at accepts
  have environment : accepted.environment = found.environment := congrArg Accepted.environment same
  rw [environment]
  cases accepts with
  | moduleDeclared | classDeclared => exact ⟨rfl, rfl⟩
  | conditional starts =>
      rcases conditional_eq_some starts with ⟨kind, _⟩ | ⟨kind, _⟩ <;> simp [kind] at heads
  | exited starts =>
      rcases exitKind_eq_some starts with ⟨kind, _⟩ | ⟨kind, _⟩ <;> simp [kind] at heads
  | variableDefined starts | variableKept starts =>
      rcases heads with kind | kind <;> simp [startsVariable, kind, TokenKind.isDatatype] at starts
  | _ => simp_all

-- The condition that a `do` block waits for.
theorem unmarked_of_completed {condition : Node} (keyword : first.kind = .keyword .«while»)
    (semicolon : Ends first tail .semicolon)
    (read : env.wrappedCondition tail.dropLast first = .ok condition) : Unmarked (first :: tail) :=
  unmarked_cons.mpr ⟨Token.endsLibrary_of_kind keyword (by decide),
    (Wordless.of_dropLast (wrappedCondition_wordless read) semicolon rfl).unmarked⟩

theorem Reads.clearOutside (reads : Reads setting waiting env o last alarms)
    (pass : setting.declaring = true)
    (host : (env.frame.isModule || env.frame.isClass) = true) (deep : env.scopes.depth ≠ 1) :
    o.ClearOutside := by
  induction reads with
  | nil => trivial
  | statement checks read semicolon _ ih =>
      obtain ⟨frame, _, depth⟩ :=
        frame_of_sketches (stays_of_statement checks read (.inl semicolon))
      exact ⟨unmarked_of_statement checks read deep (.inl pass), ih (frame.trans host) (by rwa [depth])⟩
  | passed checks read _ level _ ih =>
      obtain ⟨frame, _, depth⟩ := frame_of_sketches (stays_of_statement checks read (.inr level))
      refine ⟨unmarked_of_statement checks read deep (.inl pass), fun hosts => ?_,
        ih (frame.trans host) (by rwa [depth])⟩
      have opened := (opened_of_hosts pass read hosts).1
      rw [level, (frame_of_sketches checks.warned.updated.sketches).2.2] at opened
      omega
  | block checks read _ deeper inner popped closes _ ihInner ih =>
      obtain ⟨_, new, opens, added⟩ := opens_of_header checks read deeper
      have around := (sketches_of_closes opens added inner.level.1 popped closes).1
      obtain ⟨frame, _, depth⟩ := frame_of_sketches around
      refine ⟨unmarked_of_statement checks read deep (.inl pass),
        fun hosts => ihInner ?_ (Opening.deep opens added), ih (frame.trans host) (by rwa [depth])⟩
      rw [(frame_of_sketches (settled_scopes _ _).1).1]
      exact (opened_of_hosts pass read hosts).2
  | completes keyword semicolon condition _ ih =>
      obtain ⟨frame, _, depth⟩ := frame_of_sketches (Environment.sketches_append _)
      exact ⟨unmarked_of_completed keyword semicolon condition,
        ih (frame.trans host) (by rwa [depth])⟩

theorem Reads.clearInside (reads : Reads setting waiting env o last alarms)
    (pass : setting.declaring = false) (ready : env.Ready o) (formed : o.Formed) :
    ((env.frame.isModule || env.frame.isClass) = true → o.ClearInside) ∧
      ((env.frame.isModule || env.frame.isClass) = false → env.scopes.depth ≠ 1 →
        Unmarked o.tokens) := by
  have same : ∀ {env warned : Environment} {o : Outline}, env.Warned warned → env.Ready o →
      warned.Ready o := by
    intro env warned o warns ready
    exact ready.of_kept warns.kept id (fun _ => List.Subset.refl _) (fun _ => List.Subset.refl _)
  induction reads with
  | nil => exact ⟨fun _ => trivial, fun _ _ => by simp [Unmarked, Outline.tokens]⟩
  | @statement _ _ _ _ _ _ _ accepted _ checks read semicolon _ ih =>
      obtain ⟨frame, _, depth⟩ :=
        frame_of_sketches (stays_of_statement checks read (.inl semicolon))
      have ready' := same checks.warned ready
      obtain ⟨n, node, _, _, kept⟩ := shown_of_statement pass ready' read semicolon
      have settled : accepted.settled setting = accepted.environment.grow [n] := by
        rw [Accepted.settled, node, ← append_bodies pass]
      obtain ⟨inside, clear⟩ := ih (settled ▸ (ready'.statement kept).grow _) formed.1
      exact ⟨fun host => inside (frame.trans host), fun bare deep => unmarked_append.mpr
        ⟨unmarked_of_statement checks read deep (.inr bare),
          clear (frame.trans bare) (by rwa [depth])⟩⟩
  | passed checks read leftBrace level =>
      have deeper := (begins_of_header pass (same checks.warned ready) read leftBrace).2.depth
      rw [checks.warned.kept.depth, level] at deeper
      omega
  | @block _ _ _ _ _ _ _ _ _ _ accepted _ _ brace _ _ _ checks read leftBrace deeper inner popped
      closes _ ihInner ih =>
      obtain ⟨_, new, opens, added⟩ := opens_of_header checks read deeper
      obtain ⟨frame, _, depth⟩ :=
        frame_of_sketches (sketches_of_closes opens added inner.level.1 popped closes).1
      have ready' := same checks.warned ready
      obtain ⟨node, begins⟩ := begins_of_header pass ready' read leftBrace
      have settled : accepted.settled setting = accepted.environment := by
        rw [Accepted.settled, node]
      rw [settled] at inner ihInner
      obtain ⟨ns, kept, ⟨shown⟩, _⟩ := inner.shown pass begins.ready
      obtain ⟨front, left, _⟩ := begins.closes brace pass kept shown popped closes
      obtain ⟨_, innerFormed, right, restFormed⟩ := formed
      obtain ⟨innerInside, innerClear⟩ := ihInner begins.ready innerFormed
      obtain ⟨inside, clear⟩ := ih ((ready'.grow front).behind left) restFormed
      have below := Opening.deep opens added
      rw [settled] at below
      have around := frame_of_sketches checks.warned.updated.sketches
      have hosts := hosts_of_opened leftBrace read (by rwa [around.2.2])
      refine ⟨fun host => ⟨?_, inside (frame.trans host)⟩, fun bare deep => ?_⟩
      · cases opened : (accepted.environment.frame.isModule || accepted.environment.frame.isClass)
        · exact .inl (innerClear opened below)
        · exact .inr ⟨(hosts opened).2, innerInside opened⟩
      · have header := unmarked_of_statement checks read deep (.inr bare)
        have body : (accepted.environment.frame.isModule ||
            accepted.environment.frame.isClass) = false := by
          refine Bool.eq_false_iff.mpr fun opened => ?_
          have isModule := (hosts opened).1
          rw [← around.1, isModule] at bare
          cases bare
        simp only [Outline.tokens, unmarked_append, unmarked_cons]
        exact ⟨unmarked_cons.mp header, innerClear body below,
          Token.endsLibrary_of_kind right (by decide), clear (frame.trans bare) (by rwa [depth])⟩
  | @completes env _ block condition _ _ _ _ keyword semicolon decides _ ih =>
      have appended := @sketches_append env setting (block.push condition)
      obtain ⟨frame, _, depth⟩ := frame_of_sketches appended
      have ready' := (ready.statement env.kept_refl).grow [block.push condition]
      rw [← append_bodies pass] at ready'
      obtain ⟨inside, clear⟩ := ih ready' formed.1
      exact ⟨fun host => inside (frame.trans host), fun bare deep => unmarked_append.mpr
        ⟨unmarked_of_completed keyword semicolon decides,
          clear (frame.trans bare) (by rwa [depth])⟩⟩

end Environment

namespace Outline

/-- A statement, or the header of a block, that declares nothing but perhaps a module. -/
structure Undeclaring (tokens : List Token) : Prop where
  entries : entries none tokens = []
  noClass : ∀ name, title? tokens ≠ some (.class, name)
  noEnum : ∀ name, title? tokens ≠ some (.enum, name)

/-- At root level, where `allowed` says that the library's text goes on: it is ended once at most, by
a statement of its own, and what comes after that declares nothing in the root module. -/
inductive Rooted : Bool → Outline → Prop
  | nil {allowed : Bool} : Rooted allowed nil
  | statement {allowed : Bool} {tokens : List Token} {rest : Outline} :
      Unmarked tokens → (allowed = false → Undeclaring tokens) → Rooted allowed rest →
      Rooted allowed (.statement tokens rest)
  | ends {mark : Token} {tail : List Token} {rest : Outline} :
      mark.endsLibrary = true → Unmarked tail → Rooted false rest →
      Rooted true (.statement (mark :: tail) rest)
  | block {allowed : Bool} {header : List Token} {inner rest : Outline} {brace : Token} :
      Unmarked header → Unmarked inner.tokens → brace.endsLibrary = false →
      (allowed = false → Undeclaring header) → Rooted allowed rest →
      Rooted allowed (.block header inner brace rest)

-- What stands in a module is declared there or further down.
theorem suffix_of_declared {o : Outline} {path : List String} {pair : List String × Entry}
    (member : pair ∈ o.declared path) : path <+: pair.1 := by
  induction o generalizing path with
  | nil => cases member
  | statement tokens rest ih =>
      rcases List.mem_append.mp member with here | later
      · obtain ⟨_, _, rfl⟩ := List.mem_map.mp here
        exact List.prefix_refl path
      · exact ih later
  | block header inner brace rest ihInner ih =>
      rcases List.mem_append.mp member with here | later
      · split at here
        next => exact (List.prefix_append path _).trans (ihInner here)
        next =>
          obtain ⟨_, _, rfl⟩ := List.mem_map.mp here
          exact List.prefix_refl path
        next =>
          obtain rfl := List.mem_singleton.mp here
          exact List.prefix_refl path
        next =>
          obtain ⟨_, _, rfl⟩ := List.mem_map.mp here
          exact List.prefix_refl path
      · exact ih later

end Outline

namespace Environment

variable {env last : Environment} {setting : Setting} {mods : LeadingModifiers}
  {first head : Token} {tail rest : List Token}
  {accepted : Accepted} {waiting : Option Node} {o : Outline} {alarms : List Token}

theorem keyword_or_variable (read : env.read setting mods head rest = .ok accepted) :
    (∃ k, head.kind = .keyword k) ∨ startsVariable head = true := by
  cases kind : head.kind with
  | keyword k => exact .inl ⟨k, rfl⟩
  | identifier => exact .inr (by simp [startsVariable, kind])
  | datatype p =>
      simp only [Environment.read, kind] at read
      split at read
      next isDatatype => exact .inr (by simp [startsVariable, kind, isDatatype])
      next => simp at read
  | punctuation p =>
      cases p with
      | question => exact .inr (by simp [startsVariable, kind])
      | _ => simp [Environment.read, kind, TokenKind.isDatatype] at read
  | _ => simp [Environment.read, kind, TokenKind.isDatatype] at read

theorem inLibrary_of_read {id : ModuleId} (frame : env.frame = .parent id)
    (read : env.read setting mods head rest = .ok accepted)
    (declares : (head.kind = .keyword .fn ∨ head.kind = .keyword .«class» ∨
      head.kind = .keyword .enum) ∨ startsVariable head = true) : env.inLibrary = true := by
  rcases declares with (kind | kind | kind) | starts
  · simp only [Environment.read, kind, function, Checked.bind_eq_ok] at read
    obtain ⟨_, _, _, place, _⟩ := read
    simpa [requireFunctionPlace, frame] using place
  · simp only [Environment.read, kind, openClass, Checked.bind_eq_ok] at read
    obtain ⟨_, _, _, place, _⟩ := read
    simpa [requireTypePlace, frame] using place
  · simp only [Environment.read, kind, openEnum, Checked.bind_eq_ok] at read
    obtain ⟨_, _, _, place, _⟩ := read
    simpa [requireTypePlace, frame] using place
  · obtain ⟨_, place, _⟩ := variableStatement_eq_ok
      (read_variable starts (by rw [frame]; rfl) read).2
    simp only [placement, frame, Checked.bind_eq_ok, Checked.require_eq_ok] at place
    exact place.choose_spec.1

theorem undeclaring_of_statement (parent : env.frame.isParent = true)
    (closed : env.inLibrary = false)
    (read : env.statement setting first tail = ⟨accepted.environment, .ok accepted.node⟩) :
    Outline.Undeclaring (first :: tail) := by
  cases frame : env.frame with
  | parent id =>
      obtain ⟨mods, head, rest, modifiers, _⟩ := statement_accepts read
      have read := statement_read read modifiers (.inr (by simp [frame]))
      have declaring := fun declares => inLibrary_of_read frame read declares
      rw [closed] at declaring
      obtain ⟨k, kind⟩ : ∃ k, head.kind = .keyword k :=
        (keyword_or_variable read).resolve_right fun starts => nomatch declaring (.inr starts)
      have title : ∀ k' name, Outline.title? (first :: tail) = some (k', name) → k' = k := by
        intro k' name title
        unfold Outline.title? at title
        rw [Outline.lead_of_read modifiers] at title
        cases rest with
        | nil => cases title
        | cons =>
            simp only [kind] at title
            cases title
            rfl
      refine ⟨?_, fun name titled => ?_, fun name titled => ?_⟩
      · unfold Outline.entries
        rw [Outline.lead_of_read modifiers]
        cases rest with
        | nil => rfl
        | cons => cases k <;> simp_all
      · cases title _ _ titled
        exact nomatch declaring (.inl (by simp [kind]))
      · cases title _ _ titled
        exact nomatch declaring (.inl (by simp [kind]))
  | _ =>
      rw [frame] at parent
      cases parent

theorem undeclaring_of_while (keyword : first.kind = .keyword .«while») :
    Outline.Undeclaring (first :: tail) := by
  have lead : Outline.lead (first :: tail) = first :: tail := by
    simp [Outline.lead, keyword, TokenKind.isModifier]
  refine ⟨?_, fun name => ?_, fun name => ?_⟩
  · cases tail <;> simp [Outline.entries, lead, keyword]
  · cases tail <;> simp [Outline.title?, lead, keyword]
  · cases tail <;> simp [Outline.title?, lead, keyword]

theorem unmarked_of_header (pass : setting.declaring = true) (brace : Ends first tail .leftBrace)
    (read : env.statement setting first tail = ⟨accepted.environment, .ok accepted.node⟩) :
    Unmarked (first :: tail) ∧ accepted.environment.inLibrary = env.inLibrary := by
  rcases statement_marks read with clear | ⟨kept, _⟩ | ends
  · exact clear
  · rw [pass] at kept
    cases kept
  · have semicolon := ends.semicolon
    rw [Ends, brace] at semicolon
    cases semicolon

theorem Reads.rooted (reads : Reads setting waiting env o last alarms)
    (pass : setting.declaring = true) (parent : env.frame.isParent = true)
    (level : env.scopes.depth = 1) (inside : o.ClearInside) (formed : o.Formed) :
    o.Rooted env.inLibrary := by
  have bare : ∀ {env : Environment}, env.frame.isParent = true → env.frame.isBlock = false := by
    intro env parent
    cases frame : env.frame <;> rw [frame] at parent <;> first | rfl | cases parent
  induction reads with
  | nil => exact .nil
  | @statement _ _ _ _ _ _ _ accepted _ checks read semicolon _ ih =>
      have same := stays_of_statement checks read (.inl semicolon)
      cases checks.warned.eq (bare parent)
      obtain ⟨_, frame, depth⟩ := frame_of_sketches same
      have behind := ih (frame.trans parent) (depth.trans level) inside formed.1
      rw [(settled_scopes accepted setting).2] at behind
      rcases statement_marks read with ⟨clear, library⟩ | ⟨kept, _⟩ | ends
      · rw [library] at behind
        exact .statement clear (fun closed => undeclaring_of_statement parent closed read) behind
      · rw [pass] at kept
        cases kept
      · rw [ends.left] at behind
        rw [ends.allowed]
        exact .ends ends.marks ends.behind behind
  | @passed _ _ _ _ _ _ _ accepted _ _ _ checks read leftBrace level' _ ih =>
      have same := stays_of_statement checks read (.inr level')
      cases checks.warned.eq (bare parent)
      obtain ⟨_, frame, depth⟩ := frame_of_sketches same
      have behind := ih (frame.trans parent) (depth.trans level) inside.2 formed.2.2.2
      rw [(settled_scopes accepted setting).2] at behind
      obtain ⟨clear, library⟩ := unmarked_of_header pass leftBrace read
      rw [library] at behind
      have body := inside.1.resolve_right fun hosts => by
        have opened := (opened_of_hosts pass read hosts.1).1
        omega
      exact .block clear body (Token.endsLibrary_of_kind formed.2.2.1 (by decide))
        (fun closed => undeclaring_of_statement parent closed read) behind
  | @block _ _ _ _ _ _ _ _ _ _ accepted _ _ _ _ _ _ checks read leftBrace deeper inner popped closes
      _ _ ih =>
      obtain ⟨_, new, opens, added⟩ := opens_of_header checks read deeper
      obtain ⟨around, kept⟩ := sketches_of_closes opens added inner.level.1 popped closes
      cases checks.warned.eq (bare parent)
      obtain ⟨_, frame, depth⟩ := frame_of_sketches around
      have behind := ih (frame.trans parent) (depth.trans level) inside.2 formed.2.2.2
      have below := Opening.deep opens added
      obtain ⟨clear, library⟩ := unmarked_of_header pass leftBrace read
      rw [kept, inner.level.2 below, (settled_scopes accepted setting).2, library] at behind
      refine .block clear ?_ (Token.endsLibrary_of_kind formed.2.2.1 (by decide))
        (fun closed => undeclaring_of_statement parent closed read) behind
      rcases inside.1 with body | ⟨hosts, inside⟩
      · exact body
      · have host := (opened_of_hosts pass read hosts).2
        rw [← (frame_of_sketches (settled_scopes accepted setting).1).1] at host
        exact (inner.clearOutside pass host below).unmarked inside formed.2.1
  | completes keyword semicolon condition _ ih =>
      obtain ⟨_, frame, depth⟩ := frame_of_sketches (Environment.sketches_append _)
      have behind := ih (frame.trans parent) (depth.trans level) inside formed.1
      rw [inLibrary_append] at behind
      exact .statement (unmarked_of_completed keyword semicolon condition)
        (fun _ => undeclaring_of_while keyword) behind

end Environment

namespace Outline

-- The part of a text at root level that stands before the end of the library's own text.
def library : Outline → Outline
  | nil => nil
  | statement tokens rest =>
      if tokens.any Token.endsLibrary then nil else statement tokens rest.library
  | block header inner brace rest => block header inner brace rest.library

variable {o : Outline} {allowed : Bool}

theorem Formed.library (formed : o.Formed) : o.library.Formed := by
  induction o with
  | nil => trivial
  | statement tokens rest ih =>
      unfold Outline.library
      split
      next => trivial
      next =>
        obtain ⟨behind, ends | ⟨first, front, same, plain, rfl⟩⟩ := formed
        · exact ⟨ih behind, .inl ends⟩
        · exact ⟨ih behind, .inr ⟨first, front, same, plain, rfl⟩⟩
  | block header inner brace rest _ ih =>
      obtain ⟨opens, inside, closing, behind⟩ := formed
      exact ⟨opens, inside, closing, ih behind⟩

theorem Formed.balanced (formed : o.Formed) (depth : Nat) :
    braceDepth depth o.tokens = depth := by
  induction o generalizing depth with
  | nil => rfl
  | statement tokens rest ih =>
      rw [Outline.tokens, braceDepth_append]
      obtain ⟨behind, ⟨front, last, rfl, plain, kind⟩ | ⟨_, _, _, plain, _⟩⟩ := formed
      · rw [braceDepth_append, braceDepth_open plain,
          braceDepth_plain (by simp [kind]) (by simp [kind])]
        exact ih behind depth
      · rw [braceDepth_open plain]
        exact ih behind depth
  | block header inner brace rest ihInner ih =>
      obtain ⟨⟨front, last, rfl, plain, kind⟩, inside, closing, behind⟩ := formed
      have opened : braceDepth depth (front ++ [last]) = depth + 1 := by
        rw [braceDepth_append, braceDepth_open plain, braceDepth_leftBrace kind]
        rfl
      rw [Outline.tokens, braceDepth_append, opened, braceDepth_append, ihInner inside,
        braceDepth_rightBrace closing]
      exact ih behind depth

theorem any_endsLibrary {tokens : List Token} (clear : Unmarked tokens) :
    tokens.any Token.endsLibrary = false := by
  simpa [Unmarked] using clear

theorem Rooted.ended (rooted : o.Rooted allowed) (closed : allowed = false) :
    Unmarked o.tokens ∧ o.library = o ∧ ∀ entry, (o.declared []).count ([], entry) = 0 := by
  induction rooted with
  | nil => exact ⟨by simp [Unmarked, tokens], rfl, fun _ => rfl⟩
  | statement clear undeclaring _ ih =>
      obtain ⟨behind, same, nothing⟩ := ih closed
      refine ⟨unmarked_append.mpr ⟨clear, behind⟩, ?_, fun entry => ?_⟩
      · rw [library, any_endsLibrary clear, if_neg Bool.false_ne_true, same]
      · rw [declared, (undeclaring closed).entries]
        exact nothing entry
  | ends => cases closed
  | @block _ header inner rest brace clear body closing undeclaring _ ih =>
      obtain ⟨behind, same, nothing⟩ := ih closed
      refine ⟨?_, by rw [library, same], fun entry => ?_⟩
      · simp only [tokens, unmarked_append, unmarked_cons]
        exact ⟨clear, body, closing, behind⟩
      · rw [declared, List.count_append, nothing entry, Nat.add_zero, List.count_eq_zero]
        split
        next =>
          intro member
          simpa using suffix_of_declared member
        next title => exact absurd title ((undeclaring closed).noClass _)
        next title => exact absurd title ((undeclaring closed).noEnum _)
        next => simp [(undeclaring closed).entries]

theorem Rooted.divided (rooted : o.Rooted allowed) :
    Unmarked o.library.tokens ∧
      (o.library = o ∨ ∃ mark rest, allowed = true ∧ o.tokens = o.library.tokens ++ mark :: rest ∧
        mark.endsLibrary = true ∧ Unmarked rest) ∧
      ∀ entry, (o.declared []).count ([], entry) = (o.library.declared []).count ([], entry) := by
  induction rooted with
  | nil => exact ⟨by simp [Unmarked, library, tokens], .inl rfl, fun _ => rfl⟩
  | @statement _ tokens rest clear _ _ ih =>
      obtain ⟨own, divided, counts⟩ := ih
      have same : (Outline.statement tokens rest).library = .statement tokens rest.library := by
        rw [library, any_endsLibrary clear, if_neg Bool.false_ne_true]
      rw [same]
      refine ⟨unmarked_append.mpr ⟨clear, own⟩, ?_, fun entry => ?_⟩
      · rcases divided with whole | ⟨mark, later, allowed, whole, marks, behind⟩
        · exact .inl (by rw [whole])
        · exact .inr ⟨mark, later, allowed, by simp [Outline.tokens, whole], marks, behind⟩
      · simp only [declared, List.count_append, counts entry]
  | @ends mark tail rest marks behind past =>
      have cut : (Outline.statement (mark :: tail) rest).library = .nil := by simp [library, marks]
      obtain ⟨later, _, nothing⟩ := past.ended rfl
      rw [cut]
      refine ⟨by simp [Unmarked, tokens], .inr ⟨mark, tail ++ rest.tokens, rfl, rfl, marks,
        unmarked_append.mpr ⟨behind, later⟩⟩, fun entry => ?_⟩
      have skipped : entries none (mark :: tail) = [] := by
        have kind : mark.kind = .keyword .libraryEnd := by simpa [Token.endsLibrary] using marks
        have lead : lead (mark :: tail) = mark :: tail := by
          simp [lead, kind, TokenKind.isModifier]
        cases tail <;> simp [entries, lead, kind]
      show List.count _ ((entries none (mark :: tail)).map ([], ·) ++ rest.declared []) = 0
      rw [skipped]
      exact nothing entry
  | @block _ header inner rest brace clear body closing _ _ ih =>
      obtain ⟨own, divided, counts⟩ := ih
      refine ⟨?_, ?_, fun entry => ?_⟩
      · simp only [library, tokens, unmarked_append, unmarked_cons]
        exact ⟨clear, body, closing, own⟩
      · rcases divided with whole | ⟨mark, later, allowed, whole, marks, behind⟩
        · exact .inl (by rw [library, whole])
        · exact .inr ⟨mark, later, allowed, by simp [library, Outline.tokens, whole], marks, behind⟩
      · simp only [library, declared, List.count_append, counts entry]

end Outline

/-- The root module is the library's: what is in it is what a text declares at root level before the
library's text is over. That is said once at most, outside of all braces, and both only in a text
that starts as the library's. -/
structure ModuleTree.LibraryRooted (t : ModuleTree) (o : Outline) : Prop where
  entries : ∀ entry, (t.entriesAt []).count entry = (o.library.declared []).count ([], entry)
  before : ∃ beyond, o.tokens = o.library.tokens ++ beyond ∧ Unmarked o.library.tokens ∧
    ∀ t, beyond.head? = some t → t.endsLibrary = true
  once : o.tokens.countP Token.endsLibrary ≤ 1
  outside : ∀ front mark back, o.tokens = front ++ mark :: back → mark.endsLibrary = true →
    front = o.library.tokens ∧ braceDepth 0 front = 0
  foreign : o.tokens.head?.any (·.span.isLibrary) = false →
    t.entriesAt [] = [] ∧ Unmarked o.tokens

namespace Analysis

variable {tokens : List Token} {o : Outline} {modules : ModuleTree}

theorem countP_eq_zero_of_unmarked {tokens : List Token} (clear : Unmarked tokens) :
    tokens.countP Token.endsLibrary = 0 := by
  simpa [Unmarked] using clear

-- Around the only mark in it, a text is divided in one way.
theorem eq_of_marks {own rest front back : List Token} {other mark : Token} (clear : Unmarked own)
    (behind : Unmarked rest) (marks : mark.endsLibrary = true)
    (same : own ++ other :: rest = front ++ mark :: back) : front = own := by
  have unmarked : ∀ {tokens : List Token}, Unmarked tokens → mark ∉ tokens := by
    intro tokens clear member
    rw [clear mark member] at marks
    cases marks
  rcases List.append_eq_append_iff.mp same with ⟨between, front', later⟩ | ⟨between, own', later⟩
  · cases between with
    | nil => simpa using front'
    | cons t between =>
        obtain ⟨_, rest'⟩ := List.cons.inj later
        exact absurd (by rw [rest']; simp) (unmarked behind)
  · cases between with
    | nil => simpa using own'.symm
    | cons t between =>
        obtain ⟨rfl, _⟩ := List.cons.inj later
        exact absurd (by rw [own']; simp) (unmarked clear)

theorem libraryRooted_of_rooted (formed : o.Formed) (declared : modules.DeclaredBy o)
    (rooted : o.Rooted (o.tokens.head?.any (·.span.isLibrary))) : modules.LibraryRooted o := by
  obtain ⟨own, divided, counts⟩ := rooted.divided
  have level := formed.library.balanced 0
  refine ⟨fun entry => ?_, ?_, ?_, ?_, fun foreign => ?_⟩
  · rw [declared.entries, counts]
  · rcases divided with whole | ⟨mark, rest, _, whole, marks, _⟩
    · exact ⟨[], by rw [whole, List.append_nil], own, by simp⟩
    · exact ⟨mark :: rest, whole, own, by simpa using marks⟩
  · rcases divided with whole | ⟨mark, rest, _, whole, _, behind⟩
    · rw [← whole, countP_eq_zero_of_unmarked own]
      exact Nat.zero_le 1
    · rw [whole, List.countP_append, List.countP_cons, countP_eq_zero_of_unmarked own,
        countP_eq_zero_of_unmarked behind]
      split <;> simp
  · intro front mark back split marks
    suffices same : front = o.library.tokens from ⟨same, same ▸ level⟩
    rcases divided with whole | ⟨mark', rest, _, whole, _, behind⟩
    · rw [whole] at own
      have clear := own mark (by simp [split])
      rw [marks] at clear
      cases clear
    · exact eq_of_marks own behind marks (whole.symm.trans split)
  · obtain ⟨clear, _, nothing⟩ := rooted.ended foreign
    refine ⟨List.eq_nil_iff_forall_not_mem.mpr fun entry member => ?_, clear⟩
    have counted := List.count_pos_iff.mpr member
    rw [declared.entries, nothing entry] at counted
    exact Nat.lt_irrefl 0 counted

/-- The root level belongs to the library, in every text that is accepted. -/
theorem root_libraryOwned {host : Host} {maxErrors : Nat}
    (accepted : (ofTokens host maxErrors tokens).isOk = true) :
    ∃ o, Outline.ofTokens? tokens = some o ∧ o.tokens = tokens ∧
      (ofTokens host maxErrors tokens).modules.LibraryRooted o := by
  obtain ⟨firstClean, secondClean⟩ := isOk_iff.mp accepted
  obtain ⟨o, _, outline, formed, _, reads⟩ := runPass_reads firstClean
  obtain ⟨whole, _⟩ := Outline.ofTokens?_formed outline
  obtain ⟨complete, gains⟩ := runPass_declares rfl firstClean outline
  obtain ⟨_, keeps⟩ :=
    runPass_builds rfl secondClean outline complete gains.arena gains.declaredBy
  have failed : (runPass ⟨.declarations, host⟩ .empty { maxErrors } tokens).log.failed = false :=
    firstClean
  refine ⟨o, outline, whole.symm, ?_⟩
  simp only [ofTokens, failed, Bool.false_eq_true, if_false]
  have declared := keeps.declaredBy gains.arena gains.declaredBy
  obtain ⟨_, _, same, _, _, again⟩ := runPass_reads secondClean
  cases outline.symm.trans same
  have inside := (again.clearInside rfl
    (startPass_ready complete gains.arena gains.declaredBy) formed).1 rfl
  have rooted := reads.rooted rfl rfl rfl inside formed
  refine libraryRooted_of_rooted formed declared ?_
  rw [← whole]
  exact rooted

-- The program `enum E { A; } class C { int x = 1; new () { } } int n = 2; fn f { }
-- STANDARDLIB_MI_FINISH_CODE; module m { int n = 3; }`, the library's as a whole.
def libraryProgram : List Token :=
  [Token.alone (.keyword .enum) "enum", .alone .identifier "E", .alone .leftBrace "\x7b",
    .alone .identifier "A", .alone .semicolon ";", .alone .rightBrace "\x7d",
    .alone (.keyword .«class») "class", .alone .identifier "C", .alone .leftBrace "\x7b",
    .alone (.datatype .int) "int", .alone .identifier "x", .alone .assign "=",
    .alone (.literal .int) "1", .alone .semicolon ";", .alone (.keyword .new) "new",
    .alone .leftParen "(", .alone .rightParen ")", .alone .leftBrace "\x7b",
    .alone .rightBrace "\x7d", .alone .rightBrace "\x7d", .alone (.datatype .int) "int",
    .alone .identifier "n", .alone .assign "=", .alone (.literal .int) "2",
    .alone .semicolon ";", .alone (.keyword .fn) "fn", .alone .identifier "f",
    .alone .leftBrace "\x7b", .alone .rightBrace "\x7d",
    .alone (.keyword .libraryEnd) "STANDARDLIB_MI_FINISH_CODE", .alone .semicolon ";",
    .alone (.keyword .module) "module", .alone .identifier "m", .alone .leftBrace "\x7b",
    .alone (.datatype .int) "int", .alone .identifier "n", .alone .assign "=",
    .alone (.literal .int) "3", .alone .semicolon ";", .alone .rightBrace "\x7d"].map
    fun t => { t with span := ⟨t.span.start, t.span.stop, libraryFile⟩ }

theorem libraryProgram_owned :
    (ofTokens {} 100 libraryProgram).isOk = true ∧
      ∃ o, Outline.ofTokens? libraryProgram = some o ∧ o.tokens = libraryProgram ∧
        (ofTokens {} 100 libraryProgram).modules.LibraryRooted o := by
  have accepted : (ofTokens {} 100 libraryProgram).isOk = true := by decide +kernel
  exact ⟨accepted, root_libraryOwned accepted⟩

end Analysis

end MiLanguage
