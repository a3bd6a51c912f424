import MiLanguage.Proofs.Naming.Run
import MiLanguage.Proofs.Visibility.Filing
import MiLanguage.Proofs.Visibility.Writing

set_option autoImplicit false

namespace MiLanguage

/-- The scopes and the text left of a pass over a text. -/
structure Filing (tokens remaining : List Token) (scopes : List Scope) : Prop where
  suffix : remaining <:+ tokens
  fits : Fits remaining 0 scopes
  filed : Filed scopes

variable {tokens remaining rest later : List Token} {scopes scopes' : List Scope}
  {env after : Environment} {setting : Setting} {nodes : List Node} {first head : Token}
  {tail : List Token} {accepted : Accepted}

namespace Filing

theorem kept (filing : Filing tokens remaining scopes)
    (kept : List.Forall₂ Scope.Kept scopes scopes') : Filing tokens remaining scopes' :=
  ⟨filing.suffix, filing.fits.alike (kept.imp fun _ _ => Scope.Kept.alike), filing.filed.kept kept⟩

theorem fewer (filing : Filing tokens remaining scopes) (suffix : rest <:+ remaining)
    (fewer : ∀ depth, Chunk.block depth rest ⊆ Chunk.block depth remaining) :
    Filing tokens rest scopes :=
  ⟨suffix.trans filing.suffix, filing.fits.fewer fewer, filing.filed⟩

theorem grow (filing : Filing tokens remaining env.scopes.all)
    (placed : (∀ scope ∈ env.scopes.all, scope.discard = false) →
      ∀ c ∈ nodes, c.Placed (filesOf env.scopes.all)) :
    Filing tokens remaining (env.grow nodes).scopes.all := by
  obtain ⟨outer, all, grown⟩ := env.all_grow nodes
  obtain ⟨suffix, fits, filed⟩ := filing
  rw [all] at fits filed placed
  rw [grown]
  refine ⟨suffix, fits.alike (.cons (filed.holds.alike (.refl _) rfl rfl) ?_), filed.grow placed⟩
  exact List.forall₂_same.mpr fun _ _ => ⟨rfl, rfl, rfl⟩

theorem statement {s : AnalysisState} (filing : Filing tokens s.remaining scopes)
    (takes : s.Takes first rest later) (semicolon : Ends first rest .semicolon) :
    Filing tokens later scopes := by
  refine filing.fewer ?_ fun depth => ?_
  · rw [takes.split.1]
    exact ⟨first :: rest, rfl⟩
  · rw [(takes.block depth).1 semicolon]
    exact List.subset_append_right _ _

theorem header {s : AnalysisState} (filing : Filing tokens s.remaining scopes)
    (takes : s.Takes first rest later) (brace : Ends first rest .leftBrace) :
    later <:+ tokens ∧ Fits later 1 scopes := by
  refine ⟨?_, filing.fits.shift fun more => ?_⟩
  · refine List.IsSuffix.trans ?_ filing.suffix
    rw [takes.split.1]
    exact ⟨first :: rest, rfl⟩
  · rw [(takes.block _).2 brace, Nat.zero_add, Nat.add_comm 1 more]
    exact List.subset_append_right _ _

theorem inside {s : AnalysisState} (filing : Filing tokens s.remaining scopes)
    (takes : s.Takes first rest later) (notClosing : first.kind ≠ .rightBrace) :
    Tokens.In (filesOf scopes) (first :: rest) := by
  refine filing.fits.within fun more => ?_
  rcases takes.ends notClosing with semicolon | brace
  · rw [(takes.block _).1 semicolon]
    exact List.subset_append_left _ _
  · rw [(takes.block _).2 brace]
    exact List.subset_append_left _ _

end Filing

theorem filesOf_cons {scope : Scope} (unfiled : scope.file? = none) {file : FileId} :
    filesOf (scope :: scopes) file ↔ filesOf scopes file := by
  rw [filesOf, List.forall_mem_cons, unfiled]
  simp [filesOf]

theorem Writes.filing {s : AnalysisState} {mods : LeadingModifiers}
    (writes : Writes (filesOf s.environment.scopes.all) s.environment head tail accepted)
    (classes : ClassesInOneFile tokens) (pass : s.setting.declaring = false)
    (filing : Filing tokens s.remaining s.environment.scopes.all)
    (takes : s.Takes first rest later) (notClosing : first.kind ≠ .rightBrace)
    (modifiers : LeadingModifiers.read (first :: rest) = .ok (mods, head :: tail))
    (deeper : Ends first rest .leftBrace →
      accepted.environment.scopes.depth ≠ s.environment.scopes.depth) :
    Filing tokens later (accepted.settled s.setting).scopes.all := by
  cases writes with
  | @adds after node kept within =>
      have level : after.scopes.depth = s.environment.scopes.depth := kept.depth
      have semicolon := (takes.ends notClosing).resolve_right fun brace => deeper brace level
      have behind := filing.statement takes semicolon
      unfold Accepted.settled
      cases node with
      | none => exact behind.kept kept.scopes
      | some n =>
          have grown : Filing tokens later (s.environment.grow [n]).scopes.all := by
            refine behind.grow fun _ c member => ?_
            rw [List.mem_singleton.mp member]
            exact (within n rfl).placed
          simp only [Environment.append_bodies pass]
          exact grown.kept (kept.grow [n]).scopes
  | @opens frame n opened brace noHead noLoop plain within ofClass kept =>
      obtain ⟨suffix, fits⟩ := filing.header takes (ends_of_read brace modifiers)
      refine Filing.kept ⟨suffix, ?_, ?_⟩ kept.scopes
      · refine Fits.scope noHead (by simpa using noLoop) ?_ fits
        intro found file
        unfold Scope.file? at file
        split at file
        next kind =>
          obtain ⟨word, ⟨name, title, brace, shape, left, _⟩, _⟩ := ofClass kind
          have suffix := filing.suffix
          have statement := (LeadingModifiers.read_append modifiers).1
          rw [takes.split.1, ← List.cons_append, statement, shape, List.append_assoc] at suffix
          have same : name.span.fileId = found := by simpa [title] using file
          subst same
          exact classes.body ((List.suffix_append _ _).trans suffix) word left
        next => cases file
      · refine .inner filing.filed ⟨plain, ?_, ?_⟩
        · intro kind
          obtain ⟨_, ⟨name, title, _⟩, _⟩ := ofClass kind
          rw [title]
          rfl
        · intro _ c member
          by_cases kind : n.kind = .createClass
          · exact ((ofClass kind).2.2 _ c member).placed
          · refine (within c member).placed.mono fun file => (filesOf_cons ?_).mpr
            simp [Scope.file?, kind]
  | @loops start condition step stepped line brace start' condition' step' kept =>
      obtain ⟨suffix, fits⟩ := filing.header takes (ends_of_read brace modifiers)
      obtain ⟨outer, all, grown⟩ := stepped.all_grow [start, condition, step]
      have around := kept.scopes
      rw [all] at around
      have alike := around.imp fun _ _ => Scope.Kept.alike
      have headHolds : Scope.Holds s.environment.scopes.all
          { frame := .block .loopHead {}, node := .new .forFakeScope line } :=
        Scope.holds_new rfl (by simp) rfl
      have head : Filed (stepped.scopes.current :: outer) :=
        Filed.kept (.inner filing.filed headHolds) around
      have filed : Filed ({ stepped.scopes.current with
          node := stepped.scopes.current.node.withChildren [start, condition, step] } :: outer) :=
        head.grow fun _ => by
        have files : ∀ file, filesOf s.environment.scopes.all file →
            filesOf (stepped.scopes.current :: outer) file :=
          fun file all => (filesOf_alike alike).mpr ((filesOf_cons rfl).mpr all)
        simpa using ⟨start'.placed.mono files, condition'.placed.mono files, step'.placed.mono files⟩
      show Filing tokens later (_ :: (stepped.grow [start, condition, step]).scopes.all)
      rw [grown]
      cases around with
      | cons top below =>
          refine ⟨suffix, .loop rfl rfl top.frame.blockKind? top.discard rfl ?_
            (fits.alike (below.imp fun _ _ => Scope.Kept.alike)),
            .inner filed (Scope.holds_new rfl (by simp) rfl)⟩
          simp only [Scope.file?, top.node]
          rfl

theorem Environment.Closes.of_discard {scope : Scope} {waiting : Option Node}
    (closes : Closes setting env scope after waiting) (dropped : scope.discard = true) :
    after = env ∧ waiting = none := by
  cases closes with
  | discarded => exact ⟨rfl, rfl⟩
  | _ => simp_all

-- A scope of the second pass closes. What waits for its condition is in the file of each class
-- around it.
theorem Filing.closes {brace : Token} {scope : Scope} {scopes : ScopeStack} {waiting : Option Node}
    (pass : setting.declaring = false) (kind : brace.kind = .rightBrace)
    (filing : Filing tokens (brace :: later) (scope :: scopes.all))
    (closes : Environment.Closes setting { env with scopes } scope after waiting) :
    Filing tokens later after.scopes.all ∧
      ∀ block, waiting = some block → (∀ scope ∈ after.scopes.all, scope.discard = false) →
        block.Placed (filesOf after.scopes.all) := by
  obtain ⟨suffix, fits, filed⟩ := filing
  have suffix : later <:+ tokens := (List.suffix_cons brace later).trans suffix
  have closed : ∀ more, Chunk.block (0 + more) later ⊆ Chunk.block (1 + more) (brace :: later) := by
    intro more
    rw [Nat.add_comm 1 more, Chunk.block_rightBrace kind, Nat.zero_add]
    exact List.subset_cons_self _ _
  have around : Filed scopes.all := filed.around scopes.all_ne_nil
  have leaves : scope.discard = false → (∀ scope ∈ scopes.all, scope.discard = false) →
      scope.node.Placed (filesOf scopes.all) := fun kept shown =>
    filed.holds.node_placed (List.forall_mem_cons.mpr ⟨kept, shown⟩)
  rcases fits.around scopes.all_ne_nil with ⟨noLoop, below⟩ | ⟨loop, kept, head, below, all, kept', fits⟩
  · have behind : Filing tokens later scopes.all := ⟨suffix, below.shift closed, around⟩
    cases kept : scope.discard with
    | true =>
        obtain ⟨rfl, rfl⟩ := closes.of_discard kept
        exact ⟨behind, by simp⟩
    | false =>
        by_cases body : scope.frame.blockKind? = some .doLoop
        · obtain ⟨rfl, rfl⟩ := closes.ofDo kept body
          refine ⟨behind, ?_⟩
          rintro _ same shown
          cases same
          exact leaves kept shown
        · obtain ⟨rfl, left⟩ := closes.keeps pass kept body fun same => noLoop (by rw [same, kept])
          refine ⟨Filing.kept (behind.grow fun shown => ?_) left.scopes, by simp⟩
          simpa using leaves kept shown
  · obtain ⟨outer, top, grown⟩ := ({ env with scopes } : Environment).all_grow [scope.node]
    have top : scopes.all = scopes.current :: outer := top
    obtain ⟨rfl, rfl⟩ := List.cons.inj (all.symm.trans top)
    have deep : scopes.depth ≠ 1 := by
      intro (shallow : scopes.opened.length + 1 = 1)
      have length : scopes.opened.length + 1 = below.length + 1 := by
        simpa [ScopeStack.all] using congrArg List.length all
      exact fits.ne_nil (List.eq_nil_of_length_eq_zero (by omega))
    obtain ⟨rfl, head', scopes', popped, rfl⟩ := closes.ofFor pass kept loop deep
    have shape := (ScopeStack.all_of_pop? popped).symm.trans grown
    obtain ⟨rfl, rest⟩ := List.cons.inj shape
    rw [all] at around leaves
    have whole : Filed ({ scopes.current with
        node := scopes.current.node.withChildren [scope.node] } :: below) :=
      around.grow fun shown => by simpa using leaves kept shown
    rw [← rest] at whole fits
    have behind : Filing tokens later ({ env with scopes := scopes' } : Environment).scopes.all :=
      ⟨suffix, fits.shift closed, whole.around scopes'.all_ne_nil⟩
    refine ⟨behind.grow fun shown => ?_, by simp⟩
    simpa using whole.holds.node_placed (List.forall_mem_cons.mpr ⟨kept', shown⟩)

theorem Scope.kept_fulfilled (scope : Scope) : scope.Kept scope.fulfilled := by
  refine ⟨rfl, rfl, ?_⟩
  unfold Scope.fulfilled
  cases scope.frame with
  | block => exact .block
  | _ => exact .refl _

theorem Hidden.discards {sketches : List Sketch} (hidden : Hidden sketches) :
    ∃ s ∈ sketches, s.discard = true := by
  induction hidden with
  | recovery discard => exact ⟨_, by simp, discard⟩
  | inner _ _ ih | loop _ ih =>
      obtain ⟨s, member, discard⟩ := ih
      exact ⟨s, by simp [member], discard⟩

theorem Concealed.discards {t : ModuleTree} {upper lower : List Scope} {here : Sight}
    (concealed : Concealed t Unasked scopes upper lower here) : ∃ scope ∈ scopes, scope.discard = true := by
  obtain ⟨sketch, member, discard⟩ := concealed.hidden.discards
  obtain ⟨scope, inside, rfl⟩ := List.mem_map.mp member
  refine ⟨scope, ?_, discard⟩
  rw [concealed.split]
  exact List.mem_append_left _ inside

namespace AnalysisState

variable {s t first' last : AnalysisState} {mods : LeadingModifiers}

theorem Keeps.known (keeps : Keeps Unasked first' last s) (coherent : first'.Coherent)
    (known : last.environment.declared.Known last.environment.declared)
    {files : FileId → Prop} (inside : Tokens.In files (head :: tail))
    (takes : s.Takes first rest later) (notClosing : first.kind ≠ .rightBrace)
    (modifiers : LeadingModifiers.read (first :: rest) = .ok (mods, head :: tail))
    (read : s.environment.statement s.setting first rest =
      ⟨accepted.environment, .ok accepted.node⟩)
    (starts : startsVariable head = true) {placement : Placement} {place : Token}
    (placed : s.environment.placement place = .ok placement) (outside : placement ≠ .inBlock)
    {n : Node} (node : accepted.node = some n) : n.Within files := by
  have bare : s.environment.frame.isBlock = false := by
    unfold Environment.placement at placed
    cases frame : s.environment.frame with
    | block =>
        rw [frame] at placed
        cases placed
        exact absurd rfl outside
    | _ => rfl
  obtain ⟨p, leads, meets⟩ := keeps.inStep.outside bare
  have coherent := (coherent.leads leads).1
  cases keeps.grows with
  | shown grown =>
      obtain ⟨v, w, name, declared, _, first, rfl, _, typed, valued, _⟩ :=
        meets.known coherent (keeps.completes known) grown.stands takes notClosing modifiers read starts
          placed node
      rw [typed, valued]
      exact Environment.defined_within inside first (.inl meets.scouts.declaring) rfl
  | hidden concealed =>
      obtain ⟨scope, member, discard⟩ := concealed.discards
      have kept := Environment.discard_of_outside (meets.level.titles ▸ coherent.outer.outside)
      rw [kept scope member] at discard
      cases discard

theorem Keeps.waiting (keeps : Keeps Unasked first' last s) {block : Node}
    (waiting : s.pendingDo = some block)
    (shown : ∀ scope ∈ s.environment.scopes.all, scope.discard = false) :
    block.kind ≠ .createClass := by
  cases keeps.grows with
  | shown _ waits =>
      obtain ⟨_, _, _, _, kind, _⟩ := waits _ waiting
      simp [kind]
  | hidden concealed =>
      obtain ⟨scope, member, discard⟩ := concealed.discards
      rw [shown scope member] at discard
      cases discard

/-- What holds of the second pass over a text in which each class is in one file. -/
structure Files (tokens : List Token) (s : AnalysisState) : Prop where
  filing : Filing tokens s.remaining s.environment.scopes.all
  waits : ∀ block, s.pendingDo = some block →
    (∀ scope ∈ s.environment.scopes.all, scope.discard = false) →
    block.Placed (filesOf s.environment.scopes.all)

theorem Files.of_idle (filing : Filing tokens s.remaining s.environment.scopes.all)
    (idle : s.pendingDo = none) : s.Files tokens :=
  ⟨filing, fun block waiting => by rw [idle] at waiting; cases waiting⟩

theorem Files.append (files : s.Files tokens) (pass : s.declaring = false) {n : Node}
    (placed : (∀ scope ∈ s.environment.scopes.all, scope.discard = false) →
      n.Placed (filesOf s.environment.scopes.all)) :
    Filing tokens s.remaining (s.environment.append s.setting n).scopes.all := by
  rw [Environment.append_bodies pass]
  exact files.filing.grow fun shown => by simpa using placed shown

theorem Files.turns (files : s.Files tokens) (classes : ClassesInOneFile tokens)
    (keeps : Keeps Unasked first' last s) (coherent : first'.Coherent)
    (known : last.environment.declared.Known last.environment.declared) (turns : s.Turns t) :
    t.Files tokens := by
  have pass := keeps.inStep.pass
  cases turns with
  | reports => exact ⟨files.filing, files.waits⟩
  | breaksOff _ remaining next breaks =>
      obtain ⟨front, whole, plain⟩ := Chunk.next_breaksOff next breaks
      refine ⟨files.filing.fewer ?_ fun depth => ?_, files.waits⟩
      · rw [remaining, whole]
        exact List.suffix_append _ _
      · rw [remaining, whole, Chunk.block_append plain]
        exact List.subset_append_right _ _
  | flushes waiting => exact .of_idle (files.append pass (files.waits _ waiting)) rfl
  | completes waiting takes keyword semicolon read =>
      have inside := files.filing.inside takes (by simp [keyword])
      have condition := Environment.wrappedCondition_within (Tokens.in_cons.mp inside).2.dropLast read
      refine .of_idle ((files.append pass fun shown => ?_).statement takes semicolon) rfl
      exact (files.waits _ waiting shown).push (keeps.waiting waiting shown) condition.placed
  | fails _ waiting takes _ semicolon =>
      exact .of_idle ((files.append pass (files.waits _ waiting)).statement takes semicolon) rfl
  | @closes brace later scope scopes after waiting log idle remaining kind popped closes =>
      have filing := files.filing
      rw [remaining, ScopeStack.all_of_pop? popped] at filing
      have filing := filing.kept (.cons scope.kept_fulfilled
        (List.forall₂_same.mpr fun scope _ => scope.kept_refl))
      obtain ⟨filing, waits⟩ := filing.closes pass kind closes
      exact ⟨filing, waits⟩
  | @stray brace later log idle remaining kind popped =>
      obtain ⟨suffix, fits, filed⟩ := files.filing
      have alone : s.environment.scopes.all = [s.environment.scopes.base] := by
        have depth := (ScopeStack.pop?_eq_none_iff _).mp popped
        have unopened : s.environment.scopes.opened = [] :=
          List.eq_nil_of_length_eq_zero (Nat.succ.inj depth)
        simp [ScopeStack.all, unopened]
      rw [remaining] at suffix
      rw [alone] at fits
      refine .of_idle ⟨(List.suffix_cons brace later).trans suffix, ?_, filed⟩ idle
      show Fits later 0 s.environment.scopes.all
      rw [alone]
      exact fits.single
  | warns _ idle warns => exact .of_idle (files.filing.kept warns.kept.scopes) idle
  | accepts idle takes notClosing modifiers accepts read deeper =>
      have inside := files.filing.inside takes notClosing
      rw [(LeadingModifiers.read_append modifiers).1] at inside
      have inside := (Tokens.in_append.mp inside).2
      have writes := accepts.writes pass inside modifiers read
        fun starts _ _ placed outside _ node =>
          keeps.known coherent known inside takes notClosing modifiers read starts placed outside node
      exact .of_idle (writes.filing classes pass files.filing takes notClosing modifiers deeper) idle
  | rejects _ idle takes notClosing _ semicolon =>
      exact .of_idle (files.filing.statement takes semicolon) idle
  | @recovers first rest later _ log idle takes notClosing _ brace =>
      obtain ⟨suffix, fits⟩ := files.filing.header takes brace
      refine .of_idle ⟨suffix, .scope ?_ (by simp) ?_ fits,
        .inner files.filing.filed (Scope.holds_new rfl (by simp) rfl)⟩ idle
      · simp only [recoveryFrame]
        split
        case h_7 => cases s.environment.frame.isBlock <;> simp [Frame.blockKind?]
        all_goals simp [Frame.blockKind?]
      · intro found named
        rw [Scope.file?_new rfl (by simp)] at named
        cases named
  | skips _ idle takes notClosing _ brace _ found =>
      obtain ⟨suffix, fits⟩ := files.filing.header takes brace
      refine .of_idle ⟨(Chunk.skipBlock_suffix found).trans suffix, ?_, files.filing.filed⟩ idle
      refine fits.shift fun more => ?_
      rw [Nat.zero_add, Nat.add_comm 1 more]
      exact Chunk.block_beyond found
  | runsOff _ idle =>
      exact .of_idle (files.filing.fewer List.nil_suffix fun _ => List.nil_subset _) idle

end AnalysisState

end MiLanguage
