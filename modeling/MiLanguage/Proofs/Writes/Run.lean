import MiLanguage.Proofs.Naming.Run
import MiLanguage.Proofs.Writes.Closing
import MiLanguage.Proofs.Writes.Unmarked

set_option autoImplicit false

namespace MiLanguage

theorem variableNode_quiet {typeToken name : Token} {mods : LeadingModifiers} {type : Datatype}
    {value : Option Node} (still : ∀ n, value = some n → n.Still) :
    (variableNode typeToken name mods type value).Quiet := by
  cases value with
  | none =>
      refine Node.quiet_of_parts rfl rfl ?_
      simpa [variableNode, Node.new] using
        ⟨LeadingModifiers.node_still, Node.still_name, typeNode_still⟩
  | some n =>
      have stored : (Node.new .value typeToken.streamLine [n]).Still :=
        Node.still_of_parts rfl rfl rfl (by simpa [Node.new] using still n rfl)
      refine Node.quiet_of_parts rfl rfl ?_
      simpa [variableNode, Node.new] using
        ⟨LeadingModifiers.node_still, Node.still_name, typeNode_still, stored⟩

theorem Environment.unwritten_of_block {env : Environment} {writes : List Write} {head : Token}
    {tail : List Token} {node : Option Node} (block : env.frame.isBlock = true) :
    env.Unwritten writes head tail node where
  fields _ isModule := by
    rw [isBlock_of_isModule isModule] at block
    cases block
  member _ placement place placed outside := by
    rw [bare_of_placement placed outside] at block
    cases block

-- A class is declared once.
theorem Environment.class_free {env : Environment} {setting : Setting} {mods : LeadingModifiers}
    {first head name : Token} {rest tail : List Token} {accepted : Accepted}
    (pass : setting.declaring = true) (isModule : env.frame.isModule = true)
    (modifiers : LeadingModifiers.read (first :: rest) = .ok (mods, head :: tail))
    (read : env.statement setting first rest = ⟨accepted.environment, .ok accepted.node⟩)
    (kind : head.kind = .keyword .«class») (titled : Titled tail name) :
    env.declared.class? env.currentModule name.lexeme = none := by
  have opened := statement_read read modifiers (.inl (by simp [kind]))
  simp only [Environment.read, kind, openClass, requireFreeName, Checked.bind_eq_ok, if_pos pass,
    Checked.require_eq_ok, Bool.not_eq_true'] at opened
  obtain ⟨_, _, _, _, name', declared, _, brace, _, free, _⟩ := opened
  cases titled.unique (titled_of_named declared brace)
  rw [declared_of_isModule isModule]
  exact isFree_class free

theorem Environment.Warned.same_or_block {env warned : Environment} (warns : env.Warned warned) :
    warned = env ∨ warned.frame.isBlock = true := by
  cases warns with
  | same => exact .inl rfl
  | marked frame =>
      obtain ⟨outer, _, changed⟩ := env.scopes.all_eq_current
      obtain ⟨outer', all, _⟩ := (env.modifyBlock ({ · with warned := true })).scopes.all_eq_current
      have same := congrArg Scope.frame (List.cons.inj (all.symm.trans (changed _))).1
      refine .inr ?_
      rw [Environment.frame, same, show env.scopes.current.frame = _ from frame]
      rfl

theorem Hidden.discarded {sketches : List Sketch} (hidden : Hidden sketches) :
    ∃ x ∈ sketches, x.discard = true := by
  induction hidden with
  | recovery discard => exact ⟨_, List.mem_singleton_self _, discard⟩
  | inner _ _ ih | loop _ ih => simp [ih]

theorem Opening.kept {block : Bool} {new : List Sketch} (opens : Opening block new) :
    ∀ x ∈ new, x.discard = false := by
  cases opens <;> simp

namespace AnalysisState

variable {first last p s u : AnalysisState} {tokens : List Token} {writes more : List Write}

theorem Abreast.declared {id : ModuleId} {c : ClassDeclaration} (abreast : Abreast p s)
    (outer : p.environment.Outer) (kept : ∀ x ∈ s.environment.sketches, x.discard = false)
    (around : s.environment.scopes.class? = some (id, c)) :
    (p.environment.declared.class? id c.name).isSome = true := by
  obtain ⟨scope, member, found⟩ := List.exists_of_findSome?_eq_some
    (show s.environment.scopes.all.findSome? (·.frame.class?) = some (id, c) from around)
  have titled : scope.sketch.title = .class id c.name := by
    show scope.frame.title = _
    cases frame : scope.frame with
    | «class» =>
        rw [frame] at found
        cases found
        rfl
    | _ => rw [frame] at found; cases found
  have inside : scope.sketch ∈ s.environment.sketches := List.mem_map_of_mem member
  have shown : scope.sketch.shown = .class id c.name := by
    rw [Sketch.shown, kept _ inside, titled]
    rfl
  have top : Title.class id c.name ∈ p.environment.titles := by
    cases abreast with
    | outside _ _ titles =>
        rw [← titles, Environment.titles_eq_sketches, ← shown]
        exact List.mem_map_of_mem inside
    | inside sketches inner below =>
        rw [← below, ← shown]
        rw [sketches] at inside
        rcases List.mem_append.mp inside with inside | inside
        · obtain ⟨kind, block⟩ := inner.blocks _ inside
          rw [titled] at block
          cases block
        · exact List.mem_map_of_mem inside
  obtain ⟨_, _, head⟩ := Environment.title_frame outer.outside
  obtain ⟨_, below, titles, _, modules, _⟩ := outer.outside
  rw [titles] at top head
  cases head
  rcases List.mem_cons.mp top with top | below
  · obtain ⟨d, frame, named⟩ := Frame.class_of_title top.symm
    rw [← named, (outer.updateClass frame d rfl).2.2.2]
    rfl
  · cases modules _ below

-- Of each field that has got a value, the first pass has declared the class where the second one
-- is.
def Entered (first last s : AnalysisState) (writes : List Write) : Prop :=
  ∃ p, first.Leads p ∧ Scouts last p ∧ Abreast p s ∧
    ∀ w ∈ writes, ∀ id owner name, w.target = .field id owner name →
      (p.environment.declared.class? id owner).isSome = true

theorem Entered.reaches (entered : Entered first last s writes) (coherent : first.Coherent)
    (inStep : InStep first last s) (reaches : s.Reaches u) : Entered first last u writes := by
  obtain ⟨p, leads, scouts, abreast, declared⟩ := entered
  have here : InStep p last s := ⟨inStep.pass, inStep.rooted, inStep.built, p, .refl, scouts, abreast⟩
  obtain ⟨p', leads', scouts', abreast'⟩ := (here.reaches reaches).place
  refine ⟨p', leads.trans leads', scouts', abreast', fun w member id owner name same => ?_⟩
  obtain ⟨c, found⟩ := Option.isSome_iff_exists.mp (declared w member id owner name same)
  have offers := ((coherent.leads leads).1.leads leads').2
  obtain ⟨d, there, _⟩ := (offers.members id).classes _ _ found
  exact Option.isSome_iff_exists.mpr ⟨d, there⟩

theorem Entered.append (entered : Entered first last s writes)
    (kept : ∀ x ∈ s.environment.sketches, x.discard = false)
    (reaches : ∀ w ∈ more, s.environment.Reaches w.target) : Entered first last s (writes ++ more) := by
  obtain ⟨p, leads, scouts, abreast, declared⟩ := entered
  refine ⟨p, leads, scouts, abreast, fun w member id owner name same => ?_⟩
  rcases List.mem_append.mp member with member | member
  · exact declared w member id owner name same
  · obtain ⟨c, around, rfl⟩ := reaches w member id owner name same
    exact abreast.declared scouts.outer kept around

/-- What has been stored so far is all accounted for. -/
structure Accounted (first last : AnalysisState) (tokens : List Token) (s : AnalysisState)
    (writes : List Write) : Prop where
  keeps : Keeps Unasked first last s
  kept : ∀ x ∈ s.environment.sketches, x.discard = false
  inside : s.remaining ⊆ tokens
  ledger : s.flushDo.environment.Ledger last.environment.declared tokens writes
  entered : Entered first last s writes

theorem Moves.remaining_subset (moves : s.Moves u) : u.remaining ⊆ s.remaining := by
  cases moves with
  | completes _ _ takes => exact takes.subset.2
  | closes _ _ remaining =>
      rw [remaining]
      exact List.subset_cons_self _ _
  | accepts _ _ takes => exact takes.subset.2
  | skips _ _ takes _ _ _ _ _ _ skip =>
      exact List.Subset.trans (Chunk.skipBlock_suffix skip).subset takes.subset.2

-- Without errors, no scope stands for what has been rejected.
theorem Moves.kept (moves : s.Moves u) (kept : ∀ x ∈ s.environment.sketches, x.discard = false) :
    ∀ x ∈ u.environment.sketches, x.discard = false := by
  have reads : ∀ {mods : LeadingModifiers} {head : Token} {tail : List Token} {warned : Environment}
      {accepted : Accepted}, s.environment.Warned warned →
      Accepts warned s.setting mods head tail accepted →
      ∀ x ∈ (accepted.settled s.setting).sketches, x.discard = false := by
    intro mods head tail warned accepted warns accepts
    rcases accepts.leaves.scopes with same | ⟨_, new, opens, same⟩
    · rw [same, warns.updated.sketches]
      exact kept
    · rw [same, warns.updated.sketches]
      intro x member
      rcases List.mem_append.mp member with member | member
      · exact opens.kept x member
      · exact kept x member
  cases moves with
  | completes =>
      rw [Environment.sketches_append]
      exact kept
  | closes _ _ _ _ popped closes =>
      intro x member
      have below := closes.suffix.subset member
      exact kept x (by rw [Environment.sketches_of_pop? popped]; exact List.mem_cons_of_mem _ below)
  | accepts _ _ _ _ warns _ accepts => exact reads warns accepts
  | skips _ _ _ _ warns _ accepts => exact reads warns accepts

section Accounted

variable {head start : Token} {rest tail later : List Token} {mods : LeadingModifiers}
  {accepted : Accepted} {here : Sight}

-- What stands for the declarations of the first pass stores nothing, and a class that is entered
-- has no field yet that something has been stored in.
theorem Accounted.unwritten (accounted : Accounted first last tokens s writes)
    (coherent : first.Coherent)
    (known : last.environment.declared.Known last.environment.declared)
    (unmarked : last.environment.declared.Unmarked)
    (stands : Stands last.environment.declared true s.environment.scopes.all here)
    (takes : s.Takes start rest later) (notClosing : start.kind ≠ .rightBrace)
    (modifiers : LeadingModifiers.read (start :: rest) = .ok (mods, head :: tail))
    (read : s.environment.statement s.setting start rest =
      ⟨accepted.environment, .ok accepted.node⟩) :
    s.environment.Unwritten writes head tail accepted.node := by
  by_cases block : s.environment.frame.isBlock = true
  · exact Environment.unwritten_of_block block
  have inStep := accounted.keeps.inStep
  have completes := accounted.keeps.completes known
  obtain ⟨p, leads, scouts, abreast, declared⟩ := accounted.entered
  have coherent := (coherent.leads leads).1
  have outer := coherent.outer
  have meets : Meets last p s := by
    cases abreast with
    | outside remaining idle titles inLibrary =>
        exact inStep.meets scouts remaining idle titles inLibrary
    | inside sketches inner => exact absurd (isBlock_of_inner sketches inner) block
  refine ⟨fun kind isModule name c titled found => ?_, fun starts placement place placed _ n node => ?_⟩
  · have unmarked := inStep.built.fields unmarked _ _ _ found
    obtain ⟨named, _⟩ := (completes.known _).classes _ _ found
    obtain ⟨_, _, _, _, _, _, _, declares⟩ := meets.reads takes notClosing
    have modifiers' := declares.modifiers
    rw [modifiers] at modifiers'
    cases modifiers'
    have free : p.environment.declared.class? p.environment.currentModule name.lexeme = none := by
      refine Environment.class_free scouts.declaring ?_ modifiers declares.read kind titled
      apply Environment.isModule_of_title
      rw [← meets.level.frame outer.outside]
      exact Environment.isModule_title isModule
    intro field v there
    have initialized : v.initialized = v.value.isSome := unmarked field v there
    refine ⟨fun valued => .inl (initialized ▸ valued), fun valued => ?_⟩
    rcases valued with valued | ⟨w, member, target⟩
    · exact initialized ▸ valued
    · have entered := declared w member _ _ _ target
      rw [meets.level.currentModule outer, named, free] at entered
      cases entered
  · obtain ⟨v, w, name, _, introduces, _, rfl, _, _, value, _⟩ :=
      meets.known coherent completes stands takes notClosing modifiers read starts placed node
    refine variableNode_quiet fun n same => ?_
    obtain ⟨e, means, rfl, _⟩ := introduces.initializes n (value ▸ same)
    exact means.still

theorem Accounted.step (accounted : Accounted first last tokens s writes)
    (coherent : first.Coherent)
    (known : last.environment.declared.Known last.environment.declared)
    (unmarked : last.environment.declared.Unmarked) (step : CleanStep s u) :
    ∃ more, Accounted first last tokens u (writes ++ more) := by
  have ⟨keeps, kept, inside, ledger, entered⟩ := accounted
  have pass := keeps.inStep.pass
  have moves := step.moves
  have reaches := step_reaches pass step.1
  have completes := keeps.completes known
  -- Nothing is hidden as long as nothing is discarded.
  obtain ⟨here, grown, waits⟩ : ∃ here, Grown last.environment.declared Unasked s.environment.scopes.all here ∧
      ∀ block, s.pendingDo = some block → Waits last.environment.declared Unasked here block := by
    cases keeps.grows with
    | shown grown waits => exact ⟨_, grown, waits⟩
    | hidden concealed =>
        obtain ⟨x, member, discard⟩ := concealed.hidden.discarded
        have kept := kept x (by
          rw [Environment.sketches, concealed.split, List.map_append]
          exact List.mem_append_left _ member)
        rw [kept] at discard
        cases discard
  have opens : s.environment.Containers := by
    intro n member
    obtain ⟨scope, inside, rfl⟩ := List.mem_map.mp member
    exact grown.opens scope inside
  suffices ledger : ∃ more, u.flushDo.environment.Ledger last.environment.declared tokens
      (writes ++ more) ∧ ∀ w ∈ more, s.environment.Reaches w.target by
    obtain ⟨more, ledger, fields⟩ := ledger
    exact ⟨more, keeps.reaches coherent known (fun p _ _ => p.answers_unasked) reaches, moves.kept kept,
      List.Subset.trans moves.remaining_subset inside, ledger,
      (entered.append kept fields).reaches coherent keeps.inStep reaches⟩
  rw [flushDo_environment] at ledger
  have reads : ∀ {start head : Token} {rest tail later : List Token} {mods : LeadingModifiers}
      {warned : Environment} {accepted : Accepted}, s.pendingDo = none → s.Takes start rest later →
      start.kind ≠ .rightBrace → s.environment.Warned warned →
      LeadingModifiers.read (start :: rest) = .ok (mods, head :: tail) →
      Accepts warned s.setting mods head tail accepted →
      warned.statement s.setting start rest = ⟨accepted.environment, .ok accepted.node⟩ →
      ∃ more, (accepted.settled s.setting).Ledger last.environment.declared tokens (writes ++ more) ∧
        ∀ w ∈ more, s.environment.Reaches w.target := by
    intro start head rest tail later mods warned accepted idle takes notClosing warns modifiers accepts read
    rw [idle] at ledger
    have unwritten : warned.Unwritten writes head tail accepted.node := by
      rcases warns.same_or_block with rfl | block
      · exact accounted.unwritten coherent known unmarked grown.stands takes notClosing modifiers read
      · exact Environment.unwritten_of_block block
    have ledger : warned.Ledger last.environment.declared tokens writes := by
      cases warns with
      | same => exact ledger
      | marked =>
          exact ledger.idles (Environment.idles_modifyBlock fun _ => rfl)
            (Environment.nodes_modifyBlock _ _)
    obtain ⟨more, ledger, fields⟩ := accepts.ledger pass (completes.updated warns.updated)
      (grown.marked warns.marks.scopes) ledger (List.Subset.trans takes.subset.1 inside) modifiers
      read unwritten
    exact ⟨more, ledger, fun w member => (fields w member).updated warns.updated⟩
  cases moves with
  | completes _ waiting takes _ _ decides =>
      obtain ⟨_, scope, _, rfl, _, grows⟩ := waits _ waiting
      rw [waiting] at ledger
      refine ⟨[], ?_, by simp⟩
      rw [List.append_nil]
      exact ledger.completes pass opens grows.open decides.still
  | closes _ idle _ _ popped closes =>
      rw [idle] at ledger
      refine ⟨[], ?_, by simp⟩
      rw [List.append_nil, flushDo_environment]
      have top := kept _ (by rw [Environment.sketches_of_pop? popped]; exact List.mem_cons_self)
      exact closes.ledger pass ledger opens (keeps.inStep.lone kept) top popped
  | accepts _ idle takes notClosing warns modifiers accepts _ read =>
      rw [flushDo_environment, idle]
      exact reads idle takes notClosing warns modifiers accepts read
  | skips _ idle takes notClosing warns modifiers accepts _ _ skip read =>
      rw [flushDo_environment, idle]
      exact reads idle takes notClosing warns modifiers accepts read

theorem Accounted.leads (accounted : Accounted first last tokens s writes)
    (coherent : first.Coherent)
    (known : last.environment.declared.Known last.environment.declared)
    (unmarked : last.environment.declared.Unmarked) (leads : s.Leads u) :
    ∃ more, Accounted first last tokens u (writes ++ more) := by
  induction leads with
  | refl => exact ⟨[], by rwa [List.append_nil]⟩
  | tail _ step ih =>
      obtain ⟨more, accounted⟩ := ih
      obtain ⟨rest, accounted⟩ := accounted.step coherent known unmarked step
      exact ⟨more ++ rest, by rwa [← List.append_assoc]⟩

end Accounted

end AnalysisState

section Agrees

variable {t new : ModuleTree} {store : Store} {target : Target} {v : Variable} {tokens : List Token}
  {writes : List Write}

theorem ModuleTree.Agrees.member? (agrees : t.Agrees new) (found : t.member? target = some v) :
    ∃ initialized, new.member? target = some { v with initialized } := by
  cases target with
  | inBlock => cases found
  | field id owner name =>
      obtain ⟨c, there, field⟩ := Option.bind_eq_some_iff.mp found
      obtain ⟨d, there', offers⟩ := (agrees.offers.members id).classes _ _ there
      obtain ⟨initialized, field'⟩ := offers.fields _ _ field
      exact ⟨initialized, member?_field there' field'⟩
  | global id name => exact (agrees.offers.members id).globals _ _ found

theorem ModuleTree.Targets.agrees (targets : t.Targets store target) (agrees : t.Agrees new) :
    new.Targets store target ∧ (∀ m, new.declaredWith m target = t.declaredWith m target) ∧
      new.startsValued target = t.startsValued target := by
  have declared : ∀ {v}, t.member? target = some v →
      (∀ m, new.declaredWith m target = t.declaredWith m target) ∧
        new.startsValued target = t.startsValued target := by
    intro v found
    obtain ⟨_, found'⟩ := agrees.member? found
    obtain ⟨words, starts⟩ := declared_of_member found
    obtain ⟨words', starts'⟩ := declared_of_member found'
    exact ⟨fun m => (words' m).trans (words m).symm, starts'.trans starts.symm⟩
  cases targets with
  | inBlock title found => exact ⟨.inBlock title found, fun _ => rfl, rfl⟩
  | @field id owner name c v title unknown around path there found =>
      have inside := inside_of_class there
      have qualified := agrees.offers.qualify inside owner
      obtain ⟨d, there', offers⟩ := (agrees.offers.members id).classes _ _ there
      obtain ⟨_, found'⟩ := offers.fields _ _ found
      refine ⟨.field ?_ ?_ ?_ ?_ there' found', declared (member?_field there found)⟩
      · rw [qualified]
        exact title
      · rw [qualified]
        exact unknown
      · rw [around, offers.label]
      · rw [agrees.offers.paths id inside]
        exact path
  | @global id name v title unknown found =>
      have qualified := agrees.offers.qualify (inside_of_global found) name
      obtain ⟨_, found'⟩ := (agrees.offers.members id).globals _ _ found
      refine ⟨.global ?_ (fun named => ?_) found', declared (member?_global found)⟩
      · rw [qualified]
        exact title
      · rw [qualified]
        exact unknown (agrees.offers.named named)

theorem Lawful.agrees (lawful : Lawful t tokens writes) (agrees : t.Agrees new) :
    Lawful new tokens writes where
  targets w member := ((lawful.targets w member).agrees agrees).1
  allowed earlier w later whole := by
    obtain ⟨constant, once⟩ := lawful.allowed earlier w later whole
    obtain ⟨_, words, starts⟩ := (lawful.targets w (by simp [whole])).agrees agrees
    refine ⟨(words _).trans constant, fun immutable range => ?_⟩
    obtain ⟨bare, fresh⟩ := once ((words _).symm.trans immutable) range
    exact ⟨starts.trans bare, fresh⟩

end Agrees

namespace Analysis

variable {host : Host} {maxErrors : Nat} {tokens : List Token}

theorem unmarked_of_firstPass
    (clean : (runPass ⟨.declarations, host⟩ .empty { maxErrors } tokens).Clean) :
    let last := (runPass ⟨.declarations, host⟩ .empty { maxErrors } tokens).environment
    last.declared = last.modules ∧ last.declared.Unmarked := by
  obtain ⟨leads, _, closed, _⟩ := runPass_leads clean
  have coherent := coherent_start host maxErrors tokens
  exact ⟨declared_of_closed (coherent.leads leads).1.outer.outside closed,
    coherent.unmarked_leads leads ModuleTree.unmarked_empty⟩

theorem ledger_start {setting : Setting} {modules t : ModuleTree} {log : DiagnosticLog}
    (unmarked : modules.Unmarked) :
    (startPass setting modules log tokens).environment.Ledger t tokens [] := by
  refine ⟨rfl, ⟨by simp, by simp⟩, ?_, ?_, ?_⟩
  · exact .cons ⟨rfl, (by intro block; cases block), fun _ => rfl, [], rfl, nofun, fun _ => .none⟩ .nil
  · intro id c around
    cases around
  · intro id name v found
    have initialized : v.initialized = v.value.isSome := (unmarked id).globals name v found
    refine ⟨fun valued => .inl (initialized ▸ valued), ?_⟩
    rintro (valued | ⟨_, member, _⟩)
    · exact initialized ▸ valued
    · cases member

theorem accounted_start
    (clean : (runPass ⟨.declarations, host⟩ .empty { maxErrors } tokens).Clean) :
    AnalysisState.Accounted (declarationsStart host maxErrors tokens)
      (runPass ⟨.declarations, host⟩ .empty { maxErrors } tokens) tokens
      (bodiesStart host maxErrors tokens) [] := by
  obtain ⟨same, unmarked⟩ := unmarked_of_firstPass clean
  obtain ⟨p, leads, scouts, abreast⟩ := (inStep_start clean).place
  refine ⟨keeps_start clean, ?_, List.Subset.refl _, ledger_start (same ▸ unmarked),
    p, leads, scouts, abreast, by simp⟩
  intro x member
  rw [List.mem_singleton.mp (show x ∈ [_] from member)]
  rfl

theorem lawful_of_accepted (ok : (ofTokens host maxErrors tokens).isOk = true) :
    ∃ writes : List Write, writes.map Write.store = (ofTokens host maxErrors tokens).root.stores ∧
      Lawful (ofTokens host maxErrors tokens).modules tokens writes := by
  obtain ⟨first, second⟩ := isOk_iff.mp ok
  rw [ofTokens_eq first]
  obtain ⟨same, unmarked⟩ := unmarked_of_firstPass first
  have known := (known_of_firstPass first).2
  rw [← same] at known
  obtain ⟨leads, _, closed, idle⟩ := runPass_leads second
  obtain ⟨writes, accounted⟩ := (accounted_start first).leads (coherent_start host maxErrors tokens)
    known unmarked leads
  rw [List.nil_append] at accounted
  have agrees := accounted.keeps.inStep.built.agrees
  have pass := accounted.keeps.inStep.pass
  have ledger := accounted.ledger
  generalize runPass ⟨.bodies, host⟩ _ _ tokens = last at *
  have flushed : last.flushDo = last := by
    unfold AnalysisState.flushDo
    rw [idle]
  rw [flushed] at ledger
  refine ⟨writes, ledger.stores.trans ?_, ledger.lawful.agrees agrees⟩
  have nodes : last.environment.nodes = [last.environment.scopes.base.node] := by
    unfold Environment.nodes ScopeStack.all
    rw [closed]
    rfl
  have root : last.root = last.environment.scopes.base.node := by
    unfold AnalysisState.root
    rw [if_neg (by simp [pass]), closed]
    exact Node.withChildren_nil _
  rw [nodes, root]
  rw [Node.stores, Journey.through_eq, Journey.leave_stores]
  rfl

/-- In an accepted program, a variable that is not `mut` is stored in once at most, and only if it
is neither a parameter nor starts with a value. The steps of loops over ranges are no part of this:
whichever variable they step, they store in it unless it is `const`. -/
theorem immutable_storedOnce (host : Host) (maxErrors : Nat) (tokens : List Token)
    (ok : (ofTokens host maxErrors tokens).isOk = true) :
    let a := ofTokens host maxErrors tokens
    a.root.stores.map Store.node = a.root.findAll .varSetValue ∧
      ∃ writes : List Write, writes.map Write.store = a.root.stores ∧
        (∀ w ∈ writes, a.modules.Targets w.store w.target ∧
          a.modules.declaredWith .const w.target = false) ∧
        ∀ earlier w later, writes = earlier ++ w :: later →
          a.modules.declaredWith .mut w.target = false → ¬w.store.node.StepsRange tokens →
          a.modules.startsValued w.target = false ∧ (∀ u ∈ earlier, u.target ≠ w.target) ∧
            ∀ u ∈ later, u.target = w.target → u.store.node.StepsRange tokens := by
  intro a
  obtain ⟨writes, stores, targets, allowed⟩ := lawful_of_accepted ok
  refine ⟨Node.stores_eq_findAll _, writes, stores, fun w member => ⟨targets w member, ?_⟩, ?_⟩
  · obtain ⟨earlier, later, whole⟩ := List.append_of_mem member
    exact (allowed earlier w later whole).constant
  · intro earlier w later whole immutable range
    obtain ⟨bare, fresh⟩ := (allowed earlier w later whole).once immutable range
    refine ⟨bare, fun u member same => fresh ⟨u, member, same⟩, fun u member same => ?_⟩
    by_contra plain
    obtain ⟨front, rest, rfl⟩ := List.append_of_mem member
    rw [← List.cons_append, ← List.append_assoc] at whole
    refine ((allowed _ u rest whole).once (by rw [same]; exact immutable) plain).2 ⟨w, ?_, same.symm⟩
    simp

theorem immutable_storedOnce_program :
    let text := "module m \x7b int g; class C \x7b int v; fn h \x7b v = 1; \x7d \x7d " ++
      "fn f (int a) \x7b g = a; int b; b = a; mut int c = 0; c = 1; c++; for (int i = 0, i -> 3) \x7b \x7d \x7d \x7d"
    let tokens := (programTokens text false).toOption.getD []
    let a := ofTokens {} 0 tokens
    a.isOk = true ∧
      a.root.stores.map (·.node.title) =
        [some "m.C.v", some "m.g", some "b", some "c", some "c", some "i"] ∧
      ∃ writes : List Write, writes.map Write.store = a.root.stores ∧
        (∀ w ∈ writes, a.modules.Targets w.store w.target ∧
          a.modules.declaredWith .const w.target = false) ∧
        ∀ earlier w later, writes = earlier ++ w :: later →
          a.modules.declaredWith .mut w.target = false → ¬w.store.node.StepsRange tokens →
          a.modules.startsValued w.target = false ∧ (∀ u ∈ earlier, u.target ≠ w.target) ∧
            ∀ u ∈ later, u.target = w.target → u.store.node.StepsRange tokens := by
  intro text tokens a
  have accepted : a.isOk = true := by decide +kernel
  exact ⟨accepted, by decide +kernel, (immutable_storedOnce {} 0 tokens accepted).2⟩

-- The loop defines `i` and steps the parameter, which may not be stored in anywhere else.
theorem steppedParameter_accepted :
    let a := ofSource "module m \x7b fn f (int x) \x7b for (int i = 0, x -> 10) \x7b \x7d \x7d \x7d"
      { withLibrary := false } {}
    a.isOk = true ∧
      a.root.stores.map (fun s => (s.node.title, (s.node.title.bind (latest? s.locals)).map
        fun d => (d.node.kind, d.node.modifierWords))) = [(some "x", some (.parameter, []))] ∧
      (a.root.findAll .varDefAndSetValue).map Node.title = [some "i"] ∧
      (ofSource "module m \x7b fn f (int x) \x7b for (int i = 0, x < 10, x++) \x7b \x7d \x7d \x7d"
        { withLibrary := false } {}).isOk = false := by
  decide +kernel

end Analysis

end MiLanguage
