import MiLanguage.Proofs.Naming.Growing

set_option autoImplicit false

namespace MiLanguage

variable {p p' s : Environment} {t : ModuleTree} {here : Sight} {id : ModuleId}

theorem Frame.class_of_title {frame : Frame} {name : String} (title : frame.title = .class id name) :
    ∃ c, frame = .class id c ∧ c.name = name := by
  cases frame <;> cases title
  exact ⟨_, rfl, rfl⟩

namespace Environment

theorem Sees.eq_outline {env : Environment} (sees : env.Sees t true here)
    (bare : env.frame.isBlock = false) :
    here = { path := here.path, owner := here.owner } := by
  have outside := sees.body.trans bare
  have unnamed := sees.stands.locals_outside outside
  cases here
  simp_all

section Level

variable (level : p.Level s) (outer : p.Outer)

include level outer

theorem Level.currentModule : s.currentModule = p.currentModule := by
  have outside := outer.outside
  rw [currentModule_eq outside, currentModule_eq (level.titles ▸ outside), level.titles]

theorem Level.class {c : ClassDeclaration} (frame : p.frame = .class id c) :
    ∃ c', s.frame = .class id c' ∧ c'.name = c.name := by
  have same := level.frame outer.outside
  rw [frame] at same
  exact Frame.class_of_title same

theorem Level.isModule (isModule : p.frame.isModule = true) : s.frame.isModule = true := by
  apply isModule_of_title
  rw [level.frame outer.outside]
  exact isModule_title isModule

theorem Level.placement {place place' : Token} {placement placement' : Placement}
    (placed : p.placement place = .ok placement) (placed' : s.placement place' = .ok placement') :
    placement' = placement := by
  have same := level.frame outer.outside
  unfold Environment.placement at placed placed'
  cases frame : p.frame <;> cases frame' : s.frame <;> simp_all [Frame.title, Checked.bind_eq_ok]

variable (offers : p.declared.Offers t) (completes : s.Completes t)
  (stands : Stands t true s.scopes.all here)

include offers completes stands

theorem Level.path : here.path = p.sight.path := by
  rw [← (completes.sees stands).path, level.currentModule outer]
  exact offers.paths _ outer.currentModule_lt

theorem Level.sight_of_module (isModule : p.frame.isModule = true) : here = p.sight := by
  have sees := completes.sees stands
  have isModule' := level.isModule outer isModule
  have ownerless : here.owner = none := by
    obtain ⟨below, all, _⟩ := s.scopes.all_eq_current
    exact stands.bare s.scopes.current (by rw [all]; rfl) isModule'
  rw [sees.eq_outline (isBlock_of_isModule isModule'), ownerless,
    level.path outer offers completes stands, sight_of_isModule isModule]
  rfl

theorem Level.sight_of_class {c : ClassDeclaration} (frame : p.frame = .class id c) :
    here = p.sight := by
  have sees := completes.sees stands
  obtain ⟨c', frame', named⟩ := level.class outer frame
  have around : s.scopes.class? = some (id, c') := class?_of_frame frame'
  obtain ⟨d, there, grown⟩ := (offers.members id).classes _ _ (outer.updateClass frame c rfl).2.2.2
  obtain ⟨_, _, d', there', grown', _⟩ := stands.class id c' around
  rw [named, ModuleTree.class?, there] at there'
  cases there'
  have owner : here.owner = some c.label := by
    rw [sees.owner around, ← grown'.label, grown.label]
  have bare : s.frame.isBlock = false := by rw [frame']; rfl
  rw [sees.eq_outline bare, owner, level.path outer offers completes stands]
  unfold sight
  rw [frame]
  rfl

theorem Level.recalls_global {v w : Variable} (isModule : p.frame.isModule = true)
    (added : p.declareVariable? .global v = some p') (later : p'.declared.Offers t)
    (found : (s.modules.get s.currentModule).members.globals.find? v.name = some w) :
    w.type = v.type ∧ w.value = v.value ∧ w.Known t here := by
  have same := level.currentModule outer
  refine and_assoc.mp ⟨?_, ?_⟩
  · unfold Environment.declareVariable? at added
    dsimp only at added
    split at added
    next => cases added
    next =>
      cases added
      rw [declared_of_isModule (by exact isModule)] at later
      have inside : p.currentModule.index < p.modules.size := by
        rw [← p.size_declared]
        exact outer.currentModule_lt
      obtain ⟨_, there⟩ := (later.members p.currentModule).globals v.name v (by
        rw [ModuleTree.insertVariable, ModuleTree.members_modifyMembers, if_pos ⟨rfl, inside⟩,
          SymbolTable.find?_insert, if_pos rfl])
      obtain ⟨_, there'⟩ := (completes.agrees.offered.members s.currentModule).globals v.name w found
      rw [same, there] at there'
      have offered := Option.some.inj there'
      exact ⟨(congrArg Variable.type offered).symm, (congrArg Variable.value offered).symm⟩
  · have known := ((completes.known s.currentModule).globals _ _ found).1
    have outline : t.outline s.currentModule none = here := by
      rw [level.sight_of_module outer offers completes stands isModule, sight_of_isModule isModule,
        ModuleTree.outline, ModuleTree.outline, same, offers.paths _ outer.currentModule_lt,
        declared_of_isModule isModule]
    rwa [outline] at known

omit offers in
theorem Level.recalls_field {v w : Variable} {c c' : ClassDeclaration} (frame : p.frame = .class id c)
    (added : p.declareVariable? .field v = some p') (later : p'.declared.Offers t)
    (around : s.scopes.class? = some (id, c')) (found : c'.fields.find? v.name = some w) :
    w.type = v.type ∧ w.value = v.value ∧ w.Known t here := by
  obtain ⟨path, known, d, there, grown, _⟩ := stands.class id c' around
  have sees := completes.sees stands
  obtain ⟨c'', frame', named⟩ := level.class outer frame
  have same : c'' = c' := by
    have here := (class?_of_frame frame').symm.trans around
    cases here
    rfl
  subst same
  refine and_assoc.mp ⟨?_, ?_⟩
  · unfold Environment.declareVariable? at added
    dsimp only at added
    split at added
    next => cases added
    next =>
      rw [outer.modifyClass? frame] at added
      cases added
      obtain ⟨_, declared, inside, _⟩ :=
        outer.updateClass frame { c with fields := c.fields.insert v.name v } rfl
      rw [declared] at later
      obtain ⟨d', there', grown'⟩ := (later.members id).classes c.name _ (by
        have found := ModuleTree.class?_insertClass inside
          { c with fields := c.fields.insert v.name v } id c.name
        rw [if_pos ⟨rfl, rfl⟩] at found
        exact found)
      rw [named, ModuleTree.class?, there'] at there
      cases there
      obtain ⟨_, typed⟩ := grown.fields _ _ found
      obtain ⟨_, typed'⟩ := grown'.fields v.name v (by rw [SymbolTable.find?_insert, if_pos rfl])
      rw [typed'] at typed
      have offered := Option.some.inj typed
      exact ⟨(congrArg Variable.type offered).symm, (congrArg Variable.value offered).symm⟩
  · have outline : t.outline id (some c''.label) = here := by
      have bare : s.frame.isBlock = false := by rw [frame']; rfl
      rw [sees.eq_outline bare, ← path, sees.owner around]
      rfl
    have here' := known.fields _ _ found
    rwa [outline] at here'

theorem Level.recalls {placement : Placement} {v w : Variable} {place : Token}
    (placed : p.placement place = .ok placement) (outside : placement ≠ .inBlock)
    (added : p.declareVariable? placement v = some p') (later : p'.declared.Offers t)
    (found : s.findMember? placement v.name = some w) :
    here = p.sight ∧ w.type = v.type ∧ w.value = v.value ∧ w.Known t here := by
  have global : p.frame.isModule = true → p.declareVariable? .global v = some p' →
      s.findMember? .global v.name = some w →
        here = p.sight ∧ w.type = v.type ∧ w.value = v.value ∧ w.Known t here :=
    fun isModule added found => ⟨level.sight_of_module outer offers completes stands isModule,
      level.recalls_global outer offers completes stands isModule added later found⟩
  unfold Environment.placement at placed
  cases frame : p.frame with
  | module =>
      simp only [frame] at placed
      cases placed
      exact global (by rw [frame]; rfl) added found
  | parent =>
      simp only [frame, Checked.bind_eq_ok] at placed
      obtain ⟨_, _, same⟩ := placed
      cases same
      exact global (by rw [frame]; rfl) added found
  | «class» id c =>
      simp only [frame] at placed
      cases placed
      obtain ⟨c', frame', _⟩ := level.class outer frame
      have around := class?_of_frame frame'
      refine ⟨level.sight_of_class outer offers completes stands frame,
        level.recalls_field outer completes stands frame added later around ?_⟩
      simpa [findMember?, around] using found
  | block =>
      simp only [frame] at placed
      cases placed
      exact absurd rfl outside
  | enum => simp [frame] at placed

end Level

end Environment

namespace AnalysisState

variable {last p s : AnalysisState} {first head : Token} {rest later tail : List Token}
  {mods : LeadingModifiers} {accepted : Accepted} {asks : Sight → Node → Prop}

-- The next statement defines a variable, of which this is the node.
def Defines (p : AnalysisState) (d : Node) : Prop :=
  ∃ first rest later mods head tail after, p.Takes first rest later ∧
    LeadingModifiers.read (first :: rest) = .ok (mods, head :: tail) ∧
    p.environment.variableStatement p.setting mods head tail = .ok ⟨after, some d⟩

-- What is asked of an initial value is so where the first pass has come to `p`.
def Answers (p : AnalysisState) (asks : Sight → Node → Prop) : Prop :=
  ∀ typeToken name mods v, p.environment.Introduces typeToken name mods v →
    p.Defines (variableNode typeToken name mods v.type v.value) →
    (variableNode typeToken name mods v.type v.value).Asked asks p.environment.sight

theorem answers_unasked (p : AnalysisState) : p.Answers Unasked :=
  fun _ _ _ _ _ _ _ _ _ _ => trivial

section Meets

variable (meets : Meets last p s) (coherent : p.Coherent)
  (completes : s.environment.Completes last.environment.declared)
  (stands : Stands last.environment.declared true s.environment.scopes.all here)
  (takes : s.Takes first rest later) (notClosing : first.kind ≠ .rightBrace)
  (modifiers : LeadingModifiers.read (first :: rest) = .ok (mods, head :: tail))
  (read : s.environment.statement s.setting first rest =
    ⟨accepted.environment, .ok accepted.node⟩)

include meets coherent completes stands takes notClosing modifiers read

-- Where both passes are at a global or a field, the second one finds what the first one has
-- declared there.
theorem Meets.known (starts : startsVariable head = true) {placement : Placement} {place : Token}
    (placed : s.environment.placement place = .ok placement) {n : Node}
    (node : accepted.node = some n) :
    ∃ (v w : Variable) (name : Token) (declared : Environment),
      p.environment.Introduces head name mods v ∧
      p.environment.variableStatement p.setting mods head tail =
        .ok ⟨declared, some (variableNode head name mods v.type v.value)⟩ ∧
      n = variableNode head name mods w.type w.value ∧ here = p.environment.sight ∧
      w.type = v.type ∧ w.value = v.value ∧ w.Known last.environment.declared here := by
  obtain ⟨p', step, scouts', mods', head', tail', accepted', declares⟩ := meets.reads takes notClosing
  have modifiers' := declares.modifiers
  rw [modifiers] at modifiers'
  cases modifiers'
  have level := meets.level
  have outer := coherent.outer
  obtain ⟨coherent', _⟩ := coherent.moves step.moves
  have offers := (coherent.leads meets.scouts.toward).2
  have later' := (coherent'.leads scouts'.toward).2
  have bare := Environment.isBlock_of_outside outer.outside
  have bare' := Environment.isBlock_of_outside (level.titles ▸ outer.outside)
  have title := level.frame outer.outside
  have noEnum' : ∀ id e, s.environment.frame ≠ .enum id e := by
    intro id e frame
    simp [Environment.placement, frame] at placed
  have noEnum : ∀ id e, p.environment.frame ≠ .enum id e := by
    intro id e frame
    rw [frame] at title
    cases frame' : s.environment.frame <;> rw [frame'] at title <;> cases title
    exact noEnum' _ _ frame'
  obtain ⟨_, found⟩ := Environment.read_variable starts bare'
    (Environment.statement_read read modifiers (.inr noEnum'))
  obtain ⟨_, first⟩ := Environment.read_variable starts bare
    (Environment.statement_read declares.read modifiers (.inr noEnum))
  obtain ⟨placement', placed', kept⟩ := Environment.variableStatement_eq_ok found
  obtain ⟨placement, placed, defined⟩ := Environment.variableStatement_eq_ok first
  cases level.placement outer placed placed'
  rcases defined with ⟨_, v, name, declared, names, introduces, added, same⟩ | ⟨pass, _⟩
  · rcases kept with ⟨reads | inBlock, _⟩ | ⟨_, outside, _, rfl⟩
    · exact absurd reads (by rw [show s.setting.declaring = false from meets.pass]; simp)
    · unfold Environment.placement at placed'
      cases frame : s.environment.frame with
      | block => rw [frame] at bare'; cases bare'
      | _ => simp [frame, inBlock, Checked.bind_eq_ok] at placed'
    · simp only [Environment.knownVariable, Option.bind_eq_bind, Option.bind_eq_some_iff,
        Option.some.injEq] at node
      obtain ⟨name', named, w, member, rfl⟩ := node
      have spelled : name' = name := by
        have head : tail.head? = some name' := by
          cases tail with
          | nil => cases named
          | cons t tail => cases tail <;> simp_all
        rw [names.1] at head
        exact (Option.some.inj head).symm
      subst spelled same
      rw [← names.2.2.1] at member
      rw [declares.environment] at later'
      exact ⟨v, w, name', declared, introduces, first, rfl,
        level.recalls outer offers completes stands placed outside added later' member⟩
  · exact absurd pass (by rw [show p.setting.declaring = true from meets.scouts.declaring]; simp)

-- Where both passes are at a statement outside of bodies, the second one finds what the first one
-- has declared there.
theorem Meets.recalls (answers : p.Answers asks) :
    s.environment.Recalls last.environment.declared asks here head tail accepted.node := by
  obtain ⟨p', step, scouts', mods', head', tail', accepted', declares⟩ := meets.reads takes notClosing
  have modifiers' := declares.modifiers
  rw [modifiers] at modifiers'
  cases modifiers'
  have outer := coherent.outer
  obtain ⟨coherent', _⟩ := coherent.moves step.moves
  have offers := (coherent.leads meets.scouts.toward).2
  have later' := (coherent'.leads scouts'.toward).2
  have same := meets.level.currentModule outer
  refine ⟨?_, ?_⟩
  · intro kind _ name c titled found
    have opened := Environment.statement_read declares.read modifiers (.inl (by simp [kind]))
    have pass : p.setting.declaring = true := meets.scouts.declaring
    simp only [Environment.read, kind, Environment.openClass, Checked.bind_eq_ok, if_pos pass] at opened
    obtain ⟨_, _, _, _, name', named, _, brace, _, _, opened⟩ := opened
    cases titled.unique (titled_of_named named brace)
    have environment := declares.environment
    cases opened
    have frame := congrArg Environment.frame environment
    obtain ⟨d, there, grown⟩ := (later'.members _).classes _ _
      (coherent'.outer.updateClass frame _ rfl).2.2.2
    obtain ⟨d', there', grown'⟩ := (completes.agrees.offered.members _).classes _ _ found
    rw [same, there] at there'
    cases there'
    rw [← grown'.origin, grown.origin]
    rfl
  · intro starts placement place placed _ n node
    obtain ⟨v, w, name, declared, introduces, defined, rfl, rfl, typed, valued, known⟩ :=
      meets.known coherent completes stands takes notClosing modifiers read starts placed node
    have reads : p.Takes first rest later := by
      obtain ⟨x, xs, start, next⟩ := takes
      exact ⟨x, xs, meets.remaining ▸ start, next⟩
    have asked := answers head name mods v introduces
      ⟨first, rest, later, mods, head, tail, declared, reads, modifiers, defined⟩
    rw [← typed, ← valued] at asked
    refine ⟨?_, variableNode_throughout known ?_ asked⟩
    · unfold variableNode
      split <;> simp [Node.new]
    · have sees := coherent.environment.sees outer
      intro place same identifier
      obtain ⟨name, nullable, type, names⟩ := (sees.introduces introduces).2 place same identifier
      exact ⟨name, nullable, typed.trans type, offers.namesType names⟩

end Meets

end AnalysisState

end MiLanguage
