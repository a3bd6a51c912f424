import MiLanguage.Proofs.Writes.Scopes

set_option autoImplicit false

namespace MiLanguage

theorem Node.StepsRange.mono {tokens more : List Token} {n : Node} (steps : n.StepsRange tokens)
    (inside : tokens ⊆ more) : n.StepsRange more := by
  obtain ⟨arrow, member, kind, operator⟩ := steps
  exact ⟨arrow, inside member, kind, operator⟩

namespace Environment

/-- The places where the open nodes give values to variables, each with its variable, and what is noted
of the variables by them. -/
structure Ledger (env : Environment) (t : ModuleTree) (tokens : List Token) (writes : List Write) :
    Prop where
  stores : writes.map Write.store = (travel env.nodes).stores
  lawful : Lawful t tokens writes
  notes : env.Notes writes env.nodes

-- A field that gets a value is one of the class around.
def Reaches (env : Environment) (target : Target) : Prop :=
  ∀ id owner name, target = .field id owner name →
    ∃ c, env.scopes.class? = some (id, c) ∧ c.name = owner

variable {env after declared defined stepped : Environment} {setting : Setting} {t : ModuleTree}
  {s : Sight} {tokens : List Token} {writes : List Write} {around : List Node}
  {n c start condition step : Node} {implied : Bool} {line : Nat}

theorem nodes_updated (updated : env.Updated after) : after.nodes = env.nodes := by
  have same : List.Forall₂ (fun a b : Scope => b.node = a.node) env.scopes.all after.scopes.all :=
    updated.scopes.all.imp fun _ _ updated => updated.node
  unfold nodes
  generalize env.scopes.all = old, after.scopes.all = new at same
  induction same with
  | nil => rfl
  | cons head _ ih => rw [List.map_cons, List.map_cons, head, ih]

theorem nodes_modifyBlock (env : Environment) (f : Block → Block) :
    (env.modifyBlock f).nodes = env.nodes := by
  obtain ⟨outer, all, changed⟩ := env.scopes.all_eq_current
  show ((env.scopes.modifyCurrentBlock f).all).map Scope.node = env.scopes.all.map Scope.node
  rw [ScopeStack.modifyCurrentBlock, changed, all]
  rfl

theorem nodes_eq_current (env : Environment) :
    ∃ around, env.nodes = env.scopes.current.node :: around := by
  obtain ⟨outer, all, _⟩ := env.scopes.all_eq_current
  exact ⟨outer.map Scope.node, by rw [nodes, all, List.map_cons]⟩

theorem current_of_nodes (same : after.nodes = env.nodes) :
    after.scopes.current.node = env.scopes.current.node := by
  obtain ⟨_, nodes⟩ := env.nodes_eq_current
  obtain ⟨_, nodes'⟩ := after.nodes_eq_current
  rw [same, nodes] at nodes'
  exact (List.cons.inj nodes').1.symm

theorem nodes_append (pass : setting.declaring = false) (env : Environment) (c : Node) :
    ∃ around, env.nodes = env.scopes.current.node :: around ∧
      (env.append setting c).nodes = env.scopes.current.node.push c :: around := by
  obtain ⟨outer, all, changed⟩ := all_append pass env c
  exact ⟨outer.map Scope.node, by rw [nodes, all, List.map_cons],
    by rw [nodes, changed, List.map_cons]⟩

theorem class?_of_updated (updated : env.Updated after) {id : ModuleId} {c : ClassDeclaration}
    (found : after.scopes.class? = some (id, c)) :
    ∃ c', env.scopes.class? = some (id, c') ∧ c'.name = c.name := by
  have all := updated.scopes.all
  unfold ScopeStack.class? at found ⊢
  generalize env.scopes.all = old, after.scopes.all = new at all found
  induction all with
  | nil => cases found
  | @cons a b _ _ head _ ih =>
      have frame := head.frame
      rw [List.findSome?_cons] at found ⊢
      generalize a.frame = f, b.frame = g at frame found
      cases frame with
      | refl =>
          cases inside : f.class? with
          | none =>
              rw [inside] at found
              exact ih found
          | some pair =>
              rw [inside] at found
              exact ⟨c, found, rfl⟩
      | block => exact ih found
      | fields =>
          cases found
          exact ⟨_, rfl, rfl⟩

theorem Reaches.updated {target : Target} (updated : env.Updated after)
    (reaches : after.Reaches target) : env.Reaches target := by
  intro id owner name same
  obtain ⟨c, found, named⟩ := reaches id owner name same
  obtain ⟨c', around, same'⟩ := class?_of_updated updated found
  exact ⟨c', around, same'.trans named⟩

theorem open_current (grown : Grown t Unasked env.scopes.all s) : env.scopes.current.node.Container := by
  obtain ⟨outer, all, _⟩ := env.scopes.all_eq_current
  exact grown.opens _ (by simp [all])

namespace Ledger

theorem writes_defined (ledger : env.Ledger t tokens writes) :
    Defined writes (travel env.nodes).defined := by
  intro w member d same
  have targets := ledger.lawful.targets w member
  rw [same] at targets
  cases targets with
  | inBlock _ found =>
      refine (sound_travel env.nodes).stores w.store ?_ d (mem_of_latest? found).1
      rw [← ledger.stores]
      exact List.mem_map_of_mem member

theorem idles (ledger : env.Ledger t tokens writes) (idles : env.Idles after)
    (same : after.nodes = env.nodes) : after.Ledger t tokens writes := by
  refine ⟨?_, ledger.lawful, ?_⟩
  · rw [same]
    exact ledger.stores
  · rw [same]
    exact ledger.notes.idles idles

theorem append (ledger : env.Ledger t tokens writes) (pass : setting.declaring = false)
    (inner : env.scopes.current.node.Container)
    (stays : ∀ j : Journey, j.sight = (travel env.nodes).sight → j.through c = j) :
    (env.append setting c).Ledger t tokens writes := by
  obtain ⟨around, nodes, changed⟩ := nodes_append pass env c
  obtain ⟨stores, lawful, notes⟩ := ledger
  rw [nodes] at stores notes stays
  have same : travel (env.scopes.current.node.push c :: around) =
      travel (env.scopes.current.node :: around) := by
    rw [travel_push inner, stays _ rfl]
  refine ⟨?_, lawful, ?_⟩
  · rw [changed, same]
    exact stores
  · rw [changed]
    exact (notes.idles (env.idles_append setting c)).grow rfl (by rw [same])

theorem push {frame : Frame} (ledger : env.Ledger t tokens writes) (other : n.kind ≠ .varSetValue)
    (parts : ∀ c ∈ n.children, c.Still) (function : frame.isFunction = n.kind.isFunction)
    (block : frame.isBlock = true → frame.isFunction = true ∨ env.frame.isBlock = true)
    (bare : ∀ name, frame.here name = none)
    (fields : ∀ id c, frame.class? = some (id, c) → ∀ name v, c.fields.find? name = some v →
      v.Noted writes (.field id c.name name) (v.value.isSome = true)) :
    (env.push frame n).Ledger t tokens writes := by
  have went : travel (n :: env.nodes) = (travel env.nodes).enter n := Journey.along_still _ parts
  refine ⟨?_, ledger.lawful, ledger.notes.push function block bare (by rw [went]) fields⟩
  show _ = (travel (n :: env.nodes)).stores
  rw [went, Journey.enter, if_neg other]
  exact ledger.stores

theorem body {h : Header} {kind : NodeKind} {parametersLine : Nat} {type : Datatype}
    {owner : BodyOwner} {place : Token} (ledger : env.Ledger t tokens writes) (front : List Node)
    (function : kind = .functionDefinition ∨ kind = .createConstructor)
    (spelled : ∀ p ∈ h.parameters, p.Spelled)
    (distinct : (h.parameters.map (·.parameter.name)).Nodup) (parts : ∀ c ∈ front, c.Still) :
    (env.openBody type owner h.params place
      (.new kind line (front ++ [h.parametersNode parametersLine]))).Ledger t tokens writes := by
  obtain ⟨notes, nodes, stores⟩ := ledger.notes.body line parametersLine type owner place function
    spelled distinct parts
  refine ⟨?_, ledger.lawful, ?_⟩
  · rw [nodes, stores]
    exact ledger.stores
  · rw [nodes]
    exact notes

theorem declares (ledger : env.Ledger t tokens writes) (pass : setting.declaring = false)
    (inner : env.scopes.current.node.Container) (body : (travel env.nodes).sight.body = true)
    (places : env.Places declared c) : (declared.append setting c).Ledger t tokens writes := by
  obtain ⟨v, shown, added⟩ := places
  have same := nodes_updated (updated_declareLocal added)
  obtain ⟨around, nodes, changed⟩ := nodes_append pass declared c
  rw [current_of_nodes same] at nodes changed
  rw [same] at nodes
  have defined := ledger.writes_defined
  obtain ⟨stores, lawful, notes⟩ := ledger
  rw [nodes] at stores notes body defined
  obtain ⟨notes, stores'⟩ := notes.declares defined inner body shown added
  refine ⟨?_, lawful, ?_⟩
  · rw [changed, stores']
    exact stores
  · rw [changed]
    exact notes.idles (declared.idles_append setting c)

theorem assigns (ledger : env.Ledger t tokens writes) (pass : setting.declaring = false)
    (inner : env.scopes.current.node.Container) (sees : env.Sees t true (travel env.nodes).sight)
    (assigns : env.Assigns false after n) :
    ∃ w, (after.append setting n).Ledger t tokens (writes ++ [w]) ∧ env.Reaches w.target := by
  have plain : false = true → n.StepsRange tokens := by simp
  obtain ⟨target, ⟨targets, allowed, notes⟩, reaches⟩ := ledger.notes.assigns sees assigns plain
  have same := nodes_updated assigns.updated
  obtain ⟨around, nodes, changed⟩ := nodes_append pass after n
  rw [current_of_nodes same] at nodes changed
  rw [same] at nodes
  obtain ⟨kind, parts⟩ := assigns.parts
  have went := Journey.through_giving (travel env.nodes) kind parts
  rw [nodes, ← travel_push inner] at went
  rw [nodes] at targets allowed notes
  refine ⟨_, ⟨?_, ledger.lawful.concat targets allowed, ?_⟩, reaches⟩
  · rw [changed, went, List.map_append, ledger.stores, nodes]
    rfl
  · rw [changed]
    exact (notes.idles (after.idles_append setting n)).grow rfl (by rw [went])

theorem advances (notes : env.Notes writes (n :: around)) (lawful : Lawful t tokens writes)
    (stores : writes.map Write.store = (travel (n :: around)).stores)
    (sees : env.Sees t true (travel (n :: around)).sight) (advances : env.Advances implied after step)
    (steps : implied = true → step.StepsRange tokens) :
    ∃ more, after.Notes (writes ++ more) (n :: around) ∧ Lawful t tokens (writes ++ more) ∧
      (writes ++ more).map Write.store = ((travel (n :: around)).through step).stores ∧
      ∀ w ∈ more, env.Reaches w.target := by
  cases advances with
  | calls calls =>
      refine ⟨[], ?_⟩
      rw [List.append_nil, Journey.through_still _ calls.still]
      exact ⟨notes, lawful, stores, by simp⟩
  | assigns assigns =>
      obtain ⟨target, ⟨targets, allowed, notes⟩, reaches⟩ :=
        notes.assigns sees assigns steps
      obtain ⟨kind, parts⟩ := assigns.parts
      refine ⟨[_], notes, lawful.concat targets allowed, ?_, List.forall_mem_singleton.mpr reaches⟩
      rw [Journey.through_giving _ kind parts, List.map_append, stores]
      rfl

theorem block {kind : BlockKind} {nodeKind : NodeKind} (ledger : env.Ledger t tokens writes)
    (block : env.frame.isBlock = true) (inner : kind ≠ .function) (other : nodeKind ≠ .varSetValue)
    (plain : nodeKind.isFunction = false) {children : List Node} (parts : ∀ c ∈ children, c.Still) :
    (env.push (.block kind {}) (.new nodeKind line children)).Ledger t tokens writes := by
  refine ledger.push other parts ?_ (fun _ => .inr block) (fun _ => rfl) ?_
  · show (Frame.block kind {}).isFunction = nodeKind.isFunction
    rw [plain]
    cases kind <;> first | rfl | exact absurd rfl inner
  · intro _ _ same
    cases same

theorem head (head : env.Ledger t tokens writes) (line : Nat) (pass : setting.declaring = false)
    (completes : env.Completes t) (grown : Grown t Unasked env.scopes.all s) (body : s.body = true)
    (loops : env.Loops tokens defined implied stepped start condition step) :
    ∃ more, ([start, condition, .new .forInstruct line [step]].foldl
        (fun env node => env.append setting node) stepped).Ledger t tokens (writes ++ more) ∧
      ∀ w ∈ more, env.Reaches w.target := by
  have sees := completes.sees grown.stands
  have inner := open_current grown
  obtain ⟨v, shown, added⟩ := loops.places
  obtain ⟨around, nodes⟩ := env.nodes_eq_current
  have sight := grown.travel_sight
  obtain ⟨modules, _, _, _, _, _, node, _, stands⟩ :=
    @Sees.defines _ _ Unasked _ _ sees _ loops.defines
  have bounded := head.writes_defined
  obtain ⟨stores, lawful, notes⟩ := head
  rw [nodes] at stores notes bounded
  rw [show env.scopes.all.map Scope.node = _ from nodes] at sight
  generalize env.scopes.current.node = n at inner nodes node stores notes bounded sight
  obtain ⟨notes, same⟩ := notes.declares bounded inner (by rw [sight, body]) shown added
  have sees' : defined.Sees t true (travel (n.push start :: around)).sight := by
    rw [travel_push inner, Journey.through_sight, sight]
    exact (completes.of_modules (completes.bounded.defines loops.defines) modules).sees stands
  obtain ⟨more, notes, lawful, stores, reaches⟩ :=
    advances notes lawful (stores.trans same.symm) sees' loops.advances loops.steps
  have before : stepped.nodes = n :: around :=
    (nodes_updated loops.advances.updated).trans
      ((nodes_updated (updated_declareLocal added)).trans nodes)
  have went : travel (n.withChildren [start, condition, .new .forInstruct line [step]] :: around) =
      { travel (n.push start :: around) with
        defined := ((travel (n.push start :: around)).through step).defined
        stores := ((travel (n.push start :: around)).through step).stores } := by
    rw [travel_withChildren inner.other inner.titled, Journey.along_cons, ← travel_push inner,
      Journey.along_cons, Journey.through_still _ loops.decides.still, Journey.along_cons,
      Journey.along_nil, Journey.through_flat _ rfl (show NodeKind.forInstruct ≠ _ by decide) rfl]
    have part : (Node.new .forInstruct line [step]).children = [step] := rfl
    rw [part, Journey.along_cons, Journey.along_nil]
  have idles :=
    stepped.idles_appended [start, condition, .new .forInstruct line [step]] setting
  obtain ⟨_, outer, all, changed⟩ :=
    all_appended pass stepped [start, condition, .new .forInstruct line [step]]
  have current : stepped.scopes.current.node = n ∧ outer.map Scope.node = around := by
    rw [Environment.nodes, all, List.map_cons] at before
    exact List.cons.inj before
  generalize [start, condition, .new .forInstruct line [step]].foldl _ stepped = last at changed idles ⊢
  have after : last.nodes =
      n.withChildren [start, condition, .new .forInstruct line [step]] :: around := by
    rw [Environment.nodes, changed, List.map_cons, current.1, current.2]
  refine ⟨more, ⟨?_, lawful, ?_⟩, fun w member => (reaches w member).updated (updated_declareLocal added)⟩
  · rw [after, went]
    exact stores
  · rw [after]
    exact (notes.idles idles).grow rfl (by rw [went])

theorem loop (ledger : env.Ledger t tokens writes) (pass : setting.declaring = false)
    (completes : env.Completes t) (grown : Grown t Unasked env.scopes.all s)
    (block : env.frame.isBlock = true)
    (loops : (env.push (.block .loopHead {}) (.new .forFakeScope line)).Loops tokens defined implied
      stepped start condition step) :
    ∃ more, (([start, condition, .new .forInstruct line [step]].foldl
        (fun env node => env.append setting node) stepped).push
          (.block .forLoop {}) (.new .forStatement line)).Ledger t tokens (writes ++ more) ∧
      ∀ w ∈ more, env.Reaches w.target := by
  obtain ⟨here, opened⟩ : Goes t Unasked (env.push (.block .loopHead {}) (.new .forFakeScope line)) :=
    (completes.sees grown.stands).goes_block grown block rfl rfl (.inl rfl) nofun (by simp) nofun
      nofun nofun
  have within : (env.push (.block .loopHead {}) (.new .forFakeScope line)).Completes t :=
    completes.of_modules (completes.bounded.push nofun) rfl
  have body : here.body = true := (within.sees opened.stands).body
  have entered : (env.push (.block .loopHead {}) (.new .forFakeScope line)).Ledger t tokens writes :=
    ledger.block block (by decide) (by decide) rfl (by simp)
  obtain ⟨completes', here', body', grown'⟩ := within.goes_head line pass opened body rfl loops.defines
    loops.decides loops.advances
  have block' := (completes'.sees grown'.stands).body.symm.trans (body'.trans body)
  obtain ⟨more, stepped, reaches⟩ := entered.head line pass within opened body loops
  exact ⟨more, stepped.block block' (by decide) (by decide) rfl (by simp), reaches⟩

theorem openFor {mods : LeadingModifiers} {head : Token} {tail : List Token} {accepted : Accepted}
    (ledger : env.Ledger t tokens writes) (pass : setting.declaring = false)
    (completes : env.Completes t) (grown : Grown t Unasked env.scopes.all s)
    (block : env.frame.isBlock = true) (inside : tail ⊆ tokens)
    (read : env.openFor setting mods head tail = .ok accepted) :
    ∃ more, (accepted.settled setting).Ledger t tokens (writes ++ more) ∧
      ∀ w ∈ more, env.Reaches w.target := by
  obtain ⟨defined, stepped, start, condition, step, implied, loops, same⟩ := openFor_loops read
  rw [same]
  exact ledger.loop pass completes grown block { loops with
    steps := fun implied => (loops.steps implied).mono inside }

theorem leaves (ledger : env.Ledger t tokens writes) (pass : setting.declaring = false)
    (inner : env.scopes.current.node.Container) (idles : env.Idles after) (same : after.nodes = env.nodes)
    (still : c.Still) : (after.append setting c).Ledger t tokens writes := by
  refine (ledger.idles idles same).append pass ?_ fun j _ => j.through_still still
  rw [current_of_nodes same]
  exact inner

-- What is quiet leaves everything as it is outside of blocks.
theorem quiet (ledger : env.Ledger t tokens writes) (pass : setting.declaring = false)
    (completes : env.Completes t) (grown : Grown t Unasked env.scopes.all s)
    (bare : env.frame.isBlock = false) (quiet : c.Quiet) :
    (env.append setting c).Ledger t tokens writes := by
  have sees := completes.sees grown.stands
  have sight : (travel env.nodes).sight = s := grown.travel_sight
  refine ledger.append pass (open_current grown) fun j same => j.through_quiet c quiet (.inl ?_)
  rw [same, sight, sees.body, bare]

-- A module, a class or an enum is opened.
theorem opens {frame : Frame} {kind : NodeKind} {line : Nat} {children : List Node}
    (ledger : env.Ledger t tokens writes) (bare : frame.isBlock = false)
    (plain : kind.isFunction = false) (other : kind ≠ .varSetValue)
    (parts : ∀ c ∈ children, c.Still)
    (fields : ∀ id c, frame.class? = some (id, c) → ∀ name v, c.fields.find? name = some v →
      v.Noted writes (.field id c.name name) (v.value.isSome = true)) :
    (env.push frame (.new kind line children)).Ledger t tokens writes := by
  refine ledger.push other parts ?_ ?_ ?_ fields
  · show frame.isFunction = kind.isFunction
    rw [plain]
    cases frame <;> first | rfl | cases bare
  · intro block
    rw [bare] at block
    cases block
  · cases frame <;> first | exact fun _ => rfl | cases bare

end Ledger

theorem block_of_placement {place : Token} (placed : env.placement place = .ok .inBlock) :
    env.frame.isBlock = true := by
  unfold Environment.placement at placed
  cases frame : env.frame with
  | block => rfl
  | _ => simp [frame, Checked.bind_eq_ok] at placed

theorem bare_of_placement {place : Token} {placement : Placement}
    (placed : env.placement place = .ok placement) (outside : placement ≠ .inBlock) :
    env.frame.isBlock = false := by
  unfold Environment.placement at placed
  cases frame : env.frame with
  | block =>
      rw [frame] at placed
      cases placed
      exact absurd rfl outside
  | _ => rfl

end Environment

theorem Header.parts_quiet {h : Header} (spelled : ∀ p ∈ h.parameters, p.Spelled)
    (mods : LeadingModifiers) (line : Nat) : ∀ c ∈ h.parts mods line, c.Quiet := by
  have returns : (h.returnNode line).Still := typeNode_still
  have parameters : (h.parametersNode line).Quiet :=
    Node.quiet_of_parts rfl rfl (Header.parametersNode_parts spelled)
  simpa [Header.parts] using
    ⟨Node.still_name.1, returns.1, LeadingModifiers.node_still.1, parameters⟩

theorem membersNode_still {names : List Token} {line : Nat} :
    (Node.new .enumValues line (names.map (Node.leaf .identifier))).Still := by
  refine Node.still_of_parts rfl rfl rfl fun c member => ?_
  obtain ⟨_, _, rfl⟩ := List.mem_map.mp member
  exact Node.still_name

theorem returnNode_still {env : Environment} {value : Option Typed} {line : Nat}
    (means : ∀ e, value = some e → env.Means e) :
    (Node.new .returnValue line (value.map Typed.node).toList).Still := by
  refine Node.still_of_parts rfl rfl rfl fun c member => ?_
  obtain ⟨e, found, rfl⟩ := Option.map_eq_some_iff.mp (Option.mem_toList.mp member)
  exact (means e found).still

theorem exitNode_still {place : Token} {kind : NodeKind} (starts : exitKind place = some kind) :
    (Node.leaf kind place).Still := by
  rcases exitKind_eq_some starts with ⟨_, rfl⟩ | ⟨_, rfl⟩ <;>
    exact Node.still_of_leaf rfl rfl rfl rfl

theorem tail_subset {first head : Token} {rest tail tokens : List Token} {mods : LeadingModifiers}
    (modifiers : LeadingModifiers.read (first :: rest) = .ok (mods, head :: tail))
    (inside : first :: rest ⊆ tokens) : tail ⊆ tokens := by
  refine List.Subset.trans (fun t member => ?_) inside
  rw [(LeadingModifiers.read_append modifiers).1]
  simp [member]

theorem nativeNode_quiet {h : Header} {hostClass : Token} {mods : LeadingModifiers} {line : Nat}
    (spelled : ∀ p ∈ h.parameters, p.Spelled) :
    (Node.new .nativeFunctionDefinition line
      (h.parts mods line ++ [.leaf .nativeHostClass hostClass])).Quiet := by
  refine Node.every_iff.mpr ⟨⟨of_decide_eq_false rfl, rfl⟩, ?_⟩
  have named : (Node.leaf .nativeHostClass hostClass).Still :=
    Node.still_of_leaf rfl rfl rfl rfl
  intro c member
  rcases List.mem_append.mp member with member | member
  · exact Header.parts_quiet spelled mods line c member
  · rw [List.mem_singleton.mp member]
    exact named.1

/-- What stands for a declaration of the first pass: the class is as it has been declared, with no
field given a value, and the node of a global or a field gives none. -/
structure Environment.Unwritten (env : Environment) (writes : List Write) (head : Token)
    (tail : List Token) (node : Option Node) : Prop where
  fields : head.kind = .keyword .«class» → env.frame.isModule = true → ∀ name c, Titled tail name →
    (env.modules.get env.currentModule).members.classes.find? name.lexeme = some c →
    ∀ field v, c.fields.find? field = some v →
      v.Noted writes (.field env.currentModule c.name field) (v.value.isSome = true)
  member : startsVariable head = true → ∀ placement place, env.placement place = .ok placement →
    placement ≠ .inBlock → ∀ n, node = some n → n.Quiet

open Environment in
theorem Accepts.ledger {env : Environment} {setting : Setting} {mods : LeadingModifiers} {t : ModuleTree}
    {s : Sight} {tokens rest tail : List Token} {first head : Token} {accepted : Accepted}
    {writes : List Write} (pass : setting.declaring = false) (completes : env.Completes t)
    (grown : Grown t Unasked env.scopes.all s) (ledger : env.Ledger t tokens writes)
    (inside : first :: rest ⊆ tokens)
    (modifiers : LeadingModifiers.read (first :: rest) = .ok (mods, head :: tail))
    (read : env.statement setting first rest = ⟨accepted.environment, .ok accepted.node⟩)
    (unwritten : env.Unwritten writes head tail accepted.node)
    (accepts : Accepts env setting mods head tail accepted) :
    ∃ more, (accepted.settled setting).Ledger t tokens (writes ++ more) ∧
      ∀ w ∈ more, env.Reaches w.target := by
  have sees := completes.sees grown.stands
  have inner := open_current grown
  have sight : (travel env.nodes).sight = s := grown.travel_sight
  have declaring : ¬setting.declaring = true := by simp [pass]
  have noMore : ∀ {after : Environment}, after.Ledger t tokens writes →
      ∃ more, after.Ledger t tokens (writes ++ more) ∧ ∀ w ∈ more, env.Reaches w.target :=
    fun ledger => ⟨[], by rwa [List.append_nil], by simp⟩
  cases accepts with
  | moduleDeclared _ _ _ first | classDeclared _ _ _ first | enumDeclared _ _ _ first
  | membersDeclared _ _ _ first | functionDeclared _ _ _ first | nativeDeclared _ _ _ first
  | constructorDeclared _ _ _ first => exact absurd first declaring
  | moduleEntered =>
      refine noMore (ledger.opens rfl rfl (by decide) (by simpa using Node.still_name) ?_)
      intro _ _ same
      cases same
  | classEntered kind titled isModule _ found =>
      refine noMore (ledger.opens rfl rfl (by decide) ?_ ?_)
      · simpa using ⟨Node.still_name, LeadingModifiers.node_still⟩
      · intro _ _ same
        cases same
        exact unwritten.fields kind isModule _ _ titled found
  | enumEntered =>
      refine noMore (ledger.opens rfl rfl (by decide) ?_ ?_)
      · simpa using ⟨Node.still_name, LeadingModifiers.node_still⟩
      · intro _ _ same
        cases same
  | classMissing | enumMissing => exact noMore ledger
  | membersKept =>
      exact noMore (ledger.leaves pass inner env.idles_refl rfl membersNode_still)
  | @functionOpened h _ _ _ _ header =>
      have returns : (h.returnNode head.streamLine).Still := typeNode_still
      refine noMore (ledger.body [.leaf .identifier h.name, h.returnNode head.streamLine,
        mods.node head.streamLine] (.inl rfl) (Header.read_spelled header)
        (Header.read_introduced header).distinct ?_)
      simpa using ⟨Node.still_name, returns, LeadingModifiers.node_still⟩
  | @constructorOpened id c h _ _ _ _ _ _ _ list =>
      refine noMore (ledger.body [mods.node head.streamLine] (.inr rfl)
        (Parameter.readList_spelled list) (Parameter.readList_introduced list).1.2 ?_)
      simpa using LeadingModifiers.node_still
  | nativeKept _ _ host _ header =>
      exact noMore (ledger.quiet pass completes grown (isBlock_of_host host)
        (nativeNode_quiet (Header.read_spelled header)))
  | conditional starts _ block decides =>
      rcases conditional_eq_some starts with ⟨_, rfl, rfl⟩ | ⟨_, rfl, rfl⟩ <;>
        exact noMore (ledger.block block (by decide) (by decide) rfl (by simpa using decides.still))
  | doLoop _ _ block => exact noMore (ledger.block block (by decide) (by decide) rfl (by simp))
  | forLoop kind _ block =>
      have found := statement_read read modifiers (.inl (by simp [kind]))
      simp only [Environment.read, kind] at found
      exact ledger.openFor pass completes grown block (tail_subset modifiers inside) found
  | returned _ _ _ means =>
      exact noMore (ledger.leaves pass inner (idles_modifyBlock fun _ => rfl)
        (env.nodes_modifyBlock _) (returnNode_still means))
  | exited starts =>
      exact noMore (ledger.leaves pass inner (idles_modifyBlock fun _ => rfl)
        (env.nodes_modifyBlock _) (exitNode_still starts))
  | used =>
      exact noMore (ledger.leaves pass inner (env.idles_use _) (nodes_updated (env.updated_use _))
        (Node.still_of_leaf rfl rfl rfl rfl))
  | libraryEnded =>
      exact noMore (ledger.leaves pass inner ⟨env.idles_refl.scopes, fun _ => rfl⟩ rfl
        (Node.still_of_leaf rfl rfl rfl rfl))
  | variableDefined starts _ placed inBlock defines =>
      rcases inBlock with first | rfl
      · exact absurd first declaring
      · have block := block_of_placement placed
        exact noMore (ledger.declares pass inner (by rw [sight, sees.body, block])
          (statement_places read modifiers starts block defines))
  | @variableKept placement place tokens starts _ placed _ outer =>
      have quiet := unwritten.member starts placement place placed outer
      unfold Accepted.settled
      dsimp only at quiet ⊢
      cases known : env.knownVariable placement mods head tokens with
      | none => exact noMore ledger
      | some n =>
          exact noMore (ledger.quiet pass completes grown (bare_of_placement placed outer)
            (quiet n known))
  | called _ _ _ calls => exact noMore (ledger.leaves pass inner env.idles_refl rfl calls.still)
  | assigned _ _ _ assigns =>
      rw [← sight] at sees
      obtain ⟨w, ledger, reaches⟩ := ledger.assigns pass inner sees assigns
      exact ⟨[w], ledger, List.forall_mem_singleton.mpr reaches⟩

end MiLanguage
