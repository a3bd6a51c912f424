import MiLanguage.Proofs.Outline.Building

set_option autoImplicit false

namespace MiLanguage

namespace Environment

variable {env opened after : Environment} {setting : Setting} {first head : Token}
  {tail rest : List Token} {mods : LeadingModifiers} {accepted : Accepted} {o inner : Outline}
  {brace : Token} {header : List Token}

/-- A header opens a scope with a node of its own. Only the body of a `do` and the two scopes of a
`for` close in another way than the rest of them. -/
inductive Begins (env : Environment) (header : List Token) (inner : Outline) : Environment → Prop
  | scope {frame : Frame} {kind : NodeKind} {n : Node} {opened : Environment} :
      Outline.nodeKind env.frame.isEnum header = some kind → n.kind = kind →
      kind ≠ .forFakeScope → kind ≠ .doStatement → Outline.Named header n →
      n.children.map Node.kind = Outline.headerKinds kind →
      frame.isEnum = decide (kind = .createEnum) →
      frame.blockKind? ≠ some .doLoop → frame.blockKind? ≠ some .forLoop →
      (env.push frame n).Kept opened → opened.Ready inner → Begins env header inner opened
  | doLoop {n : Node} :
      Outline.nodeKind env.frame.isEnum header = some n.kind →
      n.kind = .doStatement → n.children = [] →
      Begins env header inner (env.push (.block .doLoop {}) n)
  | forLoop {n start condition step loop : Node} {stepped : Environment} :
      Outline.nodeKind env.frame.isEnum header = some n.kind →
      n.kind = .forFakeScope → n.children = [] → start.kind = .varDefAndSetValue →
      condition.kind = .condition → step.kind = .forInstruct → loop.kind = .forStatement →
      loop.children = [] →
      ((env.push (.block .loopHead {}) n).grow [start, condition, step]).Kept stepped →
      Begins env header inner (stepped.push (.block .forLoop {}) loop)

@[simp] theorem depth_grow (env : Environment) (nodes : List Node) :
    (env.grow nodes).scopes.depth = env.scopes.depth :=
  ScopeStack.depth_modifyCurrent _ _

theorem Begins.depth (begins : env.Begins header inner opened) :
    env.scopes.depth < opened.scopes.depth := by
  cases begins with
  | scope _ _ _ _ _ _ _ _ _ kept =>
      have depth := kept.depth
      rw [depth_push] at depth
      omega
  | doLoop =>
      rw [depth_push]
      omega
  | forLoop _ _ _ _ _ _ _ _ kept =>
      have depth := kept.depth
      rw [depth_grow, depth_push] at depth
      rw [depth_push]
      omega

theorem Begins.ready (begins : env.Begins header inner opened) : opened.Ready inner := by
  cases begins with
  | scope _ _ _ _ _ _ _ _ _ _ ready => exact ready
  | doLoop => exact .block rfl
  | forLoop => exact .block rfl

theorem Ready.inModule (ready : env.Ready o) (isModule : env.frame.isModule = true) :
    ∃ path, env.InModule path ∧ o.Complete ∧
      ∀ sought entry, (sought, entry) ∈ o.declared path → entry ∈ env.modules.entriesAt sought := by
  cases ready with
  | block block =>
      rw [isBlock_of_isModule isModule] at block
      cases block
  | enum frame =>
      rw [frame] at isModule
      cases isModule
  | «class» frame =>
      rw [frame] at isModule
      cases isModule
  | module inModule complete known => exact ⟨_, inModule, complete, known⟩

theorem Ready.titled {name : String} {keyword : Keyword}
    (ready : env.Ready (.block header inner brace o)) (isModule : env.frame.isModule = true)
    (title : Outline.title? header = some (keyword, name)) :
    (keyword = .module → ∀ id n, env.modules.child? env.currentModule name = some id →
      (env.push (.module id) n).Ready inner) ∧
    (keyword = .class → ∃ c,
      (env.modules.get env.currentModule).members.classes.find? name = some c ∧
      ∀ n, (env.push (.class env.currentModule c) n).Ready inner) ∧
    (keyword = .enum →
      ((env.modules.get env.currentModule).members.enums.find? name).isSome = true) := by
  obtain ⟨path, ⟨_, arena, place⟩, complete, known⟩ := ready.inModule isModule
  have here : env.modules.entriesAt path =
      (env.modules.get env.currentModule).members.entries := by
    rw [ModuleTree.entriesAt, place]
  refine ⟨?_, ?_, ?_⟩
  · rintro rfl id n child
    have inside : (env.push (.module id) n).InModule (path ++ [name]) := by
      refine ⟨rfl, arena, ?_⟩
      rw [currentModule_push]
      unfold ModuleTree.at? at place ⊢
      rw [push, List.foldlM_append, place]
      simpa using child
    refine .module inside (complete.1 name (.inl title)) ?_
    · intro sought entry member
      apply known
      simp [Outline.declared, title, member]
  · rintro rfl
    have declared : ∀ entry ∈ Entry.class name :: inner.classEntries name,
        entry ∈ (env.modules.get env.currentModule).members.entries := by
      intro entry member
      rw [← here]
      apply known
      simp only [Outline.declared, title, List.mem_append, List.mem_map]
      exact .inl ⟨entry, member, rfl⟩
    obtain ⟨c, found⟩ := Option.isSome_iff_exists.mp (Members.mem_class (declared (.class name) (by simp)))
    have fields : ∀ field valued, .variable (some name) field valued ∈ inner.classEntries name →
        ∃ v, c.fields.find? field = some v ∧ v.value.isSome = valued := by
      intro field valued member
      obtain ⟨c', v, found', field, value⟩ :=
        Members.mem_field (declared _ (List.mem_cons_of_mem _ member))
      rw [found] at found'
      cases found'
      exact ⟨v, field, value⟩
    refine ⟨c, found, fun n => .class rfl ?_ (complete.1 name (.inr title)) fields⟩
    rw [depth_push]
    simp [ScopeStack.depth]
  · rintro rfl
    have member := known path (.enum name inner.memberNames) (by simp [Outline.declared, title])
    rw [here] at member
    exact Members.mem_enum member

theorem openFor_eq_ok (pass : setting.declaring = false)
    (read : env.openFor setting mods head rest = .ok accepted) :
    ∃ start condition stepped, start.kind = .varDefAndSetValue ∧ condition.kind = .condition ∧
      ∃ step, (env.push (.block .loopHead {}) (.new .forFakeScope head.streamLine)).Kept stepped ∧
      accepted = ⟨(stepped.grow [start, condition, .new .forInstruct head.streamLine [step]]).push
        (.block .forLoop {}) (.new .forStatement head.streamLine), none⟩ := by
  simp only [openFor, Checked.bind_eq_ok] at read
  obtain ⟨_, _, _, block, header, dropped, read⟩ := read
  split at read
  next =>
    simp only [Checked.bind_eq_ok] at read
    obtain ⟨_, _, head, _, ⟨defined, start⟩, definition, condition, decides, ⟨stepped, step⟩,
      advances, same⟩ := read
    have defines := (loopDefinition_defines definition).updated
    have advances := (loopStep_advances advances).updated
    have valued : start.kind = .varDefAndSetValue := by
      simp only [loopDefinition, Checked.bind_eq_ok] at definition
      obtain ⟨⟨_, later⟩, _, definition⟩ := definition
      cases later with
      | nil => simp at definition
      | cons first later =>
          simp only [Checked.bind_eq_ok, Checked.require_eq_ok, decide_eq_true_eq] at definition
          obtain ⟨_, _, _, _, _, valued, same⟩ := definition
          cases same
          exact valued
    obtain ⟨_, _, _, _, decided⟩ := conditionNode_decides decides
    refine ⟨start, condition, stepped, valued, by rw [decided]; rfl, step,
      (defines.trans advances).kept, ?_⟩
    cases same
    simp only [List.foldl_cons, List.foldl_nil, append_bodies pass, grow_grow, List.cons_append,
      List.nil_append]
  next => simp at read

theorem openBody_kept (env : Environment) (type : Datatype) (owner : BodyOwner)
    (parameters : List FunctionParameter) (place : Token) (n : Node) :
    ∃ b, (env.push (.block .function b) n).Kept (env.openBody type owner parameters place n) :=
  ⟨_, (env.updated_openBody type owner parameters place n).kept⟩

theorem Begins.block {around : BlockKind} {b : Block} {kind : NodeKind} {n : Node}
    (shown : Outline.nodeKind env.frame.isEnum header = some kind) (same : n.kind = kind)
    (noFor : kind ≠ .forFakeScope) (noDo : kind ≠ .doStatement) (noEnum : kind ≠ .createEnum)
    (named : Outline.Named header n) (children : n.children.map Node.kind = Outline.headerKinds kind)
    (plain : around ≠ .doLoop ∧ around ≠ .forLoop)
    (kept : (env.push (.block around b) n).Kept opened) : env.Begins header inner opened := by
  refine .scope shown same noFor noDo named children ?_ ?_ ?_ kept ?_
  · simp [noEnum, Frame.isEnum]
  · simp [Frame.blockKind?, plain.1]
  · simp [Frame.blockKind?, plain.2]
  · apply Ready.block
    rw [kept.frame.isBlock]
    rfl

theorem Begins.declaration {frame : Frame} {kind : NodeKind} {n : Node}
    (shown : Outline.nodeKind env.frame.isEnum header = some kind) (same : n.kind = kind)
    (titled : kind = .createModule ∨ kind = .createClass ∨ kind = .createEnum)
    (named : Outline.Named header n) (children : n.children.map Node.kind = Outline.headerKinds kind)
    (bare : frame.isBlock = false) (inEnum : frame.isEnum = decide (kind = .createEnum))
    (ready : (env.push frame n).Ready inner) : env.Begins header inner (env.push frame n) := by
  have noBlock : frame.blockKind? = none := by
    cases frame with
    | block => simp [Frame.isBlock, Frame.block?] at bare
    | _ => rfl
  refine .scope shown same ?_ ?_ named children inEnum ?_ ?_ (kept_refl _) ready
  · rcases titled with rfl | rfl | rfl <;> decide
  · rcases titled with rfl | rfl | rfl <;> decide
  · simp [noBlock]
  · simp [noBlock]

theorem kinds_parts (h : Header) (mods : LeadingModifiers) (line : Nat) :
    (h.parts mods line).map Node.kind = Outline.headerKinds .functionDefinition := by
  simp only [Header.parts, Header.returnNode, typeNode, List.map_cons, List.map_nil]
  cases h.returnToken <;> rfl

theorem begins_of_header (pass : setting.declaring = false)
    (ready : env.Ready (.block (first :: tail) inner brace o))
    (read : env.statement setting first tail = ⟨accepted.environment, .ok accepted.node⟩)
    (leftBrace : Ends first tail .leftBrace) :
    accepted.node = none ∧ env.Begins (first :: tail) inner accepted.environment := by
  obtain ⟨mods, head, rest, modifiers, accepts⟩ := statement_accepts read
  have noSemicolon : ¬Ends head rest .semicolon := not_ends_of_read leftBrace modifiers (by simp)
  have shown : ∀ kind, (∀ inEnum, Outline.leadKind inEnum head rest = kind) →
      Outline.nodeKind env.frame.isEnum (first :: tail) = some kind := by
    intro kind lead
    rw [Outline.nodeKind_of_read _ modifiers, lead]
  have named : ∀ {n : Node} {name brace : Token}, rest = [name, brace] →
      .leaf .identifier name ∈ n.children → Outline.Named (first :: tail) n :=
    fun shape shows => Outline.named_of_read modifiers (by rw [shape]; rfl) shows
  have dispatched : head.kind ≠ .identifier → env.read setting mods head rest = .ok accepted :=
    fun other => statement_read read modifiers (.inl other)
  generalize same : (⟨accepted.environment, accepted.node⟩ : Accepted) = found at accepts
  have environment : accepted.environment = found.environment := congrArg Accepted.environment same
  have node : accepted.node = found.node := congrArg Accepted.node same
  rw [environment, node]
  cases accepts with
  | moduleEntered kind titled isModule _ child =>
      obtain ⟨_, shape, _⟩ := titled
      have title := title_of_read modifiers kind shape
      refine ⟨rfl, .declaration (shown .createModule ?_) rfl (by decide)
        (named shape (by simp [Node.new])) rfl rfl rfl ?_⟩
      · simp [Outline.leadKind, kind]
      · exact (ready.titled isModule title).1 rfl _ _ child
  | classEntered kind titled isModule _ found =>
      obtain ⟨_, shape, _⟩ := titled
      have title := title_of_read modifiers kind shape
      obtain ⟨c, found', inside⟩ := (ready.titled isModule title).2.1 rfl
      rw [found] at found'
      cases found'
      refine ⟨rfl, .declaration (shown .createClass ?_) rfl (by decide)
        (named shape (by simp [Node.new])) rfl rfl rfl ?_⟩
      · simp [Outline.leadKind, kind]
      · exact inside _
  | classMissing kind titled isModule _ missing =>
      obtain ⟨_, shape, _⟩ := titled
      obtain ⟨c, found, _⟩ :=
        (ready.titled isModule (title_of_read modifiers kind shape)).2.1 rfl
      rw [missing] at found
      cases found
  | enumEntered kind titled =>
      obtain ⟨_, shape, _⟩ := titled
      refine ⟨rfl, .declaration (shown .createEnum ?_) rfl (by decide)
        (named shape (by simp [Node.new])) rfl rfl rfl ?_⟩
      · simp [Outline.leadKind, kind]
      · refine .enum rfl ?_
        rw [depth_push]
        simp [ScopeStack.depth]
  | enumMissing kind titled isModule _ missing =>
      obtain ⟨_, shape, _⟩ := titled
      have found := (ready.titled isModule (title_of_read modifiers kind shape)).2.2 rfl
      rw [missing] at found
      cases found
  | @functionOpened h kind ends _ _ header =>
      have shows : .leaf .identifier h.name ∈
          (Node.new .functionDefinition head.streamLine (h.parts mods head.streamLine)).children := by
        simp [Node.new, Header.parts]
      obtain ⟨b, kept⟩ := openBody_kept ..
      refine ⟨rfl, .block (shown .functionDefinition ?_) rfl ?_ ?_ ?_
        (Outline.named_of_read modifiers (Header.read_eq_ok header).1 shows) (kinds_parts _ _ _) ?_ kept⟩
      · have last : (rest.getLast?.getD head).is .leftBrace = true := by
          rw [Token.is, decide_eq_true_iff]
          exact ends
        simp [Outline.leadKind, kind, last]
      all_goals decide
  | constructorOpened kind =>
      obtain ⟨b, kept⟩ := openBody_kept ..
      refine ⟨rfl, .block (shown .createConstructor ?_) rfl ?_ ?_ ?_
        (Outline.named_of_other rfl) rfl ?_ kept⟩
      · simp [Outline.leadKind, kind]
      all_goals decide
  | conditional starts _ _ decides =>
      obtain ⟨_, _, _, _, rfl⟩ := decides
      rcases conditional_eq_some starts with ⟨kind, rfl, rfl⟩ | ⟨kind, rfl, rfl⟩
      all_goals
        refine ⟨rfl, .block (shown _ ?_) rfl ?_ ?_ ?_ (Outline.named_of_other rfl) rfl ?_ (kept_refl _)⟩
        · intro inEnum
          simp only [Outline.leadKind, kind]
          rfl
        all_goals simp [Node.new]
  | doLoop kind =>
      refine ⟨rfl, .doLoop (shown _ ?_) rfl rfl⟩
      intro inEnum
      simp only [Outline.leadKind, kind]
      rfl
  | forLoop kind =>
      have opens : env.openFor setting mods head rest = .ok accepted := by
        simpa [Environment.read, kind] using dispatched (by simp [kind])
      obtain ⟨start, condition, stepped, valued, decides, step, kept, same'⟩ :=
        openFor_eq_ok pass opens
      rw [← environment, ← node, same']
      refine ⟨rfl, .forLoop (shown _ ?_) rfl rfl valued decides rfl rfl rfl (kept.grow _)⟩
      intro inEnum
      simp only [Outline.leadKind, kind]
      rfl
  | _ => first | exact absurd ‹_› noSemicolon | simp_all

-- A scope leaves its node to the one around it, but for the body of a `do`, and the loop of a `for`
-- does not leave it alone.
theorem Closes.keeps {scope : Scope} {waiting : Option Node}
    (closes : Closes setting env scope after waiting) (pass : setting.declaring = false)
    (kept : scope.discard = false) (noDo : scope.frame.blockKind? ≠ some .doLoop)
    (noFor : scope.frame.blockKind? ≠ some .forLoop) :
    waiting = none ∧ (env.grow [scope.node]).Kept after := by
  cases closes with
  | discarded discard =>
      rw [kept] at discard
      cases discard
  | «class» => exact ⟨rfl, by rw [pass, append_bodies pass]; exact kept_refl _⟩
  | enum => exact ⟨rfl, by rw [pass, append_bodies pass]; exact kept_refl _⟩
  | module => exact ⟨rfl, by rw [append_bodies pass]; exact kept_refl _⟩
  | @function b =>
      have attached : env.modules.Keeps (b.attached scope.node env.modules) := by
        unfold Block.attached
        cases b.bodyOf with
        | none => exact env.modules.keeps_refl
        | some owner => exact env.modules.keeps_attachBody scope.node owner
      have around : env.Kept { env with modules := b.attached scope.node env.modules } :=
        ⟨env.kept_refl.scopes, attached⟩
      exact ⟨rfl, by rw [append_bodies pass]; exact around.grow _⟩
  | doLoop _ frame => simp [frame, Frame.blockKind?] at noDo
  | forLoop _ frame => simp [frame, Frame.blockKind?] at noFor
  | bare _ frame => simp [frame, Frame.blockKind?] at noFor
  | block => exact ⟨rfl, by rw [append_bodies pass]; exact kept_refl _⟩

theorem Closes.ofDo {scope : Scope} {waiting : Option Node}
    (closes : Closes setting env scope after waiting) (kept : scope.discard = false)
    (frame : scope.frame.blockKind? = some .doLoop) : after = env ∧ waiting = some scope.node := by
  cases closes with
  | discarded discard =>
      rw [kept] at discard
      cases discard
  | doLoop => exact ⟨rfl, rfl⟩
  | module _ isModule => cases same : scope.frame <;> simp_all [Frame.isModule, Frame.blockKind?]
  | _ => simp_all [Frame.blockKind?]

theorem Closes.ofFor {scope : Scope} {waiting : Option Node}
    (closes : Closes setting env scope after waiting) (pass : setting.declaring = false)
    (kept : scope.discard = false) (frame : scope.frame.blockKind? = some .forLoop)
    (deep : env.scopes.depth ≠ 1) :
    waiting = none ∧ ∃ head scopes, (env.grow [scope.node]).scopes.pop? = some (head, scopes) ∧
      after = Environment.grow { env with scopes } [head.node] := by
  cases closes with
  | discarded discard =>
      rw [kept] at discard
      cases discard
  | forLoop _ _ popped =>
      rw [append_bodies pass] at popped ⊢
      rw [append_bodies pass]
      exact ⟨rfl, _, _, popped, rfl⟩
  | bare _ _ empty =>
      rw [append_bodies pass, ScopeStack.pop?_eq_none_iff, depth_grow] at empty
      exact absurd empty deep
  | module _ isModule => cases same : scope.frame <;> simp_all [Frame.isModule, Frame.blockKind?]
  | _ => simp_all [Frame.blockKind?]

variable {full last : Environment} {scope : Scope} {scopes : ScopeStack} {ns more : List Node}
  {waiting : Option Node} {alarms : List Token}

-- From a header to the brace at the end of its block. The node stands with the others once there is
-- nothing to wait for.
theorem Begins.closes (begins : env.Begins header inner opened) (brace : Token)
    (pass : setting.declaring = false)
    (kept : (opened.grow ns).Kept full) (shown : Outline.Shown opened.frame.isEnum inner ns)
    (popped : full.scopes.pop? = some (scope, scopes))
    (closes : Closes setting { full with scopes } scope after waiting) :
    ∃ front, (env.grow front).Kept after ∧
      ∀ rest more, Outline.ShownAfter env.frame.isEnum waiting rest more →
        Outline.Shown env.frame.isEnum (.block header inner brace rest) (front ++ more) := by
  cases begins with
  | @scope frame kind n _ same nodeKind noFor noDo named front inEnum plainDo plainFor begun =>
      obtain ⟨node, discard, top, around⟩ := ((begun.grow ns).trans kept).pop popped
      rw [← top.blockKind?] at plainDo plainFor
      obtain ⟨rfl, left⟩ := closes.keeps pass discard plainDo plainFor
      refine ⟨[scope.node], (around.grow _).trans left, ?_⟩
      rintro rest more ⟨idle⟩
      subst nodeKind
      have body : Outline.Shown (decide (n.kind = .createEnum)) inner ns := by
        rw [← inEnum]
        rwa [begun.frame.isEnum] at shown
      rw [node]
      exact .block same noFor noDo (named.withChildren ns) rfl front body idle
  | @doLoop n same doKind children =>
      obtain ⟨node, discard, top, around⟩ := kept.pop popped
      obtain ⟨rfl, rfl⟩ := closes.ofDo discard top.blockKind?
      refine ⟨[], by rw [grow_nil]; exact around, ?_⟩
      intro rest more after
      cases after with
      | waiting keyword semicolon condition idle =>
          rw [node, List.nil_append]
          have nodes : (n.withChildren ns).children = ns := by simp [Node.withChildren, children]
          refine .doLoop same doKind keyword semicolon ?_ condition shown idle
          rw [Node.push_children, nodes]
  | @forLoop n start condition step loop stepped same forKind children valued decides advances
      loopKind empty begun =>
      obtain ⟨node, discard, top, inside⟩ := kept.pop popped
      have depth := (begun.trans inside).depth
      rw [depth_grow, depth_push] at depth
      have deep : scopes.depth ≠ 1 := by
        have height : env.scopes.depth ≠ 0 := Nat.succ_ne_zero _
        simp only at depth
        omega
      obtain ⟨rfl, head, outer, popped', rfl⟩ := closes.ofFor pass discard top.blockKind? deep
      have whole := (begun.trans inside).grow [scope.node]
      rw [grow_grow] at whole
      obtain ⟨node', _, _, around⟩ := whole.pop popped'
      refine ⟨[head.node], around.grow _, ?_⟩
      rintro rest more ⟨idle⟩
      have body : Outline.Shown false inner (loop.withChildren ns).children := by
        simpa [Node.withChildren, empty] using (show Outline.Shown false inner ns from shown)
      rw [node', node]
      refine .forLoop same forKind ?_ valued decides advances ?_ body idle
      · simp [Node.withChildren, children]
      · exact loopKind

theorem Ready.grow (ready : env.Ready o) (nodes : List Node) : (env.grow nodes).Ready o := by
  cases ready with
  | block block => exact .block (by rwa [frame_grow])
  | enum frame deep => exact .enum ((frame_grow env nodes).trans frame) (by rwa [depth_grow])
  | «class» frame deep complete known =>
      exact .class ((frame_grow env nodes).trans frame) (by rwa [depth_grow]) complete known
  | module inModule complete known =>
      refine .module ⟨?_, inModule.arena, ?_⟩ complete known
      · rw [frame_grow]
        exact inModule.isModule
      · rw [currentModule_grow]
        exact inModule.place

/-- As `Reads`, where every header opens a scope. -/
inductive Enters (setting : Setting) :
    Option Node → Environment → Outline → Environment → List Token → Prop
  | nil {env : Environment} : Enters setting none env .nil env []
  | statement {env warned last : Environment} {first : Token} {tail here beyond : List Token}
      {accepted : Accepted} {rest : Outline} :
      env.Checks setting first warned here →
      warned.statement setting first tail = ⟨accepted.environment, .ok accepted.node⟩ →
      (tail.getLast?.getD first).kind = .semicolon →
      Enters setting none (accepted.settled setting) rest last beyond →
      Enters setting none env (.statement (first :: tail) rest) last (here ++ beyond)
  | block {env warned full after last : Environment} {first : Token}
      {tail here inside beyond : List Token} {accepted : Accepted} {inner rest : Outline}
      {brace : Token} {scope : Scope} {scopes : ScopeStack} {waiting : Option Node} :
      env.Checks setting first warned here →
      warned.statement setting first tail = ⟨accepted.environment, .ok accepted.node⟩ →
      (tail.getLast?.getD first).kind = .leftBrace →
      accepted.environment.scopes.depth ≠ env.scopes.depth →
      Enters setting none (accepted.settled setting) inner full inside →
      full.scopes.pop? = some (scope, scopes) →
      Closes setting { full with scopes } scope after waiting →
      Enters setting waiting after rest last beyond →
      Enters setting none env (.block (first :: tail) inner brace rest) last
        (here ++ (inside ++ beyond))
  | completes {env last : Environment} {block condition : Node} {first : Token}
      {tail beyond : List Token} {rest : Outline} :
      first.kind = .keyword .«while» →
      Enters setting none (env.append setting (block.push condition)) rest last beyond →
      Enters setting (some block) env (.statement (first :: tail) rest) last beyond

theorem Reads.shown (reads : Reads setting waiting env o last alarms) (pass : setting.declaring = false)
    (ready : env.Ready o) :
    ∃ ns, (env.grow ns).Kept last ∧ Outline.ShownAfter env.frame.isEnum waiting o ns ∧
      Enters setting waiting env o last alarms := by
  have same : ∀ {env warned : Environment} {o : Outline}, env.Warned warned → env.Ready o →
      warned.Ready o ∧ warned.frame.isEnum = env.frame.isEnum := by
    intro env warned o warns ready
    refine ⟨ready.of_kept warns.kept id (fun _ => ?_) (fun _ => ?_), warns.kept.frame.isEnum⟩
    all_goals exact List.Subset.refl _
  induction reads with
  | nil => exact ⟨[], by rw [grow_nil]; exact kept_refl _, .idle .nil, .nil⟩
  | @statement env warned last first tail here beyond accepted rest checks read semicolon later ih =>
      have warns := checks.warned
      obtain ⟨ready', inEnum⟩ := same warns ready
      obtain ⟨n, node, kind, named, kept⟩ := shown_of_statement pass ready' read semicolon
      have settled : accepted.settled setting = accepted.environment.grow [n] := by
        rw [Accepted.settled, node, ← append_bodies pass]
      rw [settled] at ih
      obtain ⟨ns, toLast, ⟨idle⟩, enters⟩ := ih ((ready'.statement kept).grow _)
      rw [← settled] at enters
      have around := warns.kept.trans kept
      rw [frame_grow, around.frame.isEnum] at idle
      rw [grow_grow] at toLast
      refine ⟨n :: ns, (around.grow _).trans toLast, .idle (.statement ?_ named idle),
        .statement checks read semicolon enters⟩
      rw [← inEnum]
      exact kind
  | passed checks read leftBrace level =>
      have warns := checks.warned
      obtain ⟨ready', inEnum⟩ := same warns ready
      have deeper := (begins_of_header pass ready' read leftBrace).2.depth
      rw [warns.kept.depth, level] at deeper
      omega
  | @block env warned full after last first tail here inside beyond accepted inner rest brace scope
      scopes waiting checks read leftBrace deeper body popped closes behind ihBody ih =>
      have warns := checks.warned
      obtain ⟨ready', inEnum⟩ := same warns ready
      obtain ⟨node, begins⟩ := begins_of_header pass ready' read leftBrace
      have settled : accepted.settled setting = accepted.environment := by
        rw [Accepted.settled, node]
      rw [settled] at ihBody
      obtain ⟨ns, kept, ⟨shown⟩, entered⟩ := ihBody begins.ready
      rw [← settled] at entered
      obtain ⟨front, left, whole⟩ :=
        begins.closes brace pass kept shown popped closes
      obtain ⟨more, toLast, further, enters⟩ := ih ((ready'.grow front).behind left)
      rw [left.frame.isEnum, frame_grow] at further
      refine ⟨front ++ more, ?_, .idle ?_,
        .block checks read leftBrace deeper entered popped closes enters⟩
      · rw [← grow_grow]
        exact (((warns.kept.grow front).trans left).grow more).trans toLast
      · rw [← inEnum]
        exact whole rest more further
  | @completes env last block condition first tail beyond rest keyword semicolon decides later ih =>
      have appended := env.append_bodies pass (block.push condition)
      rw [appended] at ih
      have behind : env.Ready rest := ready.statement env.kept_refl
      obtain ⟨ns, toLast, ⟨idle⟩, enters⟩ := ih (behind.grow _)
      rw [← appended] at enters
      rw [grow_grow] at toLast
      rw [frame_grow] at idle
      refine ⟨block.push condition :: ns, toLast, .waiting ?_ ?_ ?_ idle, .completes keyword enters⟩
      · simp [Token.is, keyword]
      · simp [List.getLast?_cons, Token.is, semicolon]
      · obtain ⟨_, _, _, _, same⟩ := wrappedCondition_decides decides
        rw [same]
        rfl

end Environment

end MiLanguage
