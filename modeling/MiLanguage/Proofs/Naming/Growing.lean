import MiLanguage.Proofs.Naming.Building
import MiLanguage.Proofs.Passes.Bounds

set_option autoImplicit false

namespace MiLanguage

variable {env : Environment} {setting : Setting} {t : ModuleTree} {asks : Sight → Node → Prop}
  {s here : Sight} {scope : Scope}
  {outer : List Scope} {n : Node} {id : ModuleId}

theorem Stands.unknown {scopes : List Scope} {whole : Bool} {name : String}
    (stands : Stands t whole scopes s) (other : ∀ l ∈ s.locals, l.1 ≠ name) :
    lookupIn scopes name = none := by
  have unnamed := stands.locals name
  rw [List.filter_eq_nil_iff.mpr fun l member => by simpa using other l member] at unnamed
  cases found : lookupIn scopes name with
  | none => rfl
  | some => simp [found] at unnamed

theorem Scope.grows_new {kind : NodeKind} {line : Nat} {children : List Node}
    (node : scope.node = .new kind line children) (plain : kind.asked = false)
    (silent : kind.introduces = false) (condition : kind ≠ .condition)
    (titled : kind = .createModule ∨ kind = .createClass → scope.node.title?.isSome = true)
    (loop : kind = .doStatement ↔ scope.sketch.title = .block .doLoop)
    (body : kind = .doStatement → children = [])
    (throughout : ThroughoutAll (t.Sound asks) (s.inside scope.node) children) :
    scope.Grows t asks s ((s.inside scope.node).afterAll children) := by
  have kind' : scope.node.kind = kind := by rw [node]; rfl
  have children' : scope.node.children = children := by rw [node]; rfl
  refine ⟨?_, ?_, ?_, ?_, ?_, ?_, ?_, ?_, ?_⟩
  · rw [node]
    rfl
  · rw [kind']
    exact plain
  · rw [kind']
    exact silent
  · rw [kind']
    exact condition
  · rw [kind']
    exact titled
  · rw [kind']
    exact loop
  · intro same
    rw [kind'] at same
    rw [children', body same]
    nofun
  · rw [children']
    exact throughout
  · rw [children']

theorem Scope.grows_parts {kind : NodeKind} {line : Nat} {children : List Node}
    (node : scope.node = .new kind line children) (plain : kind.asked = false)
    (silent : kind.introduces = false) (condition : kind ≠ .condition)
    (titled : kind = .createModule ∨ kind = .createClass → scope.node.title?.isSome = true)
    (loop : kind = .doStatement ↔ scope.sketch.title = .block .doLoop)
    (body : kind = .doStatement → children = [])
    (parts : ∀ c ∈ children, c.Part t asks (s.inside scope.node)) :
    scope.Grows t asks s (s.inside scope.node) := by
  obtain ⟨throughout, same⟩ := ModuleTree.throughoutAll_parts parts
  have grows := Scope.grows_new node plain silent condition titled loop body throughout
  rw [same] at grows
  exact grows

namespace ScopeStack

theorem current_modifyCurrent (s : ScopeStack) (f : Scope → Scope) :
    (s.modifyCurrent f).current = f s.current := by
  unfold modifyCurrent ScopeStack.current
  cases s.opened <;> rfl

-- The scopes once a variable is declared in the innermost one.
theorem declareLocal?_eq_some {old new : ScopeStack} {v : Variable}
    (added : old.declareLocal? v = some new) :
    lookupIn old.all v.name = none ∧
      ∃ kind b height outer, old.current.frame = .block kind b ∧ old.all = old.current :: outer ∧
        new.all = new.current :: outer ∧ new.current = { old.current with
          frame := .block kind { b with locals := b.locals.insert v.name ⟨v, height⟩ } } := by
  unfold declareLocal? at added
  split at added
  next => cases added
  next declarable =>
    cases added
    simp only [Bool.or_eq_true, not_or, Bool.not_eq_true, Bool.not_eq_false'] at declarable
    obtain ⟨⟨fresh, _⟩, block⟩ := declarable
    have fresh : old.lookupLocal? v.name = none := by simpa using fresh
    refine ⟨fresh, ?_⟩
    obtain ⟨outer, all, changed⟩ := old.all_eq_current
    cases frame : old.current.frame with
    | block kind b =>
        refine ⟨kind, b, old.functionHeight, outer, rfl, all, ?_, ?_⟩
        · rw [modifyCurrentBlock, changed, current_modifyCurrent]
        · rw [modifyCurrentBlock, current_modifyCurrent, frame]
          rfl
    | _ => rw [frame] at block; cases block

theorem declareLocal?_of_unknown {s : ScopeStack} {v : Variable}
    (unknown : lookupIn s.all v.name = none) (function : s.current.frame.isFunction = true) :
    ∃ new, s.declareLocal? v = some new := by
  have unknown : s.lookupLocal? v.name = none := unknown
  have around : s.functionScope?.isNone = false := by
    obtain ⟨outer, all, _⟩ := s.all_eq_current
    simp [functionScope?, all, function]
  have block : s.current.frame.isBlock = true := by
    cases frame : s.current.frame <;> first | rfl | (rw [frame] at function; cases function)
  exact ⟨_, if_neg (by simp [unknown, around, block])⟩

end ScopeStack

theorem Stands.declared {old new : ScopeStack} {v : Variable} (stands : Stands t true old.all s)
    (added : old.declareLocal? v = some new) (plain : isDotted v.name = false)
    (known : t.Knows v.type) :
    ∃ outer, old.all = old.current :: outer ∧ new.all = new.current :: outer ∧
      new.current.node = old.current.node ∧ new.current.sketch = old.current.sketch ∧
      Stands t true new.all { s with locals := s.locals ++ [(v.name, v.type)] } := by
  obtain ⟨fresh, kind, b, height, outer, frame, all, all', current⟩ :=
    ScopeStack.declareLocal?_eq_some added
  refine ⟨outer, all, all', by rw [current], ?_, ?_⟩
  · rw [current]
    unfold Scope.sketch
    rw [frame]
    rfl
  · rw [all] at stands fresh
    rw [all']
    exact stands.declares frame (by rw [current]) fresh plain known

namespace Environment

theorem all_append (pass : setting.declaring = false) (env : Environment) (n : Node) :
    ∃ outer, env.scopes.all = env.scopes.current :: outer ∧
      (env.append setting n).scopes.all =
        { env.scopes.current with node := env.scopes.current.node.push n } :: outer := by
  obtain ⟨outer, all, changed⟩ := env.scopes.all_eq_current
  refine ⟨outer, all, ?_⟩
  rw [append, if_neg (by simp [pass])]
  exact changed _

theorem grown_append {after : Environment} (pass : setting.declaring = false)
    (grown : Grown t asks env.scopes.all here) (marked : env.Marked after)
    (throughout : Throughout (t.Sound asks) here n) (silent : n.locals = [] ∨ here.body = false)
    (condition : n.kind ≠ .condition) : Grown t asks (after.append setting n).scopes.all here := by
  obtain ⟨outer, all, changed⟩ := all_append pass after n
  have grown' := grown.marked marked.scopes
  rw [all] at grown'
  rw [changed]
  exact grown'.append throughout silent condition

theorem grown_part {after : Environment} (pass : setting.declaring = false)
    (grown : Grown t asks env.scopes.all here) (marked : env.Marked after) (part : n.Part t asks here)
    (condition : n.kind ≠ .condition) : Grown t asks (after.append setting n).scopes.all here :=
  grown_append pass grown marked part.throughout (.inl part.silent) condition

-- A parameter as a variable of the body.
def parameterVariable (env : Environment) (place : Token) (p : FunctionParameter) : Variable :=
  { name := p.name, type := p.type, modifiers := p.modifiers, origin := env.originOf place
    initialized := true }

def declareParameter (place : Token) (env : Environment) (p : FunctionParameter) : Environment :=
  { env with scopes := (env.scopes.declareLocal? (env.parameterVariable place p)).getD env.scopes }

theorem openBody_eq (env : Environment) (type : Datatype) (owner : BodyOwner)
    (parameters : List FunctionParameter) (place : Token) (n : Node) :
    env.openBody type owner parameters place n = parameters.foldl (declareParameter place)
      (env.push (.block .function { Block.function type with bodyOf := some owner }) n) :=
  rfl

-- The parameters are in sight in a body.
theorem stands_parameters (parameters : List FunctionParameter) (place : Token)
    (stands : Stands t true env.scopes.all s)
    (function : env.scopes.current.sketch.title = .block .function)
    (distinct : (parameters.map FunctionParameter.name).Nodup)
    (plain : ∀ p ∈ parameters, isDotted p.name = false)
    (fresh : ∀ p ∈ parameters, ∀ l ∈ s.locals, l.1 ≠ p.name)
    (known : ∀ p ∈ parameters, t.Knows p.type) :
    let opened := parameters.foldl (declareParameter place) env
    ∃ outer, env.scopes.all = env.scopes.current :: outer ∧
      opened.scopes.all = opened.scopes.current :: outer ∧
      opened.scopes.current.node = env.scopes.current.node ∧
      opened.scopes.current.sketch = env.scopes.current.sketch ∧
      Stands t true opened.scopes.all
        { s with locals := s.locals ++ parameters.map fun p => (p.name, p.type) } := by
  induction parameters generalizing env s with
  | nil =>
      obtain ⟨outer, all, _⟩ := env.scopes.all_eq_current
      exact ⟨outer, all, all, rfl, rfl, by simpa using stands⟩
  | cons p parameters ih =>
      rw [List.map_cons, List.nodup_cons] at distinct
      have isFunction : env.scopes.current.frame.isFunction = true := by
        have title : env.scopes.current.frame.title = .block .function := function
        cases frame : env.scopes.current.frame with
        | block => rw [frame] at title; cases title; rfl
        | _ => rw [frame] at title; cases title
      obtain ⟨scopes, declares⟩ := ScopeStack.declareLocal?_of_unknown
        (v := env.parameterVariable place p) (stands.unknown (fresh p (by simp))) isFunction
      obtain ⟨outer, all, all', node, sketch, stands'⟩ :=
        stands.declared declares (plain p (by simp)) (known p (by simp))
      have fresh' : ∀ q ∈ parameters, ∀ l ∈ s.locals ++ [(p.name, p.type)], l.1 ≠ q.name := by
        intro q member l inside
        rcases List.mem_append.mp inside with inside | inside
        · exact fresh q (by simp [member]) l inside
        · rw [List.mem_singleton.mp inside]
          exact fun same => distinct.1 (List.mem_map.mpr ⟨q, member, same.symm⟩)
      have same : declareParameter place env p = { env with scopes } := by
        rw [declareParameter, declares]
        rfl
      obtain ⟨outer', same', opened, node', sketch', stands''⟩ :=
        ih (show Stands t true ({ env with scopes } : Environment).scopes.all _ from stands')
          (by rw [sketch]; exact function) distinct.2
          (fun q member => plain q (by simp [member])) fresh'
          (fun q member => known q (by simp [member]))
      rw [all', List.cons.injEq] at same'
      rw [← same'.2] at opened
      simp only [List.foldl_cons, same]
      refine ⟨outer, all, opened, node'.trans node, sketch'.trans sketch, ?_⟩
      rw [List.append_assoc] at stands''
      exact stands''

end Environment

namespace Environment

variable {line : Nat} {mods : LeadingModifiers}

theorem Sees.path (sees : env.Sees t true s) : t.pathSegments env.currentModule = s.path :=
  sees.stands.place

theorem Sees.body (sees : env.Sees t true s) : s.body = env.frame.isBlock := by
  obtain ⟨outer, all, _⟩ := env.scopes.all_eq_current
  exact sees.stands.level _ (by rw [all]; rfl)

-- The scopes behind a statement.
def Goes (t : ModuleTree) (asks : Sight → Node → Prop) (after : Environment) : Prop :=
  ∃ here, Grown t asks after.scopes.all here

theorem goes_push {frame : Frame} {kind : NodeKind} {children : List Node}
    (grown : Grown t asks env.scopes.all s) (plain : kind.asked = false)
    (silent : kind.introduces = false) (condition : kind ≠ .condition)
    (titled : kind = .createModule ∨ kind = .createClass →
      (Node.new kind line children).title?.isSome = true)
    (loop : kind = .doStatement ↔ frame.title = .block .doLoop)
    (body : kind = .doStatement → children = [])
    (parts : ∀ c ∈ children, c.Part t asks (s.inside (.new kind line children)))
    (stands : Stands t true ({ frame, node := .new kind line children } :: env.scopes.all)
      (s.inside (.new kind line children))) :
    Goes t asks (env.push frame (.new kind line children)) :=
  ⟨_, .inner grown rfl (Scope.grows_parts rfl plain silent condition titled loop body parts) stands⟩

section Declarations

variable (sees : env.Sees t true s) (grown : Grown t asks env.scopes.all s)
  (isModule : env.frame.isModule = true) {name : Token}

include sees grown isModule

theorem Sees.goes_module
    (child : env.modules.child? env.currentModule name.lexeme = some id) :
    Goes t asks (env.push (.module id) (.new .createModule line [.leaf .identifier name])) := by
  obtain ⟨outer, all, _⟩ := env.scopes.all_eq_current
  have inside := (sees.arena.children _ _ _ child).1
  have path : t.pathSegments id = s.path ++ [name.lexeme] := by
    rw [sees.offers.paths id inside, ModuleTree.pathSegments_child sees.arena child,
      ← sees.offers.paths _ sees.here, sees.path]
  refine goes_push grown rfl rfl nofun (fun _ => rfl) (by simp [Frame.title]) nofun ?_ ?_
  · simpa using Node.part_name
  · have stands := sees.stands
    rw [all] at stands ⊢
    exact stands.openModule isModule rfl path

theorem Sees.goes_class {c : ClassDeclaration}
    (found : (env.modules.get env.currentModule).members.classes.find? name.lexeme = some c)
    (file : name.span.fileId = c.origin.fileId) :
    Goes t asks (env.push (.class env.currentModule c)
      (.new .createClass line [.leaf .identifier name, mods.node line])) := by
  obtain ⟨outer, all, _⟩ := env.scopes.all_eq_current
  obtain ⟨named, known⟩ := (sees.known _).classes _ _ found
  obtain ⟨d, there, offers⟩ := (sees.offers.members _).classes _ _ found
  obtain ⟨c', back, offered⟩ := ((sees.offered rfl).members _).classes _ _ there
  rw [found] at back
  cases back
  refine goes_push grown rfl rfl nofun (fun _ => rfl) (by simp [Frame.title]) nofun ?_ ?_
  · simpa using ⟨Node.part_name, LeadingModifiers.node_part⟩
  · have stands := sees.stands
    have same : s.inside (.new .createClass line [.leaf .identifier name, mods.node line]) =
        { path := s.path, owner := some c.label } := by
      show ({ path := s.path, owner := some (name.lexeme, name.span.fileId) } : Sight) = _
      rw [file, ← named]
      rfl
    rw [same]
    rw [all] at stands ⊢
    exact stands.openClass isModule rfl sees.path known ⟨d, by rw [named]; exact there, offers,
      fun _ => offered⟩

theorem Sees.goes_enum {e : EnumDeclaration} :
    Goes t asks (env.push (.enum env.currentModule e)
      (.new .createEnum line [.leaf .identifier name, mods.node line])) := by
  obtain ⟨outer, all, _⟩ := env.scopes.all_eq_current
  refine goes_push grown rfl rfl nofun (by simp) (by simp [Frame.title]) nofun ?_ ?_
  · simpa using ⟨Node.part_name, LeadingModifiers.node_part⟩
  · have stands := sees.stands
    rw [all] at stands ⊢
    exact stands.openEnum isModule rfl sees.path

end Declarations

section Blocks

variable (sees : env.Sees t true s) (grown : Grown t asks env.scopes.all s)
  (block : env.frame.isBlock = true)

include sees grown block

theorem Sees.goes_block {kind : BlockKind} {nodeKind : NodeKind} {children : List Node}
    (plain : nodeKind.asked = false) (silent : nodeKind.introduces = false)
    (flat : nodeKind.encloses = false ∨ nodeKind = .doStatement) (condition : nodeKind ≠ .condition)
    (loop : nodeKind = .doStatement ↔ kind = .doLoop) (inner : kind ≠ .function)
    (body : nodeKind = .doStatement → children = []) (parts : ∀ c ∈ children, c.Part t asks s) :
    Goes t asks (env.push (.block kind {}) (.new nodeKind line children)) := by
  obtain ⟨outer, all, _⟩ := env.scopes.all_eq_current
  have same : s.inside (.new nodeKind line children) = s := by
    rcases flat with flat | loop
    · exact s.inside_of_flat flat
    · exact s.inside_doStatement loop
  refine goes_push grown plain silent condition ?_ (by simpa [Frame.title] using loop) body ?_ ?_
  · rcases flat with flat | rfl
    · rintro (rfl | rfl) <;> cases flat
    · simp
  · rw [same]
    exact parts
  · rw [same]
    have stands := sees.stands
    rw [all] at stands ⊢
    exact stands.openBlock block rfl inner rfl

end Blocks

section Bodies

variable {h : Header} (sees : env.Sees t true s)

include sees

theorem Sees.stands_openBody (n : Node) (type : Datatype) (owner : BodyOwner) (place : Token)
    (introduced : ∀ p ∈ h.parameters, p.Introduced env)
    (distinct : (h.parameters.map (·.parameter.name)).Nodup) :
    let opened := env.openBody type owner h.params place n
    opened.scopes.all = opened.scopes.current :: env.scopes.all ∧ opened.scopes.current.node = n ∧
      opened.scopes.current.sketch = ⟨.block .function, false, false⟩ ∧
      Stands t true opened.scopes.all
        { path := s.path, owner := s.owner, body := true, locals := h.locals } := by
  have params : ∀ p ∈ h.params, ∃ q ∈ h.parameters, q.parameter = p :=
    fun _ member => List.mem_map.mp member
  have stands : Stands t true (env.push (.block .function
      { Block.function type with bodyOf := some owner }) n).scopes.all
      { path := s.path, owner := s.owner, body := true } := by
    obtain ⟨outer, all, _⟩ := env.scopes.all_eq_current
    have stands := sees.stands
    rw [all] at stands
    show Stands t true (_ :: env.scopes.all) _
    rw [all]
    exact stands.openBody rfl rfl rfl
  obtain ⟨around, same, opened, node, sketch, stands'⟩ :=
    stands_parameters h.params place stands rfl
      (by simpa [Header.params, Function.comp_def] using distinct)
      (fun p member => by
        obtain ⟨q, inside, rfl⟩ := params p member
        exact (introduced q inside).plain)
      (fun _ _ => nofun)
      (fun p member => by
        obtain ⟨q, inside, rfl⟩ := params p member
        obtain ⟨_, _, _, _, _, _, spells, _⟩ := (introduced q inside).shown
        exact (sees.spells spells).1)
  have around : around = env.scopes.all := (List.cons.inj same).2.symm
  rw [around] at opened
  refine ⟨opened, node, sketch, ?_⟩
  have shown : h.locals = [] ++ h.params.map fun p => (p.name, p.type) := by
    simp [Header.locals, Header.params, Function.comp_def]
  rw [shown]
  exact stands'

theorem Sees.goes_body {kind : NodeKind} (front : List Node) {type : Datatype} {owner : BodyOwner}
    {place : Token} (grown : Grown t asks env.scopes.all s) (function : kind = .functionDefinition ∨ kind = .createConstructor)
    (introduced : ∀ p ∈ h.parameters, p.Introduced env)
    (distinct : (h.parameters.map (·.parameter.name)).Nodup)
    (parts : ∀ c ∈ front, c.Part t asks { path := s.path, owner := s.owner, body := true }) :
    Goes t asks (env.openBody type owner h.params place
      (.new kind line (front ++ [h.parametersNode line]))) := by
  obtain ⟨all, node, sketch, stands⟩ :=
    sees.stands_openBody (.new kind line (front ++ [h.parametersNode line])) type owner place
      introduced distinct
  generalize env.openBody type owner h.params place _ = opened at all node sketch stands ⊢
  have inside : s.inside opened.scopes.current.node =
      { path := s.path, owner := s.owner, body := true } := by
    rw [node]
    rcases function with rfl | rfl <;> rfl
  obtain ⟨throughout, silent⟩ := ModuleTree.throughoutAll_parts parts
  have after : (s.inside opened.scopes.current.node).afterAll (front ++ [h.parametersNode line]) =
      { path := s.path, owner := s.owner, body := true, locals := h.locals } := by
    rw [inside, Sight.afterAll_append, silent, ← Header.locals_parametersNode introduced]
    rfl
  have grows : opened.scopes.current.Grows t asks s ((s.inside opened.scopes.current.node).afterAll
      (front ++ [h.parametersNode line])) := by
    refine Scope.grows_new node ?_ ?_ ?_ ?_ ?_ ?_ ?_
    · rcases function with rfl | rfl <;> rfl
    · rcases function with rfl | rfl <;> rfl
    · rcases function with rfl | rfl <;> exact nofun
    · rcases function with rfl | rfl <;> exact nofun
    · rw [sketch]
      rcases function with rfl | rfl <;> exact ⟨nofun, nofun⟩
    · rcases function with rfl | rfl <;> exact nofun
    · rw [inside]
      refine throughout.append ?_
      rw [silent]
      exact .cons (Header.parametersNode_throughout sees rfl rfl introduced) .nil
  rw [after] at grows
  refine ⟨{ path := s.path, owner := s.owner, body := true, locals := h.locals }, ?_⟩
  rw [all] at stands ⊢
  exact .inner grown (congrArg Sketch.discard sketch) grows stands

theorem Sees.native_throughout {host : Token} (outside : env.frame.isBlock = false)
    (introduced : h.Introduced env) :
    Throughout (t.Sound asks) s (.new .nativeFunctionDefinition line
      (h.parts mods line ++ [.leaf .nativeHostClass host])) := by
  have same : ∀ n, s.after n = s := fun n =>
    s.after_of_body n (sees.body.trans outside)
  refine throughout_of_flat (ModuleTree.sound_untyped rfl rfl) rfl ?_
  show ThroughoutAll (t.Sound asks) s [_, _, _, _, _]
  refine .cons Node.part_name.throughout ?_
  rw [same]
  refine .cons (Header.returnNode_part sees rfl rfl introduced).throughout ?_
  rw [same]
  refine .cons LeadingModifiers.node_part.throughout ?_
  rw [same]
  refine .cons (Header.parametersNode_throughout sees rfl rfl introduced.parameters) ?_
  rw [same]
  exact .cons (Node.part_leaf rfl rfl rfl).throughout .nil

end Bodies

section Variables

variable (sees : env.Sees t true s)

include sees

theorem Sees.defines {declared : Environment} (defines : env.Defines .inBlock declared n) :
    declared.modules = env.modules ∧ n.kind ≠ .condition ∧ Throughout (t.Sound asks) s n ∧
      ∃ outer, env.scopes.all = env.scopes.current :: outer ∧
        declared.scopes.all = declared.scopes.current :: outer ∧
        declared.scopes.current.node = env.scopes.current.node ∧
        declared.scopes.current.sketch = env.scopes.current.sketch ∧
        Stands t true declared.scopes.all (s.after n) := by
  cases defines with
  | @intro v _ typeToken name mods introduces declares =>
      obtain ⟨scopes, added, same⟩ := Option.map_eq_some_iff.mp declares
      cases same
      obtain ⟨known, spells⟩ := sees.introduces introduces
      obtain ⟨outer, all, all', node, sketch, stands⟩ :=
        sees.stands.declared added introduces.plain known.type
      have body : s.body = true := by
        obtain ⟨_, kind, b, _, _, frame, _⟩ := ScopeStack.declareLocal?_eq_some added
        rw [sees.body]
        unfold Environment.frame
        rw [frame]
        rfl
      refine ⟨rfl, ?_, variableNode_throughout known spells (Node.asked_of_body body _), outer, all, all', node, sketch, ?_⟩
      · unfold variableNode
        split <;> exact nofun
      · rw [Sight.after, if_pos body, locals_variableNode, ← introduces.named]
        exact stands

theorem Sees.goes_variable {declared : Environment} (pass : setting.declaring = false)
    (grown : Grown t asks env.scopes.all s) (defines : env.Defines .inBlock declared n) :
    Goes t asks (declared.append setting n) := by
  obtain ⟨_, condition, throughout, outer, all, all', node, sketch, stands⟩ := sees.defines defines
  obtain ⟨outer', same, appended⟩ := all_append pass declared n
  rw [all', List.cons.injEq] at same
  rw [← same.2] at appended
  refine ⟨s.afterAll [n], ?_⟩
  rw [appended]
  rw [all] at grown
  rw [all'] at stands
  refine grown.grow (MiLanguage.marked_refl outer) sketch (by rw [node]; rfl) (.cons throughout .nil)
    (fun _ => by simpa using condition) ?_
  exact stands.marked (.cons (.refl _) (Grown.frames (MiLanguage.marked_refl outer)))

end Variables

/-- The modules are those of `t`, but for bodies and marks. -/
structure Completes (env : Environment) (t : ModuleTree) : Prop where
  bounded : env.Bounded
  agrees : t.Agrees env.modules
  known : t.Known env.modules

theorem Completes.sees (completes : env.Completes t) (stands : Stands t true env.scopes.all s) :
    env.Sees t true s where
  arena := completes.bounded.arena
  offers := completes.agrees.offered
  offered _ := completes.agrees.offers
  known := completes.known
  here := completes.bounded.currentModule
  inside id c found := by
    obtain ⟨scope, member, here⟩ := List.exists_of_findSome?_eq_some
      (show env.scopes.all.findSome? (·.frame.class?) = some (id, c) from found)
    refine completes.bounded.scopes scope.sketch (List.mem_map_of_mem member) id ?_
    show scope.frame.title.moduleId? = some id
    cases frame : scope.frame with
    | «class» =>
        rw [frame] at here
        cases here
        rfl
    | _ => rw [frame] at here; cases here
  stands := stands

theorem Completes.of_modules {after : Environment} (completes : env.Completes t)
    (bounded : after.Bounded) (same : after.modules = env.modules) : after.Completes t :=
  ⟨bounded, same ▸ completes.agrees, same ▸ completes.known⟩

theorem Completes.updated {after : Environment} (completes : env.Completes t)
    (updated : env.Updated after) : after.Completes t where
  bounded := completes.bounded.updated updated
  agrees := completes.agrees.trans updated.modules.agrees
  known := completes.known.updated updated.modules

theorem Completes.append (completes : env.Completes t) (n : Node) :
    (env.append setting n).Completes t :=
  completes.of_modules (completes.bounded.append n) (modules_append _ _ _)

theorem all_appended (pass : setting.declaring = false) (env : Environment) (nodes : List Node) :
    let after := nodes.foldl (fun env node => env.append setting node) env
    after.modules = env.modules ∧ ∃ outer, env.scopes.all = env.scopes.current :: outer ∧
      after.scopes.all = { env.scopes.current with
        node := env.scopes.current.node.withChildren nodes } :: outer := by
  induction nodes generalizing env with
  | nil =>
      obtain ⟨outer, all, _⟩ := env.scopes.all_eq_current
      exact ⟨rfl, outer, all, by rw [Node.withChildren_nil]; exact all⟩
  | cons n nodes ih =>
      obtain ⟨modules, outer, all, after⟩ := ih (env.append setting n)
      obtain ⟨outer', all', same⟩ := all_append pass env n
      rw [all, List.cons.injEq] at same
      refine ⟨modules.trans (modules_append _ _ _), outer', all', ?_⟩
      simp only [List.foldl_cons]
      rw [after, same.1, same.2]
      simp [Node.withChildren, Node.push]

theorem Completes.goes_head {defined stepped : Environment} {start condition step : Node}
    {implied : Bool} (line : Nat) (pass : setting.declaring = false) (completes : env.Completes t)
    (grown : Grown t asks env.scopes.all s) (body : s.body = true)
    (kind : env.scopes.current.node.kind = .forFakeScope)
    (defines : env.Defines .inBlock defined start) (decides : defined.Decides condition)
    (advances : defined.Advances implied stepped step) :
    let after := [start, condition, .new .forInstruct line [step]].foldl
      (fun env node => env.append setting node) stepped
    after.Completes t ∧ ∃ here, here.body = s.body ∧ Grown t asks after.scopes.all here := by
  obtain ⟨modules, _, throughout, around, all, all', node, sketch, stands⟩ :=
    (completes.sees grown.stands).defines defines
  have within := completes.of_modules (completes.bounded.defines defines) modules
  have sees := within.sees stands
  have parts : ∀ c ∈ [condition, .new .forInstruct line [step]], c.Part t asks (s.after start) := by
    have inside : (s.after start).body = true := by simpa using body
    simpa using ⟨sees.decides inside decides,
      Node.part_new rfl rfl rfl (by simpa using sees.advances inside advances)⟩
  obtain ⟨throughouts, silent⟩ := ModuleTree.throughoutAll_parts parts
  have marked := advances.marked.scopes
  obtain ⟨_, outer, stepped', after⟩ :=
    all_appended pass stepped [start, condition, .new .forInstruct line [step]]
  refine ⟨(((within.updated advances.updated).append _).append _).append _,
    s.afterAll [start, condition, .new .forInstruct line [step]], by simp, ?_⟩
  rw [after]
  rw [all] at grown
  rw [all', stepped'] at marked
  cases marked with
  | cons top below =>
      have around' := sees.stands.marked
        (Grown.frames (advances.marked.scopes))
      rw [stepped'] at around'
      refine grown.grow below ?_ ?_ (.cons throughout throughouts) (by rw [kind]; nofun) ?_
      · exact top.sketch.trans sketch
      · show stepped.scopes.current.node.withChildren _ = _
        rw [top.node, node]
      · rw [Sight.afterAll_cons, silent]
        exact around'.marked (.cons (.refl _) (Grown.frames (MiLanguage.marked_refl outer)))

theorem Completes.goes_loop {defined stepped : Environment} {start condition step : Node}
    {implied : Bool} (pass : setting.declaring = false) (completes : env.Completes t)
    (grown : Grown t asks env.scopes.all s) (block : env.frame.isBlock = true)
    (defines : (env.push (.block .loopHead {}) (.new .forFakeScope line)).Defines .inBlock
      defined start)
    (decides : defined.Decides condition) (advances : defined.Advances implied stepped step) :
    Goes t asks (([start, condition, .new .forInstruct line [step]].foldl
      (fun env node => env.append setting node) stepped).push
        (.block .forLoop {}) (.new .forStatement line)) := by
  have sees := completes.sees grown.stands
  have goes : Goes t asks (env.push (.block .loopHead {}) (.new .forFakeScope line)) :=
    sees.goes_block grown block rfl rfl (.inl rfl) nofun (by simp) nofun nofun nofun
  obtain ⟨here, opened⟩ := goes
  have head : (env.push (.block .loopHead {}) (.new .forFakeScope line)).Completes t :=
    completes.of_modules (completes.bounded.push nofun) rfl
  obtain ⟨after, here', body, grown'⟩ :=
    head.goes_head line pass opened (head.sees opened.stands).body rfl defines decides advances
  have sees' := after.sees grown'.stands
  have block' := sees'.body.symm.trans (body.trans (head.sees opened.stands).body)
  exact sees'.goes_block grown' block' rfl rfl (.inl rfl) nofun (by simp) nofun
    nofun nofun

end Environment

/-- What stands for a declaration of the first pass: the name of a class is in the file of the class,
and the node of a global or a field names what is there. -/
structure Environment.Recalls (env : Environment) (t : ModuleTree) (asks : Sight → Node → Prop)
    (s : Sight) (head : Token) (tail : List Token) (node : Option Node) : Prop where
  file : head.kind = .keyword .«class» → env.frame.isModule = true → ∀ name c, Titled tail name →
    (env.modules.get env.currentModule).members.classes.find? name.lexeme = some c →
    name.span.fileId = c.origin.fileId
  member : startsVariable head = true → ∀ placement place, env.placement place = .ok placement →
    placement ≠ .inBlock → ∀ n, node = some n → n.kind ≠ .condition ∧ Throughout (t.Sound asks) s n

open Environment in
theorem Accepts.goes {mods : LeadingModifiers} {head : Token} {tail : List Token}
    {accepted : Accepted} (pass : setting.declaring = false) (completes : env.Completes t)
    (grown : Grown t asks env.scopes.all s) (recalls : env.Recalls t asks s head tail accepted.node)
    (accepts : Accepts env setting mods head tail accepted) :
    Goes t asks (accepted.settled setting) := by
  have sees := completes.sees grown.stands
  have declaring : ¬setting.declaring = true := by simp [pass]
  have leaves : ∀ {after : Environment} {n : Node}, env.Marked after → n.Part t asks s →
      n.kind ≠ .condition → Goes t asks (after.append setting n) :=
    fun marked part condition => ⟨s, grown_part pass grown marked part condition⟩
  have names : ∀ {kind : NodeKind} {line : Nat} {tokens : List Token}, kind.introduces = false →
      kind.asked = false → kind.encloses = false →
      (Node.new kind line (tokens.map (Node.leaf .identifier))).Part t asks s := by
    intro kind line tokens silent plain flat
    apply Node.part_new silent plain flat
    intro c member
    obtain ⟨_, _, rfl⟩ := List.mem_map.mp member
    exact Node.part_name
  cases accepts with
  | moduleDeclared _ _ _ first | classDeclared _ _ _ first | enumDeclared _ _ _ first
  | membersDeclared _ _ _ first | functionDeclared _ _ _ first | nativeDeclared _ _ _ first
  | constructorDeclared _ _ _ first => exact absurd first declaring
  | moduleEntered _ _ isModule _ child => exact sees.goes_module grown isModule child
  | classEntered kind titled isModule _ found =>
      exact sees.goes_class grown isModule found (recalls.file kind isModule _ _ titled found)
  | enumEntered _ _ isModule => exact sees.goes_enum grown isModule
  | classMissing | enumMissing => exact ⟨s, grown⟩
  | membersKept => exact leaves env.marked_refl (names rfl rfl rfl) nofun
  | @functionOpened h _ _ _ _ header =>
      have introduced := Header.read_introduced header
      refine sees.goes_body [.leaf .identifier h.name, h.returnNode head.streamLine,
        mods.node head.streamLine] grown (.inl rfl) introduced.parameters introduced.distinct ?_
      simpa using ⟨Node.part_name, Header.returnNode_part sees rfl rfl introduced,
        LeadingModifiers.node_part⟩
  | @constructorOpened id c h _ _ _ _ _ _ _ list =>
      obtain ⟨⟨introduced, distinct⟩, _⟩ := Parameter.readList_introduced list
      refine sees.goes_body [mods.node head.streamLine] grown (.inr rfl) introduced
        distinct ?_
      simpa using LeadingModifiers.node_part
  | nativeKept _ _ host _ header =>
      have outside := isBlock_of_host host
      refine ⟨s, grown_append pass grown env.marked_refl (sees.native_throughout outside
        (Header.read_introduced header)) (.inr (sees.body.trans outside)) nofun⟩
  | conditional starts _ block decides =>
      rcases conditional_eq_some starts with ⟨_, rfl, rfl⟩ | ⟨_, rfl, rfl⟩ <;>
        exact sees.goes_block grown block rfl rfl (.inl rfl) nofun (by simp) nofun nofun
          (by simpa using sees.decides (sees.body.trans block) decides)
  | doLoop _ _ block =>
      exact sees.goes_block grown block rfl rfl (.inr rfl) nofun (by simp) nofun (fun _ => rfl) nofun
  | forLoop _ _ block defines decides advances =>
      exact completes.goes_loop pass grown block defines decides advances
  | returned _ _ block means =>
      refine leaves (marked_modifyBlock fun _ => rfl) (Node.part_new rfl rfl rfl ?_) nofun
      intro c member
      obtain ⟨e, value, rfl⟩ := Option.map_eq_some_iff.mp (Option.mem_toList.mp member)
      exact sees.node (Node.asked_of_body (sees.body.trans block) _) (means e value)
  | exited starts =>
      rcases exitKind_eq_some starts with ⟨_, rfl⟩ | ⟨_, rfl⟩ <;>
        exact leaves (marked_modifyBlock fun _ => rfl) (Node.part_leaf rfl rfl rfl) nofun
  | used => exact leaves (env.marked_use _) (Node.part_leaf rfl rfl rfl) nofun
  | libraryEnded =>
      exact leaves ⟨.refl, MiLanguage.marked_refl _⟩ (Node.part_leaf rfl rfl rfl) nofun
  | variableDefined _ _ _ inBlock defines =>
      rcases inBlock with first | rfl
      · exact absurd first declaring
      · exact sees.goes_variable pass grown defines
  | @variableKept placement place tokens starts _ placed _ outside =>
      have bare : env.frame.isBlock = false := by
        unfold Environment.placement at placed
        cases frame : env.frame with
        | block =>
            rw [frame] at placed
            cases placed
            exact absurd rfl outside
        | _ => rfl
      have member := recalls.member starts placement place placed outside
      unfold Accepted.settled
      dsimp only at member ⊢
      cases known : env.knownVariable placement mods head tokens with
      | none => exact ⟨s, grown⟩
      | some n =>
          obtain ⟨condition, throughout⟩ := member n known
          exact ⟨s, grown_append pass grown env.marked_refl throughout
            (.inr (sees.body.trans bare)) condition⟩
  | called _ _ block calls =>
      refine leaves env.marked_refl (sees.calls (sees.body.trans block) calls) ?_
      obtain ⟨e, _, call, rfl⟩ := calls
      rw [call]
      nofun
  | assigned _ _ block assigns =>
      refine leaves assigns.marked (sees.assigns (sees.body.trans block) assigns) ?_
      cases assigns
      nofun

end MiLanguage
