import MiLanguage.Proofs.Writes.Parts

set_option autoImplicit false

namespace MiLanguage

/-- A node that statements may go to. -/
structure Node.Container (n : Node) : Prop where
  other : n.kind ≠ .varSetValue
  silent : n.kind.introduces = false
  titled : n.kind = .createModule ∨ n.kind = .createClass → n.title?.isSome = true

theorem Node.Container.push {n : Node} (inner : n.Container) (c : Node) : (n.push c).Container where
  other := inner.other
  silent := inner.silent
  titled kind := by
    have titled := inner.titled kind
    exact (congrArg Option.isSome (Node.title_withChildren titled [c])).trans titled

theorem Scope.Grows.open {t : ModuleTree} {s here : Sight} {scope : Scope}
    (grows : scope.Grows t Unasked s here) : scope.node.Container where
  other kind := by
    have plain := grows.plain
    rw [kind] at plain
    cases plain
  silent := grows.silent
  titled := grows.titled

theorem Grown.opens {t : ModuleTree} {scopes : List Scope} {here : Sight} (grown : Grown t Unasked scopes here) :
    ∀ scope ∈ scopes, scope.node.Container := by
  induction grown with
  | base _ grows => simpa using grows.open
  | inner _ _ grows _ ih => simpa using ⟨grows.open, ih⟩

theorem Grown.travel_sight {t : ModuleTree} {scopes : List Scope} {here : Sight}
    (grown : Grown t Unasked scopes here) : (travel (scopes.map Scope.node)).sight = here := by
  induction grown with
  | base _ grows =>
      rw [← grows.sight]
      exact Journey.along_sight _ _
  | inner _ _ grows _ ih =>
      rw [← grows.sight, ← ih]
      exact Journey.along_sight _ _

section Travel

variable {n m : Node} {around : List Node}

theorem travel_push (inner : n.Container) (c : Node) :
    travel (n.push c :: around) = (travel (n :: around)).through c := by
  have grown : travel (n.withChildren [c] :: around) = _ :=
    travel_withChildren inner.other inner.titled [c]
  rw [Journey.along_cons, Journey.along_nil] at grown
  exact grown

theorem travel_close (inner : n.Container) (silent : m.definitions = []) :
    travel (n.push m :: around) = { travel (n :: around) with
      defined := (travel (m :: n :: around)).defined, stores := (travel (m :: n :: around)).stores } := by
  rw [travel_push inner, Journey.through_eq, Journey.leave_silent _ _ silent]
  rfl

theorem Node.Container.definitions (inner : n.Container) : n.definitions = [] :=
  Node.definitions_of_kind inner.silent

theorem Journey.through_push (j : Journey) (inner : n.Container) {c : Node} (still : c.Still) :
    j.through (n.push c) = j.through n := by
  have silent : (n.push c).definitions = [] := Node.definitions_of_kind inner.silent
  have entered : j.enter (n.push c) = j.enter n := j.enter_withChildren inner.other inner.titled [c]
  have grown : (n.push c).children = n.children ++ [c] := rfl
  rw [through_eq, through_eq, leave_silent _ _ silent, leave_silent _ _ inner.definitions, entered,
    grown, along_append, along_cons, along_nil, through_still _ still]

end Travel

/-- Besides, it is in the same class. -/
structure Scope.Idle (a b : Scope) : Prop where
  still : a.Still b
  class? : b.frame.class? = a.frame.class?

theorem Scope.idle_refl (scope : Scope) : scope.Idle scope := ⟨scope.still_refl, rfl⟩

theorem ModuleTree.globals_modifyMembers {f : Members → Members}
    (keeps : ∀ m, (f m).globals = m.globals) (t : ModuleTree) (id other : ModuleId) :
    ((t.modifyMembers id f).get other).members.globals = (t.get other).members.globals := by
  rw [members_modifyMembers]
  split
  next same => rw [keeps, same.1]
  next => rfl

namespace Environment

-- The nodes that are open, the innermost first.
def nodes (env : Environment) : List Node := env.scopes.all.map Scope.node

variable {env after : Environment} {setting : Setting} {writes : List Write} {nodes around : List Node}
  {n n' m : Node} {scope : Scope} {scopes : ScopeStack}

/-- The same variables are there, and it is noted of the same ones that they have values. -/
structure Idles (env after : Environment) : Prop where
  scopes : List.Forall₂ Scope.Idle env.scopes.all after.scopes.all
  globals : ∀ id, (after.modules.get id).members.globals = (env.modules.get id).members.globals

theorem idles_refl (env : Environment) : env.Idles env :=
  ⟨List.forall₂_same.mpr fun scope _ => scope.idle_refl, fun _ => rfl⟩

theorem Notes.idles (notes : env.Notes writes nodes) (idles : env.Idles after) :
    after.Notes writes nodes := by
  have classes : after.scopes.class? = env.scopes.class? :=
    class?_of_frames (idles.scopes.imp fun _ _ idle => idle.class?)
  refine ⟨notes.locals.still (idles.scopes.imp fun _ _ idle => idle.still), ?_, ?_⟩
  · rw [classes]
    exact notes.fields
  · intro id name v found
    rw [idles.globals] at found
    exact notes.globals id name v found

theorem idles_modifyCurrent {f : Scope → Scope} (idle : env.scopes.current.Idle (f env.scopes.current)) :
    env.Idles { env with scopes := env.scopes.modifyCurrent f } := by
  obtain ⟨outer, all, changed⟩ := env.scopes.all_eq_current
  refine ⟨?_, fun _ => rfl⟩
  rw [changed, all]
  exact .cons idle (List.forall₂_same.mpr fun scope _ => scope.idle_refl)

theorem idles_append (env : Environment) (setting : Setting) (n : Node) :
    env.Idles (env.append setting n) := by
  unfold append
  split
  next => exact env.idles_refl
  next => exact idles_modifyCurrent ⟨⟨rfl, rfl⟩, rfl⟩

theorem Idles.trans {last : Environment} (first : env.Idles after) (second : after.Idles last) :
    env.Idles last := by
  refine ⟨?_, fun id => (second.globals id).trans (first.globals id)⟩
  have old := first.scopes
  have new := second.scopes
  generalize env.scopes.all = a, after.scopes.all = b, last.scopes.all = c at old new
  induction old generalizing c with
  | nil =>
      cases new
      exact .nil
  | cons head _ ih =>
      cases new with
      | cons head' tail' =>
          exact .cons ⟨⟨head'.still.title.trans head.still.title, head'.still.here.trans head.still.here⟩,
            head'.class?.trans head.class?⟩ (ih _ tail')

theorem Idles.symm (idles : env.Idles after) : after.Idles env := by
  refine ⟨?_, fun id => (idles.globals id).symm⟩
  refine List.Forall₂.flip (idles.scopes.imp fun _ _ idle => ?_)
  exact ⟨⟨idle.still.title.symm, idle.still.here.symm⟩, idle.class?.symm⟩

theorem idles_appended (env : Environment) (nodes : List Node) (setting : Setting) :
    env.Idles (nodes.foldl (fun env node => env.append setting node) env) := by
  induction nodes generalizing env with
  | nil => exact env.idles_refl
  | cons n nodes ih => exact (env.idles_append setting n).trans (ih _)

theorem idles_modifyBlock {f : Block → Block} (keeps : ∀ b, (f b).locals = b.locals) :
    env.Idles (env.modifyBlock f) := by
  refine idles_modifyCurrent ?_
  cases frame : env.scopes.current.frame with
  | block kind b =>
      refine ⟨⟨by rw [frame]; rfl, ?_⟩, by rw [frame]; rfl⟩
      rw [frame]
      funext name
      show (f b).locals.find? name = _
      rw [keeps]
      rfl
  | _ => exact ⟨⟨by rw [frame]; rfl, by rw [frame]; rfl⟩, by rw [frame]; rfl⟩

theorem idles_use (env : Environment) (id : ModuleId) :
    env.Idles { env with scopes := (env.scopes.addUse? id).getD env.scopes } := by
  refine ⟨?_, fun _ => rfl⟩
  cases added : env.scopes.addUse? id with
  | none => exact env.idles_refl.scopes
  | some scopes =>
      obtain ⟨opened, found, rfl⟩ := Option.map_eq_some_iff.mp added
      refine List.rel_append (ScopeStack.modifyFirst_related Scope.idle_refl ?_ found)
        (.cons env.scopes.base.idle_refl .nil)
      intro a b same
      split at same
      next block frame =>
        cases same
        exact ⟨⟨by rw [frame]; rfl, by rw [frame]; rfl⟩, by rw [frame]; rfl⟩
      next => cases same

theorem idles_attachBody (env : Environment) (body : Node) (owner : BodyOwner) :
    env.Idles { env with modules := AnalysisState.attachBody env.modules body owner } := by
  refine ⟨env.idles_refl.scopes, fun id => ?_⟩
  unfold AnalysisState.attachBody
  dsimp only
  split <;>
    · refine ModuleTree.globals_modifyMembers ?_ _ _ _
      exact fun _ => rfl

theorem Notes.grow (notes : env.Notes writes (n :: around)) (kind : n'.kind = n.kind)
    (same : (travel (n' :: around)).locals = (travel (n :: around)).locals) :
    env.Notes writes (n' :: around) := by
  refine ⟨?_, notes.fields, notes.globals⟩
  have locals := notes.locals
  generalize env.scopes.all = scopes at locals
  cases locals with
  | cons top rest => exact .cons (top.grow kind same) rest

theorem Notes.inFunction (notes : env.Notes writes nodes) (block : env.frame.isBlock = true) :
    inFunction env.scopes.all = true := by
  obtain ⟨outer, all, _⟩ := env.scopes.all_eq_current
  have locals := notes.locals
  rw [all] at locals ⊢
  cases locals with
  | cons top => exact top.block block

theorem Notes.push {frame : Frame} (notes : env.Notes writes nodes)
    (function : frame.isFunction = n.kind.isFunction)
    (block : frame.isBlock = true → frame.isFunction = true ∨ env.frame.isBlock = true)
    (fresh : ∀ name, frame.here name = none)
    (same : (travel (n :: nodes)).locals = ((travel nodes).enter n).locals)
    (fields : ∀ id c, frame.class? = some (id, c) → ∀ name v, c.fields.find? name = some v →
      v.Noted writes (.field id c.name name) (v.value.isSome = true)) :
    (env.push frame n).Notes writes (n :: nodes) := by
  refine ⟨notes.locals.opens function ?_ env.scopes.all_ne_nil fresh same, ?_, notes.globals⟩
  · intro inner
    rw [inFunction_cons]
    rcases block inner with function | block
    · rw [function, Bool.true_or]
    · rw [notes.inFunction block, Bool.or_true]
  · intro id c around
    have whole : (env.push frame n).scopes.class? = frame.class?.or env.scopes.class? := by
      show (({ frame, node := n } : Scope) :: env.scopes.all).findSome? (·.frame.class?) = _
      rw [List.findSome?_cons]
      cases frame.class? <;> rfl
    rw [whole] at around
    cases classes : frame.class? with
    | none =>
        rw [classes] at around
        exact notes.fields id c around
    | some pair =>
        rw [classes] at around
        cases around
        exact fields id c classes

theorem Notes.pop (notes : env.Notes writes (m :: n :: around))
    (all : env.scopes.all = scope :: scopes.all) (inner : n.Container) (silent : m.definitions = [])
    (bare : scope.frame.isClass = true → scopes.class? = none) :
    ({ env with scopes } : Environment).Notes writes (n.push m :: around) := by
  have rest : Tallied writes scopes.all (n :: around) := by
    have locals := notes.locals
    rw [all] at locals
    cases locals with
    | cons _ rest => exact rest
  have outer : ({ env with scopes } : Environment).Notes writes (n :: around) := by
    refine ⟨rest, fun id c found => ?_, notes.globals⟩
    cases inside : scope.frame.class? with
    | some =>
        rw [show scopes.class? = _ from bare (by rw [Frame.isClass, inside]; rfl)] at found
        cases found
    | none =>
        refine notes.fields id c ?_
        show env.scopes.all.findSome? (·.frame.class?) = _
        rw [all, List.findSome?_cons, inside]
        exact found
  refine outer.grow rfl ?_
  rw [travel_close inner silent]

-- The writes so far go to variables that the nodes have defined so far.
def Defined (writes : List Write) (count : Nat) : Prop :=
  ∀ w ∈ writes, ∀ d, w.target = .inBlock d → d.ordinal < count

theorem Defined.not_given {d : Definition} {count : Nat} (defined : Defined writes count)
    (late : count ≤ d.ordinal) : ¬Given writes (.inBlock d) := by
  rintro ⟨w, member, same⟩
  have := defined w member d same
  omega

theorem Notes.declares {c : Node} {v : Variable} {declared : Environment}
    (notes : env.Notes writes (n :: around))
    (defined : Defined writes (travel (n :: around)).defined) (inner : n.Container)
    (body : (travel (n :: around)).sight.body = true) (shown : v.ShownBy c)
    (added : env.declareVariable? .inBlock v = some declared) :
    declared.Notes writes (n.push c :: around) ∧
      (travel (n.push c :: around)).stores = (travel (n :: around)).stores := by
  obtain ⟨scopes, declares, rfl⟩ := Option.map_eq_some_iff.mp added
  obtain ⟨_, kind, b, height, outer, frame, all, all', current⟩ :=
    ScopeStack.declareLocal?_eq_some declares
  have kinds : c.kind = .varDefinition ∨ c.kind = .varDefAndSetValue :=
    shown.kind.imp And.left And.left
  have flat : c.kind.encloses = false ∧ c.kind ≠ .varSetValue ∧ c.definitions = [c] := by
    unfold Node.definitions
    rcases kinds with kind | kind <;> rw [kind] <;> exact ⟨rfl, nofun, rfl⟩
  let d : Definition := ⟨(travel (n :: around)).defined, c⟩
  have went : (travel (n.push c :: around)).locals = (travel (n :: around)).locals ++ [d] ∧
      (travel (n.push c :: around)).stores = (travel (n :: around)).stores := by
    rw [travel_push inner, Journey.through_defining _ flat.1 flat.2.1 shown.parts, Journey.leave,
      if_pos body, flat.2.2]
    exact ⟨rfl, rfl⟩
  refine ⟨⟨?_, ?_, notes.globals⟩, went.2⟩
  · have locals := notes.locals
    rw [all] at locals
    rw [all']
    cases locals with
    | cons top rest =>
        refine .cons (top.declares (d := d) (l := ⟨v, height⟩) ?_ ?_ shown.title ?_
          rfl went.1 (onward_travel n around).defined) rest
        · rw [current, frame]
          rfl
        · intro other
          rw [current, frame]
          exact SymbolTable.find?_insert ..
        · refine ⟨shown.words, ?_⟩
          have fresh : ¬Given writes (.inBlock d) := defined.not_given (Nat.le_refl _)
          rcases shown.kind with ⟨kind, initialized⟩ | ⟨kind, initialized⟩ <;>
            simp [Variable.Noted, d, fresh, kind, initialized]
  · have classes : scopes.class? = env.scopes.class? := by
      unfold ScopeStack.class?
      rw [all, all', current, List.findSome?_cons, List.findSome?_cons, frame]
      rfl
    rw [classes]
    exact notes.fields

theorem latest?_none_of_titles {own : List Definition} {name : String}
    (other : ∀ d ∈ own, d.node.title ≠ some name) : latest? own name = none :=
  List.find?_eq_none.mpr fun d member => by simpa using other d (List.mem_reverse.mp member)

theorem declares_parameters (env : Environment) (own : List Definition) (count : Nat)
    (parameters : List ReadParameter) (place : Token) {outer : List Scope}
    (all : env.scopes.all = env.scopes.current :: outer)
    (function : env.scopes.current.frame.isFunction = true)
    (counted : ∀ name, Option.Rel (Counted writes) (env.scopes.current.frame.here name) (latest? own name))
    (spelled : ∀ p ∈ parameters, p.Spelled)
    (distinct : (parameters.map (·.parameter.name)).Nodup)
    (fresh : ∀ p ∈ parameters, ∀ d ∈ own, d.node.title ≠ some p.parameter.name) :
    let opened := (parameters.map ReadParameter.parameter).foldl (declareParameter place) env
    opened.modules = env.modules ∧ opened.scopes.all = opened.scopes.current :: outer ∧
      opened.scopes.current.node = env.scopes.current.node ∧
      opened.scopes.current.frame.title = env.scopes.current.frame.title ∧
      ∀ name, Option.Rel (Counted writes) (opened.scopes.current.frame.here name)
        (latest? (own ++ numbered count (parameters.map ReadParameter.node)) name) := by
  induction parameters generalizing env own count with
  | nil =>
      refine ⟨rfl, all, rfl, rfl, ?_⟩
      show ∀ name, Option.Rel _ _ (latest? (own ++ []) name)
      rw [List.append_nil]
      exact counted
  | cons p parameters ih =>
      rw [List.map_cons, List.nodup_cons] at distinct
      obtain ⟨kind, title, words, parts⟩ := spelled p (by simp)
      have unknown : lookupIn env.scopes.all p.parameter.name = none := by
        rw [all, lookupIn_function function]
        have here := counted p.parameter.name
        rw [latest?_none_of_titles (fresh p (by simp))] at here
        generalize env.scopes.current.frame.here p.parameter.name = held at here
        cases here
        rfl
      obtain ⟨scopes, declares⟩ := ScopeStack.declareLocal?_of_unknown
        (v := env.parameterVariable place p.parameter) unknown function
      obtain ⟨_, blockKind, b, height, below, frame, all', all'', current⟩ :=
        ScopeStack.declareLocal?_eq_some declares
      rw [all] at all'
      cases (List.cons.inj all').2
      have same : declareParameter place env p.parameter = { env with scopes } := by
        rw [declareParameter, declares]
        rfl
      have titles : scopes.current.frame.title = env.scopes.current.frame.title := by
        rw [current, frame]
        rfl
      have declared (other : String) : scopes.current.frame.here other =
          if other = p.parameter.name then some ⟨env.parameterVariable place p.parameter, height⟩
          else env.scopes.current.frame.here other := by
        rw [current, frame]
        exact SymbolTable.find?_insert ..
      have counts : Counted writes ⟨env.parameterVariable place p.parameter, height⟩ ⟨count, p.node⟩ :=
        ⟨words, by simp [Variable.Noted, parameterVariable, kind]⟩
      have fresh' : ∀ q ∈ parameters, ∀ d ∈ own ++ [⟨count, p.node⟩],
          d.node.title ≠ some q.parameter.name := by
        intro q member d inside
        rcases List.mem_append.mp inside with inside | inside
        · exact fresh q (by simp [member]) d inside
        · rw [List.mem_singleton.mp inside, title]
          intro same
          exact distinct.1 (List.mem_map.mpr ⟨q, member, (Option.some.inj same).symm⟩)
      obtain ⟨modules, opened, node, title', counted'⟩ :=
        ih { env with scopes } (own ++ [⟨count, p.node⟩]) (count + 1) all''
          ((Frame.congr_title titles).1.trans function)
          (rel_declared counted title counts declared) (fun q member => spelled q (by simp [member]))
          distinct.2 fresh'
      simp only [List.map_cons, List.foldl_cons, same]
      refine ⟨modules, opened, node.trans (by rw [current]), title'.trans titles, ?_⟩
      rw [List.append_assoc] at counted'
      exact counted'

theorem Notes.body {h : Header} {front : List Node} {kind : NodeKind} (line parametersLine : Nat)
    (type : Datatype) (owner : BodyOwner) (place : Token) (notes : env.Notes writes nodes)
    (function : kind = .functionDefinition ∨ kind = .createConstructor)
    (spelled : ∀ p ∈ h.parameters, p.Spelled)
    (distinct : (h.parameters.map (·.parameter.name)).Nodup) (parts : ∀ c ∈ front, c.Still) :
    let n : Node := .new kind line (front ++ [h.parametersNode parametersLine])
    let opened := env.openBody type owner h.params place n
    opened.Notes writes (n :: nodes) ∧ opened.nodes = n :: env.nodes ∧
      (travel (n :: nodes)).stores = (travel nodes).stores := by
  intro n opened
  have went : (travel (n :: nodes)).locals = ((travel nodes).enter n).locals ++
      numbered (travel nodes).defined (h.parameters.map ReadParameter.node) ∧
      (travel (n :: nodes)).stores = (travel nodes).stores := by
    have inside : ((travel nodes).enter n).sight.body = true := by
      rcases function with rfl | rfl <;> rfl
    have entered : ((travel nodes).enter n).stores = (travel nodes).stores := by
      rcases function with rfl | rfl <;> rfl
    have other : (h.parametersNode parametersLine).kind ≠ .varSetValue :=
      show NodeKind.parameters ≠ .varSetValue by decide
    show (((travel nodes).enter n).along (front ++ [h.parametersNode parametersLine])).locals = _ ∧
      (((travel nodes).enter n).along (front ++ [h.parametersNode parametersLine])).stores = _
    rw [Journey.along_append, Journey.along_still _ parts, Journey.along_cons, Journey.along_nil,
      Journey.through_defining _ rfl other (Header.parametersNode_parts spelled), Journey.leave,
      if_pos inside, Header.definitions_parametersNode spelled]
    exact ⟨rfl, entered⟩
  obtain ⟨modules, all, node, title, counted⟩ :=
    declares_parameters (env.push (.block .function
        { Block.function type with bodyOf := some owner }) n) [] (travel nodes).defined h.parameters place
      rfl rfl
      (fun name => .none) spelled distinct (by simp)
  have opened_eq : (h.parameters.map ReadParameter.parameter).foldl (declareParameter place)
      (env.push (.block .function { Block.function type with bodyOf := some owner }) n) = opened := rfl
  rw [opened_eq] at modules all node title counted
  have isFunction := (Frame.congr_title title).1
  refine ⟨⟨?_, ?_, ?_⟩, ?_, went.2⟩
  · rw [all]
    refine .cons ⟨?_, ?_, ?_, _, went.1, ?_, counted⟩ notes.locals
    · rw [isFunction]
      rcases function with rfl | rfl <;> rfl
    · intro _
      rw [inFunction_cons, isFunction]
      rfl
    · exact fun last => absurd last env.scopes.all_ne_nil
    · exact fun d member => (mem_numbered member).1
  · have classes : opened.scopes.class? = env.scopes.class? := by
      unfold ScopeStack.class?
      rw [all, List.findSome?_cons]
      cases frame : opened.scopes.current.frame with
      | block => rfl
      | _ => rw [frame] at title; cases title
    rw [classes]
    exact notes.fields
  · rw [modules]
    exact notes.globals
  · show opened.scopes.all.map Scope.node = _
    rw [all, List.map_cons, node]
    rfl

end Environment

end MiLanguage
