import MiLanguage.Proofs.Naming.Declarations
import MiLanguage.Proofs.Statement.Accepts

set_option autoImplicit false

namespace MiLanguage

section Dots

theorem joinSegments_concat_ne {names : List String} {name : String} (nonempty : name ≠ "") :
    joinSegments (names ++ [name]) ≠ "" := by
  intro empty
  have characters := congrArg String.toList empty
  rw [joinSegments, String.toList_intercalate] at characters
  cases names with
  | nil => simp [List.intercalate, nonempty] at characters
  | cons first names =>
      cases names <;> simp [List.intercalate] at characters

theorem isDotted_qualified (path name : String) : isDotted (s!"{path}.{name}") = true := by
  have dot : '.' ∈ ".".toList := by decide
  simp only [isDotted, String.toList_append, List.contains_iff_mem, List.mem_append]
  exact .inl (.inr dot)

theorem dotPieces_of_not_mem {cs : List Char} (plain : '.' ∉ cs) : dotPieces cs = [cs] := by
  induction cs with
  | nil => rfl
  | cons c cs ih =>
      simp only [List.mem_cons, not_or] at plain
      simp [dotPieces, Ne.symm plain.1, ih plain.2]

theorem shortName_of_plain {name : String} (plain : isDotted name = false) :
    shortName name = name := by
  have pieces : dotPieces name.toList = [name.toList] := by
    apply dotPieces_of_not_mem
    simpa [isDotted] using plain
  simp [shortName, segments, pieces]

theorem splitQualified_eq_some {name path last : String}
    (split : splitQualified name = some (path, last)) :
    last = shortName name ∧ isDotted name = true := by
  unfold splitQualified at split
  split at split
  next dotted =>
    cases split
    refine ⟨?_, dotted⟩
    obtain ⟨first, later, same⟩ := List.exists_cons_of_ne_nil (segments_ne_nil name)
    rw [shortName, same, List.getLastD_cons, List.getLastD_cons]
  next => cases split

theorem splitQualified_eq_none {name : String} (split : splitQualified name = none) :
    isDotted name = false := by
  unfold splitQualified at split
  split at split
  next => cases split
  next plain => simpa using plain

end Dots

namespace ModuleTree

variable {t : ModuleTree} {id : ModuleId}

theorem Named.path_ne (named : t.Named) (arena : t.Arena) (inside : id.index < t.size)
    (inner : id ≠ root) : t.path id ≠ "" := by
  obtain ⟨parent, _, _, child⟩ := arena.parents id inside inner
  unfold path
  rw [pathSegments_child arena child]
  exact joinSegments_concat_ne (named id inside inner)

theorem qualify_cases (t : ModuleTree) (id : ModuleId) (name : String) :
    t.qualify id name = name ∧ t.path id = "" ∨ isDotted (t.qualify id name) = true := by
  unfold qualify
  by_cases empty : t.path id = ""
  · exact .inl ⟨if_pos empty, empty⟩
  · dsimp only
    rw [if_neg empty]
    exact .inr (isDotted_qualified _ _)

-- A path leads to a module inside of another one.
theorem resolvePath_ne_root {start : ModuleId} {path : String} (arena : t.Arena)
    (found : t.resolvePath start path = some id) : id ≠ root := by
  obtain ⟨m, _, descends⟩ := List.exists_of_findSome?_eq_some found
  unfold descend at descends
  obtain ⟨names, last, same⟩ : ∃ names last, segments path = names ++ [last] :=
    ⟨_, _, (List.dropLast_concat_getLast (segments_ne_nil path)).symm⟩
  rw [same, List.foldlM_append] at descends
  obtain ⟨parent, _, child⟩ := Option.bind_eq_some_iff.mp descends
  have child : t.child? parent last = some id := by simpa using child
  obtain ⟨_, above, _⟩ := arena.children _ _ _ child
  rintro rfl
  rw [arena.rootless] at above
  cases above

-- The modules around another one are those that its path leads through.
theorem pathSegments_ancestor (arena : t.Arena) {inner outer : ModuleId}
    (inside : inner.index < t.size) (around : outer ∈ t.ancestors inner) :
    t.pathSegments outer <+: t.pathSegments inner := by
  obtain ⟨index, same⟩ : ∃ index, inner.index = index := ⟨_, rfl⟩
  induction index using Nat.strongRecOn generalizing inner with
  | ind index ih =>
      by_cases top : inner = root
      · subst top
        rw [ancestors_root, List.mem_singleton] at around
        exact around ▸ List.prefix_refl _
      · obtain ⟨parent, _, earlier, child⟩ := arena.parents inner inside top
        rw [ancestors_child arena child] at around
        rcases List.mem_cons.mp around with rfl | around
        · exact List.prefix_refl _
        · rw [pathSegments_child arena child]
          have above := ih parent.index (by omega) (by omega) around rfl
          exact above.trans (List.prefix_append _ _)

theorem ancestors_inside (arena : t.Arena) {inner outer : ModuleId} (inside : inner.index < t.size)
    (around : outer ∈ t.ancestors inner) : outer.index < t.size := by
  obtain ⟨index, same⟩ : ∃ index, inner.index = index := ⟨_, rfl⟩
  induction index using Nat.strongRecOn generalizing inner with
  | ind index ih =>
      by_cases top : inner = root
      · subst top
        rw [ancestors_root, List.mem_singleton] at around
        rw [around]
        exact inside
      · obtain ⟨parent, _, earlier, child⟩ := arena.parents inner inside top
        rw [ancestors_child arena child] at around
        rcases List.mem_cons.mp around with rfl | around
        · exact inside
        · exact ih parent.index (by omega) (by omega) around rfl

end ModuleTree

namespace Overload

variable {candidates shown : List FunctionDefinition} {args : List Datatype} {f : FunctionDefinition}

theorem single_eq_ok {fs : List FunctionDefinition} (only : single fs = .ok f) : fs = [f] := by
  unfold single at only
  split at only
  · cases only
  · cases only
    rfl
  · cases only

theorem matching_of_sublist {accepts : Datatype → Datatype → Bool} (sub : shown.Sublist candidates)
    (member : f ∈ shown) (only : matching accepts candidates args = [f]) :
    matching accepts shown args = [f] := by
  have inside : f ∈ matching accepts shown args := by
    refine mem_matching.mpr ⟨member, ?_⟩
    exact (mem_matching.mp (by rw [only]; exact List.mem_singleton_self f)).2
  have fewer : (matching accepts shown args).Sublist [f] := by
    rw [← only]
    exact sub.filter _
  rcases List.sublist_singleton.mp fewer with empty | same
  · rw [empty] at inside
    cases inside
  · exact same

-- The choice stays the same among fewer candidates.
theorem select_of_sublist (sub : shown.Sublist candidates) (member : f ∈ shown)
    (selected : select candidates args = .ok f) : select shown args = .ok f := by
  have tier := single_eq_ok selected
  have same : decidingTier shown args = [f] := by
    unfold decidingTier at tier ⊢
    cases exact : matching Datatype.exact candidates args with
    | nil =>
        rw [exact] at tier
        have unmatched : matching Datatype.exact shown args = [] := by
          have fewer : (matching Datatype.exact shown args).Sublist [] := by
            rw [← exact]
            exact sub.filter _
          exact List.sublist_nil.mp fewer
        rw [unmatched]
        exact matching_of_sublist sub member tier
    | cons first others =>
        rw [exact] at tier
        have only : matching Datatype.exact candidates args = [f] := exact.trans tier
        rw [matching_of_sublist sub member only]
  rw [select, same]
  rfl

theorem matching_bare (accepts : Datatype → Datatype → Bool) (args : List Datatype) :
    matching accepts (candidates.map FunctionDefinition.bare) args =
      (matching accepts candidates args).map FunctionDefinition.bare := by
  unfold matching
  rw [List.filter_map]
  rfl

theorem decidingTier_bare (candidates : List FunctionDefinition) (args : List Datatype) :
    decidingTier (candidates.map FunctionDefinition.bare) args =
      (decidingTier candidates args).map FunctionDefinition.bare := by
  unfold decidingTier
  rw [matching_bare, matching_bare]
  cases matching Datatype.exact candidates args <;> rfl

-- No body matters to a choice.
theorem select_bare (selected : select candidates args = .ok f) :
    select (candidates.map FunctionDefinition.bare) args = .ok f.bare := by
  rw [select, decidingTier_bare, single_eq_ok selected]
  rfl

end Overload

-- The variable that a name stands for in the function around.
def lookupIn (scopes : List Scope) (name : String) : Option LocalVariable :=
  (ScopeStack.upTo (·.frame.isFunction) scopes).findSome? fun scope =>
    scope.frame.block?.bind (·.locals.find? name)

/-- The scopes hold what is in sight. Where the declarations are `whole` there are no further ones
in `t`. -/
structure Stands (t : ModuleTree) (whole : Bool) (scopes : List Scope) (s : Sight) : Prop where
  place : t.pathSegments ((scopes.findSome? (·.frame.moduleId?)).getD ModuleTree.root) = s.path
  owner : s.owner = (scopes.findSome? (·.frame.class?)).map fun found => found.2.label
  «class» : ∀ id c, scopes.findSome? (·.frame.class?) = some (id, c) →
    t.pathSegments id = s.path ∧ c.Known t id ∧
      ∃ d, t.class? id c.name = some d ∧ c.Offers d ∧ (whole = true → d.Offers c)
  body : s.body = scopes.any (·.frame.isFunction)
  complete : s.body = true → whole = true
  level : ∀ scope ∈ scopes.head?, s.body = scope.frame.isBlock
  bare : ∀ scope ∈ scopes.head?, scope.frame.isModule = true → s.owner = none
  locals : ∀ name, s.locals.filter (·.1 = name) =
    ((lookupIn scopes name).map fun l => (name, l.declaration.type)).toList
  plain : ∀ l ∈ s.locals, isDotted l.1 = false
  types : ∀ l ∈ s.locals, t.Knows l.2

namespace Environment

/-- What names mean to the analysis is what `t` declares and what is in sight. -/
structure Sees (env : Environment) (t : ModuleTree) (whole : Bool) (s : Sight) : Prop where
  arena : env.modules.Arena
  offers : env.modules.Offers t
  offered : whole = true → t.Offers env.modules
  known : t.Known env.modules
  here : env.currentModule.index < env.modules.size
  inside : ∀ id c, env.scopes.class? = some (id, c) → id.index < env.modules.size
  stands : Stands t whole env.scopes.all s

variable {env : Environment} {t : ModuleTree} {whole : Bool} {s : Sight} {place token : Token}
  {id : ModuleId}

theorem lookup_eq_ok {α : Type} {table : Members → SymbolTable α} {name : String} {found : α}
    (read : env.lookup table name = .ok (id, found)) :
    (table (env.modules.get id).members).find? (shortName name) = some found ∧
      (isDotted name = true → ∃ path, env.resolveModule path = some id) := by
  have here : ∀ {m : ModuleId} {last : String},
      ((table (env.modules.get m).members).find? last).map (fun found => (m, found)) =
        some (id, found) →
      m = id ∧ (table (env.modules.get id).members).find? last = some found := by
    intro m last found
    obtain ⟨_, inside, same⟩ := Option.map_eq_some_iff.mp found
    cases same
    exact ⟨rfl, inside⟩
  unfold lookup at read
  dsimp only at read
  split at read
  next path last split =>
    obtain ⟨rfl, dotted⟩ := splitQualified_eq_some split
    split at read
    next => cases read
    next m module =>
      generalize hit : Option.map _ _ = got at read
      cases got with
      | none => cases read
      | some got =>
          cases read
          obtain ⟨rfl, inside⟩ := here hit
          exact ⟨inside, fun _ => ⟨path, module⟩⟩
  next split =>
    have plain := splitQualified_eq_none split
    rw [shortName_of_plain plain]
    refine ⟨?_, fun dotted => by rw [plain] at dotted; cases dotted⟩
    split at read
    next =>
      generalize hit : List.findSome? _ _ = got at read
      cases got with
      | none => cases read
      | some got =>
          cases read
          obtain ⟨m, _, hit⟩ := List.exists_of_findSome?_eq_some hit
          obtain ⟨rfl, inside⟩ := here hit
          exact inside
    next only hits =>
      cases read
      have member : (id, found) ∈ [(id, found)] := List.mem_singleton_self _
      rw [← hits, List.mem_filterMap] at member
      obtain ⟨m, _, hit⟩ := member
      obtain ⟨rfl, inside⟩ := here hit
      exact inside
    next => cases read

theorem lookupOrBlame_eq_ok {α : Type} {table : Members → SymbolTable α} {what : String}
    {found : α} (read : env.lookupOrBlame table what place = .ok (id, found)) :
    env.lookup table place.lexeme = .ok (id, found) := by
  unfold lookupOrBlame at read
  split at read
  next same =>
    cases read
    exact same
  next => simp at read

theorem checkAccess_eq_ok {what : String} {modifiers : Modifiers} {origin : Origin} {done : Unit}
    (checked : env.checkAccess what modifiers origin place = .ok done) :
    env.accessible modifiers origin place = true := by
  simpa [checkAccess, require_eq_ok_iff] using checked

theorem Sees.admits (sees : env.Sees t whole s) {modifiers : Modifiers} {origin : Origin}
    (accessible : env.accessible modifiers origin place = true)
    (same : token.span = place.span) : t.Admits s modifiers origin token := by
  unfold Environment.accessible at accessible
  constructor
  · intro priv
    rw [priv] at accessible
    have around : origin.module ∈ env.modules.ancestors env.currentModule := by
      simpa [ModuleTree.isWithin] using accessible
    have leads := ModuleTree.pathSegments_ancestor sees.arena sees.here around
    rw [← sees.offers.paths _ (ModuleTree.ancestors_inside sees.arena sees.here around),
      ← sees.offers.paths _ sees.here] at leads
    have place := sees.stands.place
    rw [← place]
    exact leads
  · intro own
    rw [own] at accessible
    rw [same]
    simpa using accessible

theorem Sees.hidden (sees : env.Sees t whole s) {name : String}
    (unknown : env.scopes.lookupLocal? name = none) : ∀ l ∈ s.locals, l.1 ≠ name := by
  have empty := sees.stands.locals name
  have same : lookupIn env.scopes.all name = none := unknown
  rw [same] at empty
  intro l member here
  have inside : l ∈ s.locals.filter (·.1 = name) := by simp [member, here]
  rw [empty] at inside
  cases inside

theorem Sees.dotted (sees : env.Sees t whole s) {name : String} (dotted : isDotted name = true) :
    ∀ l ∈ s.locals, l.1 ≠ name := by
  rintro l member rfl
  rw [sees.stands.plain l member] at dotted
  cases dotted

theorem Sees.owner (sees : env.Sees t whole s) {c : ClassDeclaration}
    (found : env.scopes.class? = some (id, c)) : s.owner = some c.label := by
  have owner := sees.stands.owner
  have same : env.scopes.all.findSome? (·.frame.class?) = some (id, c) := found
  rw [same] at owner
  exact owner

-- The token that a name is replaced by where it is resolved.
def Stated (place : Token) (qualified : String) (token : Token) : Prop :=
  token.lexeme = qualified ∧ token.span = place.span

theorem stated_synthetic (place : Token) (qualified : String) :
    Stated place qualified (.synthetic .identifier qualified place) :=
  ⟨rfl, rfl⟩

theorem Sees.hidden_global (sees : env.Sees t whole s) {v : Variable}
    (hidden : isDotted place.lexeme = false → env.scopes.lookupLocal? place.lexeme = none)
    (found : env.lookup Members.globals place.lexeme = .ok (id, v)) (named : t.Named) :
    ∀ l ∈ s.locals, l.1 ≠ env.modules.qualify id (shortName place.lexeme) := by
  obtain ⟨here, path⟩ := lookup_eq_ok found
  have inside := ModuleTree.inside_of_global here
  rcases env.modules.qualify_cases id (shortName place.lexeme) with ⟨plain, empty⟩ | dotted
  · rw [plain]
    cases dotted : isDotted place.lexeme with
    | false =>
        rw [shortName_of_plain dotted]
        exact sees.hidden (hidden dotted)
    | true =>
        obtain ⟨path, module⟩ := path dotted
        have inner := ModuleTree.resolvePath_ne_root sees.arena module
        exact absurd empty ((sees.offers.named named).path_ne sees.arena inside inner)
  · exact sees.dotted dotted

theorem Sees.global (sees : env.Sees t whole s) {v : Variable}
    (hidden : isDotted place.lexeme = false → env.scopes.lookupLocal? place.lexeme = none)
    (found : env.lookup Members.globals place.lexeme = .ok (id, v))
    (accessible : env.accessible v.modifiers v.origin place = true)
    (stated : Stated place (env.modules.qualify id (shortName place.lexeme)) token) :
    t.Denotes s token v.type ∧ t.Knows v.type := by
  obtain ⟨here, _⟩ := lookup_eq_ok found
  have inside := ModuleTree.inside_of_global here
  obtain ⟨_, there⟩ := (sees.offers.members id).globals _ _ here
  obtain ⟨known, home⟩ := (sees.known id).globals _ _ here
  obtain ⟨lexeme, span⟩ := stated
  have qualified := sees.offers.qualify inside (shortName place.lexeme)
  refine ⟨.global ?_ there rfl (lexeme.trans qualified.symm) home (sees.admits accessible span),
    known.type⟩
  rw [lexeme]
  exact sees.hidden_global hidden found

theorem Sees.variable (sees : env.Sees t whole s) {v : ResolvedVariable}
    (read : env.resolveVariable place = .ok v) (stated : Stated place v.qualified token) :
    t.Denotes s token v.type ∧ t.Knows v.type := by
  unfold resolveVariable at read
  dsimp only at read
  split at read
  next found near =>
    cases read
    split at near
    next => cases near
    next plain =>
      simp only [Option.orElse_eq_orElse, Option.orElse_eq_or, Option.or_eq_some_iff] at near
      rcases near with near | ⟨_, near⟩
      · obtain ⟨l, there, rfl⟩ := Option.map_eq_some_iff.mp near
        have only := sees.stands.locals place.lexeme
        have same : lookupIn env.scopes.all place.lexeme = some l := there
        rw [same] at only
        have member : (place.lexeme, l.declaration.type) ∈ s.locals :=
          (List.mem_filter.mp (by rw [only]; simp)).1
        have lexeme : token.lexeme = place.lexeme := stated.1
        refine ⟨.inBlock ?_, sees.stands.types _ member⟩
        rw [lexeme]
        exact only
      · unfold fieldVariable? at near
        simp only [Option.bind_eq_bind, Option.bind_eq_some_iff, Option.some.injEq] at near
        obtain ⟨⟨id, c⟩, around, field, found, rfl⟩ := near
        obtain ⟨path, known, d, there, offers, _⟩ := sees.stands.class id c around
        obtain ⟨_, found'⟩ := offers.fields _ _ found
        have lexeme := stated.1
        have owner := (sees.owner around).trans (congrArg some offers.label.symm)
        refine ⟨@ModuleTree.Denotes.field _ _ _ _ id _ _ _ ?_ owner path ?_ found' rfl ?_, (known.fields _ _ found).type⟩
        · rw [lexeme]
          exact sees.dotted (isDotted_qualified _ _)
        · rw [offers.name]
          exact there
        · rw [lexeme, offers.name, sees.offers.qualify (sees.inside id c around)]
  next near =>
    simp only [Checked.bind_eq_ok] at read
    obtain ⟨⟨id, w⟩, found, _, checked, same⟩ := read
    cases same
    refine sees.global ?_ (lookupOrBlame_eq_ok found) (checkAccess_eq_ok checked) stated
    intro plain
    rw [if_neg (by simp [plain])] at near
    have both : env.scopes.lookupLocal? place.lexeme = none ∧
        env.fieldVariable? place.lexeme = none := by simpa [localVariable?] using near
    exact both.1

theorem Sees.enum (sees : env.Sees t whole s) {qualified : String} {members : List String}
    (read : env.resolveEnum place = .ok (qualified, members)) (same : token.span = place.span) :
    ∃ id name e, t.enum? id name = some e ∧ qualified = t.qualify id name ∧
      members ⊆ e.members ∧ e.origin.module = id ∧ t.Admits s e.modifiers e.origin token := by
  simp only [resolveEnum, Checked.bind_eq_ok] at read
  obtain ⟨⟨id, e⟩, found, _, checked, same'⟩ := read
  cases same'
  have here := (lookup_eq_ok (lookupOrBlame_eq_ok found)).1
  obtain ⟨f, there, grown⟩ := (sees.offers.members id).enums _ _ here
  have admits := sees.admits (checkAccess_eq_ok checked) same
  refine ⟨id, _, f, there, (sees.offers.qualify (ModuleTree.inside_of_enum here) _).symm,
    grown.members, ?_, ?_⟩
  · rw [grown.origin]
    exact (sees.known id).enums _ _ here
  · rw [grown.modifiers, grown.origin]
    exact admits

theorem Sees.class (sees : env.Sees t whole s) {qualified : String}
    (read : env.resolveClass place = .ok qualified) (same : token.span = place.span) :
    ∃ id name c, t.class? id name = some c ∧ qualified = t.qualify id name ∧
      c.origin.module = id ∧ (t.Admits s c.modifiers c.origin token ∨
        s.owner = some c.label ∧ t.pathSegments id = s.path) := by
  unfold resolveClass at read
  split at read
  next name own =>
    cases read
    simp only [ownClass?, Option.bind_eq_bind, Option.bind_eq_some_iff] at own
    obtain ⟨⟨id, c⟩, around, own⟩ := own
    split at own
    next =>
      cases own
      obtain ⟨path, known, d, there, grown, _⟩ := sees.stands.class id c around
      refine ⟨id, c.name, d, there, (sees.offers.qualify (sees.inside id c around) _).symm, ?_,
        .inr ⟨(sees.owner around).trans (congrArg some grown.label.symm), path⟩⟩
      rw [grown.origin]
      exact known.origin
    next => cases own
  next =>
    simp only [Checked.bind_eq_ok] at read
    obtain ⟨⟨id, c⟩, found, _, checked, same'⟩ := read
    cases same'
    have here := (lookup_eq_ok (lookupOrBlame_eq_ok found)).1
    obtain ⟨d, there, grown⟩ := (sees.offers.members id).classes _ _ here
    have admits := sees.admits (checkAccess_eq_ok checked) same
    refine ⟨id, _, d, there, (sees.offers.qualify (ModuleTree.inside_of_class here) _).symm, ?_, ?_⟩
    · rw [grown.origin]
      exact ((sees.known id).classes _ _ here).2.origin
    · rw [grown.modifiers, grown.origin]
      exact .inl admits

theorem Sees.datatype (sees : env.Sees t whole s) {nullable : Bool} {type : Datatype}
    (read : env.resolveDatatype place nullable = .ok type) :
    t.Knows type ∧ (place.kind = .identifier →
      ∃ name nullable, type = .of (.named name) nullable ∧ t.NamesType s place name) := by
  unfold resolveDatatype at read
  split at read
  next kind =>
    cases read
    refine ⟨t.knows_primitive _ _, ?_⟩
    rw [kind]
    nofun
  next =>
    split at read
    next =>
      simp only [Checked.bind_eq_ok] at read
      obtain ⟨⟨name, members⟩, found, same⟩ := read
      cases same
      obtain ⟨id, name, e, there, rfl, _, home, admits⟩ := sees.enum found rfl
      exact ⟨ModuleTree.knows_withNullable (ModuleTree.knows_named (.enum there)) _,
        fun _ => ⟨_, _, rfl, .enum there home admits⟩⟩
    next =>
      split at read
      next =>
        simp only [Checked.bind_eq_ok] at read
        obtain ⟨name, found, same⟩ := read
        cases same
        obtain ⟨id, name, c, there, rfl, home, admits⟩ := sees.class found rfl
        exact ⟨ModuleTree.knows_withNullable (ModuleTree.knows_named (.class there)) _,
          fun _ => ⟨_, _, rfl, .class there home admits⟩⟩
      next => simp at read
  next => simp at read

theorem Sees.selects (sees : env.Sees t whole s) {owner : Owner} {functions : FunctionTable}
    {name : String} {args : List Datatype} {f : FunctionDefinition}
    (known : functions.Known t owner) (inside : owner.moduleId.index < env.modules.size)
    (offers : functions.Offers (t.functionsOf owner))
    (offered : whole = true → (t.functionsOf owner).Offers functions)
    (selected : Overload.select (functions.overloads name) args = .ok f)
    (accessible : env.accessible f.modifiers f.origin place = true)
    (stated : Stated place (env.modules.qualifyFunction f) token) :
    t.Selects s token args f.returnType ∧ t.Knows f.returnType := by
  have member := Overload.mem_of_select selected
  have named := known.name name f member
  have owned := known.owner name f member
  rw [← named] at selected
  rw [← owned] at offers offered inside
  refine ⟨.intro (f := f.bare) (offers f.name) ?_ (Overload.select_bare selected) ?_ rfl ?_,
    (known.known name f member).returnType⟩
  · intro body
    have whole := sees.stands.complete body
    exact (offers f.name).eq_of_length_le (offered whole f.name).length_le
  · exact stated.1.trans (sees.offers.qualifyFunction (f := f) inside).symm
  · have admits : t.Admits s f.modifiers f.origin token := sees.admits accessible stated.2
    exact admits

/-- The functions that a module has so far, or the class around. -/
inductive Lists (env : Environment) : Owner → FunctionTable → Prop
  | module (id : ModuleId) : env.Lists (.module id) (env.modules.functionsOf (.module id))
  | «class» {id : ModuleId} {c : ClassDeclaration} :
      env.scopes.class? = some (id, c) → env.Lists (.inClass id c.name) c.methods

-- Where modules in use are asked together, one of them has all that decides.
theorem callCandidates_lists {name : String} {found : List FunctionDefinition}
    {f : FunctionDefinition} {args : List Datatype} (listed : env.callCandidates name = .ok found)
    (selected : Overload.select found args = .ok f) :
    ∃ owner functions last, env.Lists owner functions ∧
      Overload.select (functions.overloads last) args = .ok f := by
  unfold callCandidates at listed
  split at listed
  next =>
    split at listed
    next => cases listed
    next id _ =>
      split at listed
      next => cases listed
      next =>
        cases listed
        exact ⟨_, _, _, .module id, selected⟩
  next =>
    dsimp only at listed
    split at listed
    next hit =>
      cases listed
      have member := List.mem_of_find?_eq_some hit
      have inside := Overload.mem_of_select selected
      rw [List.mem_cons, List.mem_cons, List.mem_map] at member
      rcases member with rfl | rfl | ⟨id, _, rfl⟩
      · cases around : env.scopes.class? with
        | none => simp [around] at inside
        | some found =>
            rw [around] at selected
            exact ⟨_, _, _, .class around, selected⟩
      · obtain ⟨id, used, inside⟩ := List.mem_flatMap.mp inside
        obtain ⟨before, after, same⟩ := List.append_of_mem used
        have sub : (env.modules.overloads id name).Sublist
            (env.scopes.uses.flatMap (env.modules.overloads · name)) := by
          rw [same, List.flatMap_append, List.flatMap_cons]
          exact (List.sublist_append_left _ _).trans (List.sublist_append_right _ _)
        exact ⟨_, _, _, .module id, Overload.select_of_sublist sub inside selected⟩
      · exact ⟨_, _, _, .module id, selected⟩
    next => cases listed

theorem resolveCall_eq_ok {args : List Datatype} {callee : ResolvedCall}
    (read : env.resolveCall place args = .ok callee) :
    ∃ owner functions name f, env.Lists owner functions ∧
      Overload.select (functions.overloads name) args = .ok f ∧
      env.accessible f.modifiers f.origin place = true ∧
      callee = ⟨env.modules.qualifyFunction f, f.returnType⟩ := by
  unfold resolveCall at read
  split at read
  next found listed =>
    simp only [Checked.bind_eq_ok] at read
    obtain ⟨all, same, read⟩ := read
    cases same
    split at read
    next f selected =>
      simp only [Checked.bind_eq_ok] at read
      obtain ⟨_, checked, same⟩ := read
      cases same
      obtain ⟨owner, functions, name, lists, selected⟩ := callCandidates_lists listed selected
      exact ⟨owner, functions, name, f, lists, selected, checkAccess_eq_ok checked, rfl⟩
    next => simp at read
    next => simp at read
  next => simp at read

theorem Sees.call (sees : env.Sees t whole s) {args : List Datatype} {callee : ResolvedCall}
    (read : env.resolveCall place args = .ok callee) (stated : Stated place callee.qualified token) :
    t.Selects s token args callee.returnType ∧ t.Knows callee.returnType := by
  obtain ⟨owner, functions, name, f, lists, selected, accessible, rfl⟩ := resolveCall_eq_ok read
  cases lists with
  | module id =>
      exact sees.selects (sees.known id).functions
        (ModuleTree.inside_of_function (Overload.mem_of_select selected))
        (sees.offers.functionsOf (.module id))
        (fun whole => (sees.offered whole).functionsOf (.module id)) selected accessible stated
  | @«class» id c around =>
      obtain ⟨_, known, d, there, grown, whole⟩ := sees.stands.class id c around
      have methods : t.functionsOf (.inClass id c.name) = d.methods := by
        rw [ModuleTree.functionsOf, there]
        rfl
      refine sees.selects known.methods (sees.inside id c around) ?_ ?_ selected accessible stated
      · rw [methods]
        exact grown.methods
      · rw [methods]
        exact fun complete => (whole complete).methods

end Environment

end MiLanguage
