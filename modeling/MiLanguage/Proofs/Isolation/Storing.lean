import MiLanguage.Proofs.Isolation.Contained

set_option autoImplicit false

namespace MiLanguage

-- The step of a loop stores to its target, unless that is the variable that the loop defines.
def loopTarget? (keyword : Token) (tokens : List Token) : Option Token := do
  let header ← (dropLastOf .leftBrace keyword tokens "after 'for' header").toOption
  let (_, inner) ← unwrap header
  let head ← (ForHead.read keyword inner).toOption
  let (_, definition) ← (LeadingModifiers.read head.start).toOption
  let target ← head.step.head?
  let op ← head.step.tail.head?
  if op.kind.isAssignment && definition.tail.head?.map Token.lexeme ≠ some target.lexeme then
    some target
  else none

-- The name that a statement stores to: the target of an assignment, or that of the step in a loop's
-- head, which a range implies.
def storeTarget? (first : Token) (rest : List Token) : Option Token := do
  let (_, tokens) ← (LeadingModifiers.read (first :: rest)).toOption
  let head ← tokens.head?
  if head.is .identifier then
    if tokens.tail.head?.any (·.kind.isAssignment) then some head else none
  else if head.is (.keyword .for) then loopTarget? head tokens.tail
  else none

-- What a statement stores to is a local variable, or one that is `mut`.
def Environment.StoresToMutable (env : Environment) (first : Token) (rest : List Token) : Prop :=
  ∀ target v, storeTarget? first rest = some target → env.resolveVariable target = .ok v →
    v.place ≠ .inBlock → v.modifiers.isMutable = true

instance (env : Environment) (first : Token) (rest : List Token) :
    Decidable (env.StoresToMutable first rest) :=
  decidable_of_iff
    ((storeTarget? first rest).all (fun target =>
      (env.resolveVariable target).toOption.all fun v =>
        decide (v.place = .inBlock) || v.modifiers.isMutable) = true) <| by
    unfold Environment.StoresToMutable
    simp only [Option.all_eq_true, Bool.or_eq_true, decide_eq_true_eq]
    refine forall_congr' fun target => ⟨fun check v stored resolved outside => ?_, fun stores stored v here => ?_⟩
    · exact (check stored v (by rw [resolved]; rfl)).resolve_left outside
    · by_cases outside : v.place = .inBlock
      · exact .inl outside
      · refine .inr (stores v stored ?_ outside)
        cases resolved : env.resolveVariable target with
        | ok w =>
            rw [resolved] at here
            exact congrArg Except.ok (Option.some.inj here)
        | error => rw [resolved] at here; cases here

-- Until no more than `left` tokens are left, no statement stores to a global or a field, unless it
-- is `mut`.
def AnalysisState.StoresToMutable (s : AnalysisState) (left : Nat) : Prop :=
  ∀ count first rest later, left < (steps count s).remaining.length →
    (steps count s).Takes first rest later →
      (steps count s).environment.StoresToMutable first rest

section Sights

/-- A scope with the same names in it. -/
structure Scope.Resembles (a b : Scope) : Prop where
  moduleId? : b.frame.moduleId? = a.frame.moduleId?
  class? : b.frame.class? = a.frame.class?
  isFunction : b.frame.isFunction = a.frame.isFunction
  locals : ∀ name, b.frame.block?.bind (·.locals.find? name) = a.frame.block?.bind (·.locals.find? name)
  uses : (b.frame.block?.map Block.uses).getD [] = (a.frame.block?.map Block.uses).getD []

namespace ScopeStack

variable {s t : ScopeStack} {f : Scope → Scope}

theorem class?_modifyCurrent (same : (f s.current).frame.class? = s.current.frame.class?) :
    (s.modifyCurrent f).class? = s.class? := by
  obtain ⟨outer, all, changed⟩ := s.all_eq_current
  rw [class?, changed f, class?, all, List.findSome?_cons, List.findSome?_cons, same]

theorem functionScopes_of_all {a b : Scope} {outer : List Scope} (all : s.all = a :: outer)
    (changed : t.all = b :: outer) (same : b.frame.isFunction = a.frame.isFunction) :
    (s.functionScopes = [] ∧ t.functionScopes = []) ∨
      ∃ rest, s.functionScopes = a :: rest ∧ t.functionScopes = b :: rest := by
  unfold functionScopes
  rw [all, changed, upTo, upTo, same]
  split
  · exact .inr ⟨[], rfl, rfl⟩
  · split
    · exact .inl ⟨rfl, rfl⟩
    · exact .inr ⟨_, rfl, rfl⟩

end ScopeStack

namespace Environment

variable {env other : Environment}

-- What a name stands for shows in what it is looked up in.
theorem resolveVariable_congr {place : Token} (modules : other.modules = env.modules)
    (current : other.scopes.currentModule = env.scopes.currentModule)
    (uses : other.scopes.uses = env.scopes.uses) (around : other.scopes.class? = env.scopes.class?)
    (locals : other.scopes.lookupLocal? place.lexeme = env.scopes.lookupLocal? place.lexeme) :
    other.resolveVariable place = env.resolveVariable place := by
  simp only [resolveVariable, lookupOrBlame, lookup, lookupFault, checkAccess, accessible,
    resolveModule, currentModule, localVariable?, fieldVariable?, modules, current, uses, around,
    locals]

theorem resolveVariable_modifyCurrent {f : Scope → Scope}
    (same : env.scopes.current.Resembles (f env.scopes.current)) (place : Token) :
    { env with scopes := env.scopes.modifyCurrent f }.resolveVariable place =
      env.resolveVariable place := by
  obtain ⟨outer, all, changed⟩ := env.scopes.all_eq_current
  have changed := changed f
  have scopes := ScopeStack.functionScopes_of_all all changed same.isFunction
  refine resolveVariable_congr rfl ?_ ?_ (ScopeStack.class?_modifyCurrent same.class?) ?_
  · show (env.scopes.modifyCurrent f).currentModule = _
    rw [ScopeStack.currentModule, changed, ScopeStack.currentModule, all, List.findSome?_cons,
      List.findSome?_cons, same.moduleId?]
  · show (env.scopes.modifyCurrent f).uses = _
    rcases scopes with ⟨bare, bare'⟩ | ⟨rest, inside, inside'⟩
    · rw [ScopeStack.uses, bare', ScopeStack.uses, bare]
    · rw [ScopeStack.uses, inside', ScopeStack.uses, inside, List.flatMap_cons, List.flatMap_cons,
        same.uses]
  · show (env.scopes.modifyCurrent f).lookupLocal? _ = _
    rcases scopes with ⟨bare, bare'⟩ | ⟨rest, inside, inside'⟩
    · rw [ScopeStack.lookupLocal?, bare', ScopeStack.lookupLocal?, bare]
    · rw [ScopeStack.lookupLocal?, inside', ScopeStack.lookupLocal?, inside, List.findSome?_cons,
        List.findSome?_cons, same.locals]

theorem resolveVariable_append (env : Environment) (setting : Setting) (n : Node) (place : Token) :
    (env.append setting n).resolveVariable place = env.resolveVariable place := by
  unfold append
  split
  · rfl
  · exact resolveVariable_modifyCurrent ⟨rfl, rfl, rfl, fun _ => rfl, rfl⟩ place

theorem resolveVariable_modifyBlock {f : Block → Block} (locals : ∀ b, (f b).locals = b.locals)
    (uses : ∀ b, (f b).uses = b.uses) (place : Token) :
    (env.modifyBlock f).resolveVariable place = env.resolveVariable place := by
  refine resolveVariable_modifyCurrent ?_ place
  cases frame : env.scopes.current.frame with
  | block kind b =>
      refine ⟨by rw [frame]; rfl, by rw [frame]; rfl, by rw [frame]; rfl, fun name => ?_, ?_⟩
      · rw [frame]
        show (f b).locals.find? name = b.locals.find? name
        rw [locals]
      · rw [frame]
        exact uses b
  | _ => exact ⟨by rw [frame]; rfl, by rw [frame]; rfl, by rw [frame]; rfl, fun _ => by rw [frame]; rfl, by rw [frame]; rfl⟩

theorem resolveVariable_loopHead {b : Block} {node : Node} {place : Token} (uses : b.uses = [])
    (other : b.locals.find? place.lexeme = none) :
    (env.push (.block .loopHead b) node).resolveVariable place = env.resolveVariable place := by
  have all : (env.push (.block .loopHead b) node).scopes.all =
      ⟨.block .loopHead b, node, false⟩ :: env.scopes.all := rfl
  have scopes : (env.push (.block .loopHead b) node).scopes.functionScopes = [] ∧
        env.scopes.functionScopes = [] ∨
      (env.push (.block .loopHead b) node).scopes.functionScopes =
        ⟨.block .loopHead b, node, false⟩ :: env.scopes.functionScopes := by
    unfold ScopeStack.functionScopes
    rw [all, ScopeStack.upTo, if_neg (by simp [Frame.isFunction, Frame.blockKind?])]
    split
    next unfound => exact .inl ⟨rfl, unfound⟩
    next => exact .inr rfl
  refine resolveVariable_congr rfl ?_ ?_ ?_ ?_
  · rw [ScopeStack.currentModule, all, List.findSome?_cons]
    rfl
  · rcases scopes with ⟨bare, bare'⟩ | inside
    · rw [ScopeStack.uses, bare, ScopeStack.uses, bare']
    · rw [ScopeStack.uses, inside, ScopeStack.uses, List.flatMap_cons]
      show (b.uses ++ _).foldl _ _ = _
      rw [uses, List.nil_append]
  · rw [ScopeStack.class?, all, List.findSome?_cons]
    rfl
  · rcases scopes with ⟨bare, bare'⟩ | inside
    · rw [ScopeStack.lookupLocal?, bare, ScopeStack.lookupLocal?, bare']
    · rw [ScopeStack.lookupLocal?, inside, ScopeStack.lookupLocal?, List.findSome?_cons,
        show (Frame.block .loopHead b).block?.bind (·.locals.find? place.lexeme) = none from other]

end Environment

end Sights

section Marks

theorem SymbolTable.spares_modify {t : SymbolTable Variable} {name : String} {f : Variable → Variable}
    (mutable : ∀ v, t.find? name = some v → v.modifiers.isMutable = true) :
    t.Spares (t.modify name f) := by
  intro other v found fixed
  rw [find?_modify]
  split
  next same =>
    subst same
    rw [mutable v found] at fixed
    cases fixed
  next => exact found

namespace ScopeStack

variable {s t : ScopeStack}

theorem class?_modifyClass? {f : ClassDeclaration → ClassDeclaration}
    (changed : s.modifyClass? f = some t) :
    ∃ id c, s.class? = some (id, c) ∧ t.class? = some (id, f c) := by
  have innermost {X X' : List Scope} (made : modifyFirst (Scope.renewClass? f) X = some X') :
      ∃ id c, X.findSome? (·.frame.class?) = some (id, c) ∧
        X'.findSome? (·.frame.class?) = some (id, f c) := by
    induction X generalizing X' with
    | nil => cases made
    | cons scope X ih =>
        unfold modifyFirst at made
        cases frame : scope.frame with
        | «class» id c =>
            simp only [Scope.renewClass?, frame, Option.some.injEq] at made
            subst made
            exact ⟨id, c, by rw [List.findSome?_cons, frame]; rfl, rfl⟩
        | _ =>
            simp only [Scope.renewClass?, frame, Option.map_eq_some_iff] at made
            obtain ⟨later, made, rfl⟩ := made
            obtain ⟨id, c, before, behind⟩ := ih made
            refine ⟨id, c, ?_, ?_⟩
            · rw [List.findSome?_cons, frame]
              exact before
            · rw [List.findSome?_cons, frame]
              exact behind
  obtain ⟨opened, made, rfl⟩ := Option.map_eq_some_iff.mp changed
  obtain ⟨id, c, before, behind⟩ := innermost made
  refine ⟨id, c, ?_, ?_⟩
  · rw [class?, all, List.findSome?_append, before]
    rfl
  · rw [class?, all, List.findSome?_append, behind]
    rfl

theorem class?_modifyLocal (s : ScopeStack) (name : String) (f : LocalVariable → LocalVariable) :
    (s.modifyLocal name f).class? = s.class? := by
  unfold modifyLocal
  split
  next => rfl
  next =>
    generalize changed : s.modifyInnermost _ = found
    cases found with
    | none => rfl
    | some t =>
        obtain ⟨opened, made, rfl⟩ := Option.map_eq_some_iff.mp changed
        have related := modifyFirst_related
          (R := fun a b : Scope => b.frame.class? = a.frame.class?) (fun _ => rfl) ?_ made
        · exact Environment.class?_of_frames (List.rel_append related (.cons rfl .nil))
        intro a b same
        split at same
        next kind block frame =>
          split at same
          next =>
            cases same
            rw [frame]
            rfl
          next => cases same
        next => cases same

end ScopeStack

namespace Environment

variable {env after last : Environment} {setting : Setting} {mods : LeadingModifiers}
  {first head place : Token} {rest tail tokens : List Token} {node : Node} {v : ResolvedVariable}

/-- The same globals, and the same class around, have the same marks. -/
structure KeepsMarks (env after : Environment) : Prop where
  globals : ∀ id, (after.modules.get id).members.globals = (env.modules.get id).members.globals
  class? : after.scopes.class? = env.scopes.class?

theorem keepsMarks_refl (env : Environment) : env.KeepsMarks env := ⟨fun _ => rfl, rfl⟩

theorem KeepsMarks.trans (first : env.KeepsMarks after) (second : after.KeepsMarks last) :
    env.KeepsMarks last :=
  ⟨fun id => (second.globals id).trans (first.globals id), second.class?.trans first.class?⟩

theorem Idles.keepsMarks (idles : env.Idles after) : env.KeepsMarks after :=
  ⟨idles.globals, class?_of_frames (idles.scopes.imp fun _ _ idle => idle.class?)⟩

theorem KeepsMarks.spares (keeps : env.KeepsMarks after) : env.Spares after := by
  refine ⟨fun id => ?_, fun id c around => ⟨c, keeps.class?.trans around, SymbolTable.spares_refl _⟩⟩
  rw [keeps.globals]
  exact SymbolTable.spares_refl _

theorem keepsMarks_push (env : Environment) {scope : Scope} (other : scope.frame.class? = none) :
    env.KeepsMarks { env with scopes := env.scopes.push scope } := by
  refine ⟨fun _ => rfl, ?_⟩
  rw [ScopeStack.class?, show (env.scopes.push scope).all = scope :: env.scopes.all from rfl,
    List.findSome?_cons, other]
  rfl

theorem keepsMarks_modifyBlock (env : Environment) (f : Block → Block) :
    env.KeepsMarks (env.modifyBlock f) := by
  refine ⟨fun _ => rfl, ScopeStack.class?_modifyCurrent ?_⟩
  show (env.scopes.current.frame.modifyBlock f).class? = _
  cases env.scopes.current.frame <;> rfl

theorem keepsMarks_declareLocal {v : Variable} {scopes : ScopeStack}
    (declared : env.scopes.declareLocal? v = some scopes) : env.KeepsMarks { env with scopes } := by
  unfold ScopeStack.declareLocal? at declared
  split at declared
  next => cases declared
  next =>
    cases declared
    exact env.keepsMarks_modifyBlock _

theorem keepsMarks_declare {v : Variable} (added : env.declareVariable? .inBlock v = some after) :
    env.KeepsMarks after := by
  obtain ⟨scopes, declared, rfl⟩ := Option.map_eq_some_iff.mp added
  exact keepsMarks_declareLocal declared

theorem keepsMarks_openBody (env : Environment) (type : Datatype) (owner : BodyOwner)
    (parameters : List FunctionParameter) (place : Token) (node : Node) :
    env.KeepsMarks (env.openBody type owner parameters place node) := by
  unfold openBody
  dsimp only
  generalize opened : env.push _ node = body
  have start : env.KeepsMarks body := by
    subst opened
    exact env.keepsMarks_push rfl
  clear opened
  induction parameters generalizing body with
  | nil => exact start
  | cons p parameters ih =>
      refine ih _ (start.trans ?_)
      dsimp only
      generalize declared : body.scopes.declareLocal? _ = found
      cases found with
      | none => exact body.keepsMarks_refl
      | some scopes => exact keepsMarks_declareLocal declared

-- A mark is set on the variable alone that is stored to.
theorem spares_markInitialized (resolved : env.resolveVariable place = .ok v)
    (mutable : v.place ≠ .inBlock → v.modifiers.isMutable = true) :
    env.Spares (env.markInitialized v) := by
  cases resolveVariable_resolves resolved with
  | inBlock =>
      exact KeepsMarks.spares ⟨fun _ => rfl, ScopeStack.class?_modifyLocal _ _ _⟩
  | @field id c w around found =>
      unfold markInitialized
      dsimp only
      generalize changed : env.scopes.modifyClass? _ = stack
      cases stack with
      | none => exact env.keepsMarks_refl.spares
      | some scopes =>
          refine ⟨fun _ => SymbolTable.spares_refl _, fun id' c' around' => ?_⟩
          obtain ⟨id'', c'', before, behind⟩ := ScopeStack.class?_modifyClass? changed
          rw [around'] at before
          cases before
          rw [around'] at around
          cases around
          refine ⟨_, behind, SymbolTable.spares_modify fun v there => ?_⟩
          rw [found] at there
          cases there
          exact mutable fun inBlock => by cases inBlock
  | @global id w hidden found =>
      refine ⟨fun other => ?_, fun id c around => ⟨c, around, SymbolTable.spares_refl _⟩⟩
      unfold markInitialized
      dsimp only
      rw [ModuleTree.modifyVariable, ModuleTree.members_modifyMembers]
      split
      next same =>
        obtain ⟨rfl, -⟩ := same
        refine SymbolTable.spares_modify fun v there => ?_
        rw [(lookup_eq_ok found).1] at there
        cases there
        exact mutable fun inBlock => by cases inBlock
      next => exact SymbolTable.spares_refl _

theorem assign_eq_ok {implied : Bool} {target op : Token}
    (read : env.assign implied target op tokens = .ok (after, node)) :
    ∃ v, env.resolveVariable target = .ok v ∧ after = env.markInitialized v := by
  simp only [assign, Checked.bind_eq_ok] at read
  obtain ⟨_, _, v, resolved, _, _, _, _, read⟩ := read
  refine ⟨v, resolved, ?_⟩
  split at read
  all_goals
    simp only [Checked.bind_eq_ok] at read
    obtain ⟨_, _, same⟩ := read
    cases same
    rfl

-- The loop's variable is the only one in the scope of the loop's head.
theorem loopDefinition_eq_ok {n : Node}
    (read : (env.push (.block .loopHead {}) n).loopDefinition tokens head = .ok (after, node)) :
    ∃ mods definition name b, LeadingModifiers.read tokens = .ok (mods, definition) ∧
      definition.tail.head? = some name ∧ isDotted name.lexeme = false ∧
      after = env.push (.block .loopHead b) n ∧ b.uses = [] ∧
      ∀ other, (b.locals.find? other).isSome = true ↔ other = name.lexeme := by
  simp only [loopDefinition, Checked.bind_eq_ok] at read
  obtain ⟨⟨mods, rest⟩, modifiers, read⟩ := read
  cases rest with
  | nil => simp at read
  | cons first rest =>
      simp only [Checked.bind_eq_ok] at read
      obtain ⟨_, _, ⟨defined, definition⟩, found, _, _, same⟩ := read
      cases same
      obtain ⟨v, name, _, named, _, _, introduces, added, _⟩ := newVariable_eq_ok found
      obtain ⟨starts, _, plain⟩ := declaredName_eq_ok named
      obtain ⟨scopes, declared, rfl⟩ := Option.map_eq_some_iff.mp added
      unfold ScopeStack.declareLocal? at declared
      split at declared
      next => cases declared
      next =>
        cases declared
        refine ⟨mods, first :: rest, name, _, modifiers, starts, plain, rfl, rfl, fun other => ?_⟩
        rw [SymbolTable.find?_insert, introduces.named]
        split
        next same => exact ⟨fun _ => same, fun _ => rfl⟩
        next distinct => exact ⟨fun found => (by cases found), fun same => absurd same distinct⟩

theorem loopStep_spares {implied : Bool}
    (read : env.loopStep implied tokens head = .ok (after, node))
    (stores : ∀ target op v, tokens.head? = some target → tokens.tail.head? = some op →
      op.kind.isAssignment = true → env.resolveVariable target = .ok v → v.place ≠ .inBlock →
      v.modifiers.isMutable = true) : env.Spares after := by
  cases tokens with
  | nil => simp [loopStep] at read
  | cons target tokens =>
      cases tokens with
      | nil =>
          rw [(callStep_calls (show env.callStep _ _ = _ from read)).1]
          exact env.keepsMarks_refl.spares
      | cons op tokens =>
          simp only [loopStep] at read
          split at read
          next assigns =>
            obtain ⟨v, resolved, rfl⟩ := assign_eq_ok read
            exact spares_markInitialized resolved (stores target op v rfl rfl assigns resolved)
          next =>
            rw [(callStep_calls read).1]
            exact env.keepsMarks_refl.spares

theorem openFor_spares {accepted : Accepted} (within : Confined env.scopes.all env.scopes.all)
    (read : env.openFor setting mods head tokens = .ok accepted)
    (stores : ∀ target v, loopTarget? head tokens = some target → env.resolveVariable target = .ok v →
      v.place ≠ .inBlock → v.modifiers.isMutable = true) : env.Spares accepted.environment := by
  simp only [openFor, Checked.bind_eq_ok] at read
  obtain ⟨_, _, _, _, header, dropped, read⟩ := read
  split at read
  next opening inner wrapped =>
    simp only [Checked.bind_eq_ok, Except.ok.injEq, exists_eq_left'] at read
    obtain ⟨loop, parts, ⟨defined, start⟩, definition, condition, _, ⟨stepped, step⟩, advances, same⟩ :=
      read
    subst same
    obtain ⟨mods', words, name, b, modifiers, named, plain, rfl, uses, own⟩ :=
      loopDefinition_eq_ok definition
    have opened : env.KeepsMarks (env.push (.block .loopHead b) (.new .forFakeScope head.streamLine)) :=
      env.keepsMarks_push rfl
    have steps := loopStep_spares advances fun target op v first second assigns resolved outside => by
      by_cases same : target.lexeme = name.lexeme
      · -- The loop's own variable is local.
        obtain ⟨l, held⟩ := Option.isSome_iff_exists.mp ((own target.lexeme).mpr same)
        obtain ⟨scope, member, -⟩ := ScopeStack.exists_isFunction within
        have inside : (env.push (.block .loopHead b) (.new .forFakeScope head.streamLine)).localVariable?
            target.lexeme = some ⟨target.lexeme, target.lexeme, l.declaration.type,
              l.declaration.modifiers, l.declaration.initialized, .inBlock⟩ := by
          unfold localVariable? ScopeStack.lookupLocal? ScopeStack.functionScopes
          rw [show (env.push (.block .loopHead b) (.new .forFakeScope head.streamLine)).scopes.all =
            ⟨.block .loopHead b, .new .forFakeScope head.streamLine, false⟩ :: env.scopes.all from rfl,
            ScopeStack.upTo, if_neg (by simp [Frame.isFunction, Frame.blockKind?])]
          split
          next bare =>
            rw [bare] at member
            cases member
          next =>
            rw [List.findSome?_cons,
              show (Frame.block .loopHead b).block?.bind (·.locals.find? target.lexeme) = some l from held]
            rfl
        unfold resolveVariable at resolved
        dsimp only at resolved
        rw [if_neg (by rw [same, plain]; decide), inside] at resolved
        cases resolved
        exact absurd rfl outside
      · refine stores target v ?_ ?_ outside
        · simp only [loopTarget?, dropped, wrapped, parts, modifiers, first, second, assigns, named,
            Except.toOption, Option.bind_eq_bind, Option.bind_some, Option.map_some, Option.some.injEq,
            Bool.true_and, ne_eq, decide_eq_true_eq, Ne.symm same, not_false_eq_true, if_true]
        · rwa [resolveVariable_loopHead uses] at resolved
          rw [← Option.not_isSome_iff_eq_none, own]
          exact same
    exact (opened.spares.trans steps).trans ((idles_appended _ _ _).keepsMarks.trans
      (keepsMarks_push _ rfl)).spares
  next => simp at read

theorem placement_of_block {placement : Placement} (block : env.frame.isBlock = true)
    (placed : env.placement place = .ok placement) : placement = .inBlock := by
  unfold Environment.placement at placed
  cases frame : env.frame with
  | block =>
      simp only [frame, Except.ok.injEq] at placed
      exact placed.symm
  | _ => rw [frame] at block; cases block

theorem variableStatement_keepsMarks {accepted : Accepted} (block : env.frame.isBlock = true)
    (read : env.variableStatement setting mods head tail = .ok accepted) :
    env.KeepsMarks accepted.environment := by
  simp only [variableStatement, Checked.bind_eq_ok] at read
  obtain ⟨_, _, placement, placed, read⟩ := read
  split at read
  next =>
    simp only [Checked.bind_eq_ok] at read
    obtain ⟨⟨declared, definition⟩, found, same⟩ := read
    cases same
    obtain ⟨_, _, _, _, _, _, _, added, _⟩ := newVariable_eq_ok found
    rw [placement_of_block block placed] at added
    exact keepsMarks_declare added
  next =>
    cases read
    exact env.keepsMarks_refl

theorem nameStatement_spares {accepted : Accepted} (block : env.frame.isBlock = true)
    (read : env.nameStatement setting mods head tail = .ok accepted)
    (stores : ∀ v, tail.head?.any (·.kind.isAssignment) = true → env.resolveVariable head = .ok v →
      v.place ≠ .inBlock → v.modifiers.isMutable = true) : env.Spares accepted.environment := by
  cases tail with
  | nil => simp [nameStatement] at read
  | cons second tail =>
      simp only [nameStatement] at read
      split at read
      next => exact (variableStatement_keepsMarks block read).spares
      next =>
        simp only [callStatement, Checked.bind_eq_ok] at read
        obtain ⟨_, _, _, _, _, _, _, _, _, _, same⟩ := read
        cases same
        exact env.keepsMarks_refl.spares
      next =>
        split at read
        next assigns =>
          simp only [assignment, Checked.bind_eq_ok] at read
          obtain ⟨_, _, _, _, _, _, ⟨stored, definition⟩, found, same⟩ := read
          cases same
          obtain ⟨v, resolved, rfl⟩ := assign_eq_ok found
          exact spares_markInitialized resolved (stores v assigns resolved)
        next => simp at read

end Environment

theorem Accepts.keepsMarks {env : Environment} {setting : Setting} {mods : LeadingModifiers}
    {head : Token} {tail : List Token} {accepted : Accepted}
    (accepts : Accepts env setting mods head tail accepted) (pass : setting.declaring = false)
    (block : env.frame.isBlock = true) (named : head.kind ≠ .identifier)
    (loop : head.kind ≠ .keyword .for) : env.KeepsMarks accepted.environment := by
  have declaring : ¬setting.declaring = true := by simp [pass]
  have isModule : ¬env.frame.isModule = true := by
    intro isModule
    cases frame : env.frame with
    | block => rw [frame] at isModule; cases isModule
    | _ => rw [frame] at block; cases block
  have host : ¬(env.frame.isModule || env.frame.isClass) = true := by
    intro host
    cases frame : env.frame with
    | block => rw [frame] at host; cases host
    | _ => rw [frame] at block; cases block
  cases accepts with
  | conditional => exact env.keepsMarks_push rfl
  | doLoop => exact env.keepsMarks_push rfl
  | forLoop kind => exact absurd kind loop
  | returned => exact env.keepsMarks_modifyBlock _
  | exited => exact env.keepsMarks_modifyBlock _
  | used => exact (env.idles_use _).keepsMarks
  | libraryEnded => exact ⟨fun _ => rfl, rfl⟩
  | variableDefined _ _ placed _ defines =>
      obtain rfl := Environment.placement_of_block block placed
      obtain ⟨_, _, _, added⟩ := defines
      exact Environment.keepsMarks_declare added
  | variableKept => exact env.keepsMarks_refl
  | called kind => exact absurd kind named
  | assigned kind => exact absurd kind named
  | moduleDeclared _ _ _ pass => exact absurd pass declaring
  | classDeclared _ _ _ pass => exact absurd pass declaring
  | enumDeclared _ _ _ pass => exact absurd pass declaring
  | membersDeclared _ _ _ pass => exact absurd pass declaring
  | functionDeclared _ _ _ pass => exact absurd pass declaring
  | nativeDeclared _ _ _ pass => exact absurd pass declaring
  | constructorDeclared _ _ _ pass => exact absurd pass declaring
  | moduleEntered _ _ module => exact absurd module isModule
  | classEntered _ _ module => exact absurd module isModule
  | classMissing => exact env.keepsMarks_refl
  | enumEntered _ _ module => exact absurd module isModule
  | enumMissing => exact env.keepsMarks_refl
  | membersKept => exact env.keepsMarks_refl
  | functionOpened _ _ place => exact absurd place host
  | nativeKept => exact env.keepsMarks_refl
  | constructorOpened _ _ frame => rw [frame] at block; cases block

theorem Environment.statement_spares {env after : Environment} {setting : Setting} {first : Token}
    {rest : List Token} {node : Option Node}
    (read : env.statement setting first rest = ⟨after, .ok node⟩) (pass : setting.declaring = false)
    (within : Confined env.scopes.all env.scopes.all)
    (stores : env.StoresToMutable first rest) : env.Spares after := by
  have block := isBlock_of_confined within
  unfold statement at read
  split at read
  next => simp at read
  next => simp [blame] at read
  next mods head tail modifiers =>
    have target : storeTarget? first rest = if head.is .identifier then
        if tail.head?.any (·.kind.isAssignment) then some head else none
        else if head.is (.keyword .for) then loopTarget? head tail else none := by
      simp only [storeTarget?, modifiers, Except.toOption, Option.bind_eq_bind, Option.bind_some,
        List.head?_cons, List.tail_cons]
      rfl
    unfold dispatch at read
    split at read
    next id e _ frame =>
      rw [frame] at block
      cases block
    next =>
      cases found : env.read setting mods head tail with
      | error => simp [found, Outcome.ofChecked] at read
      | ok accepted =>
          simp only [found, Outcome.ofChecked, Outcome.mk.injEq] at read
          obtain ⟨rfl, -⟩ := read
          by_cases named : head.kind = .identifier
          · rw [if_pos ((Token.is_iff _ _).mpr named)] at target
            simp only [Environment.read, named] at found
            refine nameStatement_spares block found fun v assigns => stores head v ?_
            rw [target, if_pos assigns]
          · by_cases loop : head.kind = .keyword .for
            · rw [if_neg (by simpa [Token.is_iff] using named), if_pos ((Token.is_iff _ _).mpr loop)] at target
              simp only [Environment.read, loop] at found
              refine openFor_spares within found fun word v stored => stores word v ?_
              rw [target, stored]
            · exact ((read_accepts found).keepsMarks pass block named loop).spares

theorem Environment.keepsMarks_pop {env : Environment} {scope : Scope} {scopes : ScopeStack}
    (popped : env.scopes.pop? = some (scope, scopes)) (other : scope.frame.class? = none) :
    env.KeepsMarks { env with scopes } := by
  refine ⟨fun _ => rfl, ?_⟩
  have all := ScopeStack.all_of_pop? popped
  rw [ScopeStack.class?, ScopeStack.class?, all, List.findSome?_cons, other]

end Marks

namespace AnalysisState

variable {start s t : AnalysisState} {home : Scope} {outer : List Scope} {beyond : List Token}
  {depth : Nat} {first head brace : Token} {rest : List Token}

theorem keepsMarks_append (s : AnalysisState) (node : Node) :
    s.environment.KeepsMarks (s.append node).environment :=
  (Environment.idles_append _ _ _).keepsMarks

theorem keepsMarks_flushDo (s : AnalysisState) : s.environment.KeepsMarks s.flushDo.environment := by
  unfold flushDo
  split
  · exact keepsMarks_append _ _
  · exact s.environment.keepsMarks_refl

theorem resolveVariable_flushDo (s : AnalysisState) (place : Token) :
    s.flushDo.environment.resolveVariable place = s.environment.resolveVariable place := by
  unfold flushDo
  split
  · exact Environment.resolveVariable_append _ _ _ _
  · rfl

theorem keepsMarks_checkReachable (s : AnalysisState) (first : Token) :
    s.environment.KeepsMarks (s.checkReachable first).environment := by
  unfold checkReachable
  split
  · split
    · exact s.environment.keepsMarks_refl
    · exact s.environment.keepsMarks_modifyBlock _
  · exact s.environment.keepsMarks_refl

theorem resolveVariable_checkReachable (s : AnalysisState) (first place : Token) :
    (s.checkReachable first).environment.resolveVariable place =
      s.environment.resolveVariable place := by
  unfold checkReachable
  split
  · split
    · rfl
    · exact Environment.resolveVariable_modifyBlock (f := ({ · with warned := true })) (fun _ => rfl)
        (fun _ => rfl) place
  · rfl

theorem keepsMarks_recover (s : AnalysisState) (head brace : Token)
    (block : s.environment.frame.isBlock = true) :
    s.environment.KeepsMarks (s.recover head brace).environment := by
  unfold recover
  split
  · unfold skipBlock
    split <;> exact s.environment.keepsMarks_refl
  · refine s.environment.keepsMarks_push ?_
    show (recoveryFrame s.environment head).class? = none
    obtain ⟨kind, title, -⟩ := recoveryFrame_block block head
    generalize recoveryFrame s.environment head = frame at title
    cases frame with
    | «class» => cases title
    | _ => rfl

theorem keepsMarks_closeFunction (s : AnalysisState) (b : Block) (node : Node) (brace : Token) :
    s.environment.KeepsMarks (s.closeFunction b node brace).environment := by
  have stored (u : AnalysisState) :
      u.environment.KeepsMarks ((u.modifyModules (b.attached node)).append node).environment :=
    (u.environment.idles_attached b node).keepsMarks.trans
      (keepsMarks_append (u.modifyModules (b.attached node)) node)
  rw [closeFunction_eq]
  split
  · split
    · exact stored s
    · exact stored (s.report _ brace)
  · exact stored s

-- The scope of the loop's variable is closed along with the loop.
theorem keepsMarks_closeLoop {b : Block} {node : Node} {outermost : Scope} {below : List Scope}
    (around : s.environment.scopes.all = outermost :: below) (other : outermost.frame.class? = none) :
    s.environment.KeepsMarks (s.closeFrame (.block .forLoop b) node brace).environment := by
  have appended := s.keepsMarks_append node
  unfold closeFrame
  dsimp only
  split
  next popped =>
    have idles : s.environment.Idles (s.append node).environment := Environment.idles_append _ _ _
    have scopes := idles.scopes
    rw [around, ScopeStack.all_of_pop? popped] at scopes
    cases scopes with
    | cons same =>
        refine (appended.trans (Environment.keepsMarks_pop popped (same.class?.trans other))).trans ?_
        exact keepsMarks_append { s.append node with environment := _ } _
  next => exact appended

section Underway

variable (underway : Underway start home outer depth s) (function : home.frame.isFunction = true)

include underway function

theorem Underway.attempt_spares (pass : start.setting.declaring = false)
    (stores : s.environment.StoresToMutable first rest) :
    s.environment.Spares (s.attempt first rest).environment := by
  have declaring : s.setting.declaring = false := underway.setting ▸ pass
  unfold AnalysisState.attempt
  generalize read : s.environment.statement s.setting first rest = outcome
  obtain ⟨after, result⟩ := outcome
  cases result with
  | error r =>
      rcases Environment.statement_rejects_cases read with same | ⟨declares, -⟩
      · subst same
        exact s.environment.keepsMarks_refl.spares
      · rw [declaring] at declares
        cases declares
  | ok node =>
      exact Environment.statement_spares read declaring (underway.scopes.within function) stores

theorem Underway.readStatement_spares (pass : start.setting.declaring = false) (around : outer ≠ [])
    (stores : s.environment.StoresToMutable first rest) :
    s.environment.Spares (s.readStatement first rest).environment := by
  have checked := underway.checkReachable function first
  have marks := s.keepsMarks_checkReachable first
  have stores : (s.checkReachable first).environment.StoresToMutable first rest := by
    intro target v stored resolved
    rw [resolveVariable_checkReachable] at resolved
    exact stores target v stored resolved
  unfold AnalysisState.readStatement
  generalize s.checkReachable first = r at checked marks stores
  have tried := marks.spares.trans (checked.attempt_spares function pass stores)
  have block : (r.attempt first rest).environment.frame.isBlock = true := by
    rcases checked.attempt function pass around with ⟨stays, -⟩ | ⟨-, -, deeper⟩
    · exact stays.scopes.isBlock function
    · exact deeper.scopes.isBlock function
  have recovered : s.environment.Spares (if (rest.getLast?.getD first).is .leftBrace &&
      (r.attempt first rest).environment.scopes.depth = r.environment.scopes.depth then
        (r.attempt first rest).recover (((first :: rest).find? (!·.kind.isModifier)).getD first)
          (rest.getLast?.getD first)
      else r.attempt first rest).environment := by
    split
    · exact tried.trans (keepsMarks_recover _ _ _ block).spares
    · exact tried
  dsimp only
  split
  · exact recovered.trans (keepsMarks_append _ _).spares
  · exact recovered

theorem Underway.keepsMarks_closeScope (brace : Token) :
    s.environment.KeepsMarks (s.closeScope brace).environment := by
  have scopes := underway.scopes
  unfold AnalysisState.closeScope
  split
  next => exact s.environment.keepsMarks_refl
  next scope stack popped =>
    have all := ScopeStack.all_of_pop? popped
    have blocks : scope.frame.isBlock = true ∧ (scope.discard = false →
        scope.frame.blockKind? = some .forLoop →
          ∃ head below, stack.all = head :: below ∧ head.frame.class? = none) := by
      unfold Environment.Enclosed at scopes
      rw [all] at scopes
      generalize stack.all = below at scopes
      cases scopes with
      | body kept =>
          refine ⟨kept.again.isBlock, fun _ loop => ?_⟩
          rw [kept.blockKind?] at loop
          rw [Frame.isFunction, loop] at function
          cases function
      | block frame _ kept =>
          refine ⟨by rw [frame]; rfl, fun discard loop => ?_⟩
          rw [frame] at loop
          exact absurd (Option.some.inj loop) (kept discard).1
      | loop frame _ headFrame =>
          exact ⟨by rw [frame]; rfl, fun _ _ => ⟨_, _, rfl, by rw [headFrame]; rfl⟩⟩
    obtain ⟨block, loop⟩ := blocks
    obtain ⟨kind, b, frame⟩ : ∃ kind b, scope.frame = .block kind b := by
      cases frame : scope.frame with
      | block kind b => exact ⟨kind, b, rfl⟩
      | _ => rw [frame] at block; cases block
    have left : s.environment.KeepsMarks ({ s with environment :=
        { s.environment with scopes := stack } } : AnalysisState).environment :=
      Environment.keepsMarks_pop popped (by rw [frame]; rfl)
    dsimp only
    have around : stack.all = ({ s with environment := { s.environment with scopes := stack } } :
      AnalysisState).environment.scopes.all := rfl
    rw [around] at loop
    generalize ({ s with environment := { s.environment with scopes := stack } } : AnalysisState) = u
      at left loop ⊢
    cases discard : scope.discard with
    | true => exact left
    | false =>
        simp only [Bool.false_eq_true, if_false, frame]
        cases kind with
        | branch | whileLoop | loopHead => exact left.trans (keepsMarks_append u scope.node)
        | doLoop => exact left
        | function => exact left.trans (keepsMarks_closeFunction u b scope.node brace)
        | forLoop =>
            obtain ⟨head, below, around, classless⟩ := loop discard (by rw [frame]; rfl)
            exact left.trans (keepsMarks_closeLoop around classless)

variable (pass : start.setting.declaring = false) (around : outer ≠ [])

include pass around

theorem Underway.statementOrBrace_spares (stores : s.environment.StoresToMutable first rest) :
    s.environment.Spares (s.statementOrBrace first rest).environment := by
  unfold AnalysisState.statementOrBrace
  split
  · exact (underway.keepsMarks_closeScope function first).spares
  · exact underway.readStatement_spares function pass around stores

theorem Underway.statement_spares (stores : s.environment.StoresToMutable first rest) :
    s.environment.Spares (s.statement first rest).environment := by
  cases waiting : s.pendingDo with
  | none =>
      rw [statement_idle waiting]
      exact underway.statementOrBrace_spares function pass around stores
  | some block =>
      rw [statement_waiting waiting]
      split
      next =>
        have appended (u : AnalysisState) (node : Node) := (u.keepsMarks_append node).spares
        unfold finishDo
        dsimp only
        split
        · exact appended { s with pendingDo := none } _
        · exact appended ({ s with pendingDo := none }.report _ _) block
      next =>
        have reported := underway.report (SyntaxFault.doWithoutWhile false) first
        generalize told : s.report (SyntaxFault.doWithoutWhile false) first = u at reported
        have same : u.environment = s.environment := by
          subst told
          rfl
        rw [← same] at stores ⊢
        refine u.keepsMarks_flushDo.spares.trans
          ((reported.flushDo function).statementOrBrace_spares function pass around ?_)
        intro target v stored resolved
        rw [resolveVariable_flushDo] at resolved
        exact stores target v stored resolved

theorem Underway.step_spares
    (stores : ∀ first rest later, s.Takes first rest later → s.environment.StoresToMutable first rest)
    (stepped : s.step = some t) : s.environment.Spares t.environment := by
  unfold AnalysisState.step at stepped
  split at stepped
  next => cases stepped
  next head tail remaining =>
    generalize found : Chunk.next head tail = next at stepped
    obtain ⟨chunk, later⟩ := next
    cases chunk with
    | statement first rest =>
        cases stepped
        exact (underway.withText later).statement_spares function pass around
          (stores first rest later ⟨head, tail, remaining, found⟩)
    | endsAtBrace | endsAtInput =>
        cases stepped
        exact s.environment.keepsMarks_refl.spares

end Underway

section Stores

variable {left : Nat}

theorem StoresToMutable.here (stores : s.StoresToMutable left) (more : left < s.remaining.length)
    {later : List Token} (takes : s.Takes first rest later) :
    s.environment.StoresToMutable first rest :=
  stores 0 first rest later more takes

theorem StoresToMutable.step (stores : s.StoresToMutable left) (stepped : s.step = some t) :
    t.StoresToMutable left := by
  intro count
  have same : steps count t = steps (count + 1) s := by simp only [steps, stepped]
  rw [same]
  exact stores (count + 1)

theorem steps_remaining_le (count : Nat) (s : AnalysisState) :
    (steps count s).remaining.length ≤ s.remaining.length := by
  induction count generalizing s with
  | zero => exact Nat.le_refl _
  | succ count ih =>
      unfold steps
      cases stepped : s.step with
      | none => exact Nat.le_refl _
      | some t => exact Nat.le_trans (ih t) (Nat.le_of_lt (step_remaining_lt stepped))

theorem storesToMutable_of_step (stores : left < s.remaining.length →
    ∀ first rest later, s.Takes first rest later → s.environment.StoresToMutable first rest)
    (later : ∀ t, s.step = some t → t.StoresToMutable left) : s.StoresToMutable left := by
  intro count first rest beyond
  cases count with
  | zero => exact fun more => stores more first rest beyond
  | succ count =>
      unfold steps
      cases stepped : s.step with
      | none => exact fun more => stores more first rest beyond
      | some t => exact later t stepped count first rest beyond

theorem storesToMutable_of_le (few : s.remaining.length ≤ left) : s.StoresToMutable left :=
  fun count _ _ _ more =>
    absurd (Nat.lt_of_lt_of_le more (steps_remaining_le count s)) (Nat.not_lt.mpr few)

theorem storesToMutable_iff : s.StoresToMutable left ↔
    (left < s.remaining.length →
      ∀ first rest later, s.Takes first rest later → s.environment.StoresToMutable first rest) ∧
    ∀ t, s.step = some t → t.StoresToMutable left :=
  ⟨fun stores => ⟨fun more _ _ _ => stores.here more, fun _ => stores.step⟩,
    fun both => storesToMutable_of_step both.1 both.2⟩

-- The check of the next statement.
def storesHere (s : AnalysisState) : Bool :=
  match s.remaining with
  | [] => true
  | head :: tail =>
      match (Chunk.next head tail).1 with
      | .statement first rest => decide (s.environment.StoresToMutable first rest)
      | _ => true

theorem storesHere_iff : s.storesHere = true ↔
    ∀ first rest later, s.Takes first rest later → s.environment.StoresToMutable first rest := by
  unfold storesHere Takes
  cases s.remaining with
  | nil =>
      refine iff_of_true rfl ?_
      rintro _ _ _ ⟨_, _, ended, _⟩
      cases ended
  | cons head tail =>
      dsimp only
      generalize found : Chunk.next head tail = next
      obtain ⟨chunk, later⟩ := next
      constructor
      · rintro check _ _ _ ⟨_, _, same, taken⟩
        cases same
        rw [found] at taken
        cases taken
        exact of_decide_eq_true check
      · intro stores
        cases chunk with
        | statement first rest =>
            exact decide_eq_true (stores first rest later ⟨head, tail, rfl, found⟩)
        | endsAtBrace | endsAtInput => rfl

def storesAlong (left : Nat) : Nat → AnalysisState → Bool
  | 0, _ => true
  | bound + 1, s =>
      decide (s.remaining.length ≤ left) ||
        s.storesHere && s.step.all (storesAlong left bound)

theorem storesAlong_iff {bound : Nat} (enough : s.remaining.length ≤ bound) :
    storesAlong left bound s = true ↔ s.StoresToMutable left := by
  induction bound generalizing s with
  | zero => exact iff_of_true rfl (storesToMutable_of_le (Nat.le_trans enough (Nat.zero_le left)))
  | succ bound ih =>
      rw [storesAlong, Bool.or_eq_true, decide_eq_true_iff]
      by_cases few : s.remaining.length ≤ left
      · exact iff_of_true (.inl few) (storesToMutable_of_le few)
      · rw [or_iff_right few, Bool.and_eq_true, storesHere_iff, storesToMutable_iff,
          Option.all_eq_true]
        refine and_congr ⟨fun stores _ => stores, fun stores => stores (Nat.lt_of_not_le few)⟩
          (forall_congr' fun t => forall_congr' fun stepped => ih ?_)
        have fewer := step_remaining_lt stepped
        omega

instance (s : AnalysisState) (left : Nat) : Decidable (s.StoresToMutable left) :=
  decidable_of_iff _ (storesAlong_iff (Nat.le_refl _))

end Stores

-- A body that stores to nothing else than locals and what is `mut` leaves all other marks as they
-- were.
theorem Reading.spares (reading : Reading start home outer beyond depth s)
    (function : home.frame.isFunction = true) (pass : start.setting.declaring = false)
    (around : outer ≠ []) (stores : s.StoresToMutable beyond.length) :
    s.environment.Spares (s.downTo beyond.length).environment := by
  have kept : ((∃ inner, Reading start home outer beyond inner (s.downTo beyond.length)) ∨
        Finished start home outer beyond (s.downTo beyond.length)) ∧
      s.environment.Spares (s.downTo beyond.length).environment ∧
        (s.downTo beyond.length).StoresToMutable beyond.length :=
    downTo_invariant (P := fun u => ((∃ inner, Reading start home outer beyond inner u) ∨
        Finished start home outer beyond u) ∧ s.environment.Spares u.environment ∧
          u.StoresToMutable beyond.length)
      ⟨.inl ⟨depth, reading⟩, s.environment.keepsMarks_refl.spares, stores⟩
      fun t u here more stepped => by
    obtain ⟨place, spares, stores⟩ := here
    rcases place with ⟨inner, reading⟩ | ⟨outside, -, -⟩
    · refine ⟨reading.step function pass around stepped, ?_, stores.step stepped⟩
      exact spares.trans (reading.toUnderway.step_spares function pass around
        (fun _ _ _ takes => stores.here more takes) stepped)
    · exact absurd more (by rw [handOn_remaining, outside.remaining]; exact Nat.lt_irrefl _)
  exact kept.2.1

section Transport

variable {text other : List Token} {left : Nat}

-- What is behind a place has no part in what is stored ahead of it.
theorem Ahead.storesToMutable {s t : AnalysisState}
    (level : ∀ depth, Chunk.skipBlock depth text = Chunk.skipBlock depth other)
    (ahead : Ahead text other s t) (stores : t.StoresToMutable other.length) :
    s.StoresToMutable text.length := by
  obtain ⟨front, whole, remaining, rfl⟩ := ahead.front
  cases front with
  | nil => exact storesToMutable_of_le (by rw [remaining]; exact Nat.le_refl _)
  | cons first front =>
      refine storesToMutable_of_step ?_ fun u stepped => ?_
      · rintro - word words later ⟨head, tail, same, found⟩
        rw [remaining] at same
        cases same
        obtain ⟨chunk, beyond, -, reads⟩ := Chunk.next_front whole
        have taken := (reads text).symm.trans found
        cases taken
        refine stores.here ?_ ⟨first, front ++ other, rfl, reads other⟩
        show other.length < (first :: front ++ other).length
        simp only [List.cons_append, List.length_cons, List.length_append]
        omega
      · have before : s.remaining ≠ text := by
          intro same
          have length := congrArg List.length (remaining.symm.trans same)
          simp only [List.cons_append, List.length_cons, List.length_append] at length
          omega
        obtain ⟨s', t', mine, theirs, both⟩ := ahead.step level before
        cases mine.symm.trans stepped
        rcases both with further | ⟨-, depth, skipped⟩
        · exact Ahead.storesToMutable level further (stores.step theirs)
        · refine storesToMutable_of_le ?_
          rw [skipped]
          cases found : Chunk.skipBlock depth text with
          | none => exact Nat.zero_le _
          | some rest => exact (Chunk.skipBlock_suffix found).length_le
termination_by s.remaining.length
decreasing_by exact step_remaining_lt mine

theorem Like.storesToMutable {σ : Slack} {s t : AnalysisState} (like : s.Like σ t) (stores : t.StoresToMutable left) :
    s.StoresToMutable left := by
  refine storesToMutable_of_step (fun more first rest later takes => ?_) fun u stepped => ?_
  · have theirs := stores.here (by rw [like.remaining]; exact more)
      (by unfold Takes at takes ⊢; rwa [like.remaining])
    intro target v stored resolved outside
    have alike := like.environment.resolveVariable target
    rw [resolved] at alike
    generalize found : t.environment.resolveVariable target = w at alike
    cases alike with
    | ok related =>
        have same := related.1
        have here := theirs target _ stored found
        rw [same] at here
        exact here outside
  · have both := like.step
    rw [stepped] at both
    generalize stepped' : t.step = v at both
    cases both with
    | some both => exact Like.storesToMutable both (stores.step stepped')
termination_by s.remaining.length
decreasing_by exact step_remaining_lt stepped

end Transport

end AnalysisState

end MiLanguage
