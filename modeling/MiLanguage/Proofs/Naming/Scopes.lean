import MiLanguage.Proofs.Naming.Environment

set_option autoImplicit false

namespace MiLanguage

/-- The same variables, with the same types. -/
inductive Frame.Marked : Frame → Frame → Prop
  | refl (f : Frame) : Marked f f
  | block {kind : BlockKind} {old new : Block} :
      (∀ name, (new.locals.find? name).map (·.declaration.type) =
        (old.locals.find? name).map (·.declaration.type)) →
      Marked (.block kind old) (.block kind new)
  | fields {id : ModuleId} {c : ClassDeclaration} {fields : SymbolTable Variable} :
      c.fields.Marked fields → Marked (.class id c) (.class id { c with fields })

structure Scope.Marked (old new : Scope) : Prop where
  node : new.node = old.node
  discard : new.discard = old.discard
  frame : old.frame.Marked new.frame

namespace Frame

variable {old new : Frame}

theorem Marked.kind (marked : old.Marked new) : new.blockKind? = old.blockKind? := by
  cases marked <;> rfl

theorem Marked.isBlock (marked : old.Marked new) : new.isBlock = old.isBlock := by
  cases marked <;> rfl

theorem Marked.isModule (marked : old.Marked new) : new.isModule = old.isModule := by
  cases marked <;> rfl

theorem Marked.isFunction (marked : old.Marked new) : new.isFunction = old.isFunction := by
  unfold Frame.isFunction
  rw [marked.kind]

theorem Marked.moduleId? (marked : old.Marked new) : new.moduleId? = old.moduleId? := by
  cases marked <;> rfl

theorem Marked.class? (marked : old.Marked new) :
    new.class? = old.class? ∨ ∃ id c fields, old.class? = some (id, c) ∧
      c.fields.Marked fields ∧ new.class? = some (id, { c with fields }) := by
  cases marked with
  | refl => exact .inl rfl
  | block => exact .inl rfl
  | fields marks => exact .inr ⟨_, _, _, rfl, marks, rfl⟩

-- What a name stands for in this scope itself.
def here (f : Frame) (name : String) : Option LocalVariable := f.block?.bind (·.locals.find? name)

theorem Marked.here (marked : old.Marked new) (name : String) :
    (new.here name).map (·.declaration.type) = (old.here name).map (·.declaration.type) := by
  cases marked with
  | refl => rfl
  | block same => exact same name
  | fields => rfl

end Frame

section Lookup

variable {scope : Scope} {outer : List Scope} {name : String}

theorem upTo_of_none {p : Scope → Bool} {scopes : List Scope} (outside : scopes.any p = false) :
    ScopeStack.upTo p scopes = [] := by
  induction scopes with
  | nil => rfl
  | cons scope outer ih =>
      simp only [List.any_cons, Bool.or_eq_false_iff] at outside
      simp [ScopeStack.upTo, outside.1, ih outside.2]

theorem upTo_of_some {p : Scope → Bool} {scopes : List Scope} (among : scopes.any p = true) :
    ScopeStack.upTo p scopes ≠ [] := by
  induction scopes with
  | nil => cases among
  | cons scope outer ih =>
      unfold ScopeStack.upTo
      split
      next => simp
      next other =>
        have later : outer.any p = true := by simpa [other] using among
        split
        next empty => exact absurd empty (ih later)
        next => simp

theorem lookupIn_outside {scopes : List Scope}
    (outside : scopes.any (·.frame.isFunction) = false) : lookupIn scopes name = none := by
  unfold lookupIn
  rw [upTo_of_none outside]
  rfl

theorem lookupIn_function (function : scope.frame.isFunction = true) :
    lookupIn (scope :: outer) name = scope.frame.here name := by
  unfold lookupIn ScopeStack.upTo
  rw [if_pos function, List.findSome?_cons]
  unfold Frame.here
  cases scope.frame.block?.bind _ <;> rfl

theorem lookupIn_block (inner : scope.frame.isFunction = false)
    (inside : outer.any (·.frame.isFunction) = true) :
    lookupIn (scope :: outer) name = (scope.frame.here name).or (lookupIn outer name) := by
  have found := upTo_of_some inside
  unfold lookupIn
  rw [ScopeStack.upTo, if_neg (by simp [inner])]
  generalize ScopeStack.upTo _ outer = around at found ⊢
  cases around with
  | nil => exact absurd rfl found
  | cons first others =>
      simp only [List.findSome?_cons (a := scope), Frame.here]
      cases scope.frame.block?.bind (·.locals.find? name) <;> rfl

theorem lookupIn_marked {old new : List Scope}
    (marked : List.Forall₂ (fun a b : Scope => a.frame.Marked b.frame) old new) (name : String) :
    (lookupIn new name).map (·.declaration.type) = (lookupIn old name).map (·.declaration.type) := by
  have any : ∀ {old new : List Scope},
      List.Forall₂ (fun a b : Scope => a.frame.Marked b.frame) old new →
      new.any (·.frame.isFunction) = old.any (·.frame.isFunction) := by
    intro old new marked
    induction marked with
    | nil => rfl
    | cons head _ ih => simp only [List.any_cons, head.isFunction, ih]
  induction marked with
  | nil => rfl
  | @cons scope scope' outer outer' head tail ih =>
      cases function : scope.frame.isFunction with
      | true =>
          rw [lookupIn_function function, lookupIn_function (head.isFunction.trans function)]
          exact head.here name
      | false =>
          have function' := head.isFunction.trans function
          cases inside : outer.any (·.frame.isFunction) with
          | true =>
              rw [lookupIn_block function inside, lookupIn_block function' ((any tail).trans inside),
                Option.map_or, Option.map_or, ih, head.here]
          | false =>
              have outside : (scope :: outer).any (·.frame.isFunction) = false := by
                rw [List.any_cons, function, inside]
                rfl
              rw [lookupIn_outside outside, lookupIn_outside ((any (.cons head tail)).trans outside)]

end Lookup

namespace Stands

variable {t : ModuleTree} {whole : Bool} {s : Sight} {scope : Scope} {outer old new : List Scope}
  {id : ModuleId}

theorem marked (stands : Stands t whole old s)
    (marked : List.Forall₂ (fun a b : Scope => a.frame.Marked b.frame) old new) :
    Stands t whole new s := by
  have module : new.findSome? (·.frame.moduleId?) = old.findSome? (·.frame.moduleId?) := by
    clear stands
    induction marked with
    | nil => rfl
    | cons head _ ih => simp only [List.findSome?_cons, head.moduleId?, ih]
  have function : new.any (·.frame.isFunction) = old.any (·.frame.isFunction) := by
    clear stands module
    induction marked with
    | nil => rfl
    | cons head _ ih => simp only [List.any_cons, head.isFunction, ih]
  have found : new.findSome? (·.frame.class?) = old.findSome? (·.frame.class?) ∨
      ∃ id c fields, old.findSome? (·.frame.class?) = some (id, c) ∧ c.fields.Marked fields ∧
        new.findSome? (·.frame.class?) = some (id, { c with fields }) := by
    clear stands module function
    induction marked with
    | nil => exact .inl rfl
    | @cons scope scope' _ _ head _ ih =>
        rw [List.findSome?_cons, List.findSome?_cons]
        rcases head.class? with same | ⟨id, c, fields, before, marks, after⟩
        · rw [same]
          cases scope.frame.class? with
          | none => exact ih
          | some => exact .inl rfl
        · rw [before, after]
          exact .inr ⟨id, c, fields, rfl, marks, rfl⟩
  have head : ∀ scope' ∈ new.head?, ∃ scope ∈ old.head?, scope.frame.Marked scope'.frame := by
    cases marked with
    | nil =>
        intro scope' member
        cases member
    | cons head =>
        intro scope' member
        cases member
        exact ⟨_, rfl, head⟩
  refine ⟨?_, ?_, ?_, ?_, stands.complete, ?_, ?_, ?_, stands.plain, stands.types⟩
  · rw [module]
    exact stands.place
  · rw [stands.owner]
    rcases found with same | ⟨_, _, _, before, _, after⟩
    · rw [same]
    · rw [before, after]
      rfl
  · intro id c here
    rcases found with same | ⟨_, earlier, _, before, marks, after⟩
    · exact stands.class id c (same.symm.trans here)
    · rw [after] at here
      cases here
      obtain ⟨path, known, d, there, grown, complete⟩ := stands.class _ _ before
      refine ⟨path, ⟨known.origin, marks.known known.fields, known.methods, known.constructor⟩, d,
        there, ?_, fun whole => ?_⟩
      · exact ⟨grown.name, grown.modifiers, grown.origin, marks.offered.trans grown.fields,
          grown.methods⟩
      · have back := complete whole
        exact ⟨back.name, back.modifiers, back.origin, back.fields.trans marks.offers, back.methods⟩
  · rw [function]
    exact stands.body
  · intro scope' member
    obtain ⟨scope, there, marks⟩ := head scope' member
    rw [marks.isBlock]
    exact stands.level scope there
  · intro scope' member isModule
    obtain ⟨scope, there, marks⟩ := head scope' member
    exact stands.bare scope there (marks.isModule.symm.trans isModule)
  · intro name
    have types := congrArg (Option.map (name, ·)) (lookupIn_marked marked name)
    rw [Option.map_map, Option.map_map] at types
    rw [stands.locals name]
    exact congrArg Option.toList types.symm

theorem locals_outside (stands : Stands t whole outer s) (outside : s.body = false) : s.locals = [] := by
  apply List.eq_nil_iff_forall_not_mem.mpr
  intro l member
  have unnamed := stands.locals l.1
  rw [lookupIn_outside (stands.body.symm.trans outside)] at unnamed
  have inside : l ∈ s.locals.filter (·.1 = l.1) := by simp [member]
  rw [unnamed] at inside
  cases inside

theorem outside_of_level (stands : Stands t whole (scope :: outer) s) (bare : scope.frame.isBlock = false) :
    s.body = false :=
  (stands.level scope rfl).trans bare

theorem class_of_module (stands : Stands t whole (scope :: outer) s)
    (isModule : scope.frame.isModule = true) :
    (scope :: outer).findSome? (·.frame.class?) = none := by
  have ownerless := stands.owner
  rw [stands.bare scope rfl isModule] at ownerless
  exact Option.map_eq_none_iff.mp ownerless.symm

theorem base (root : scope.frame = .parent ModuleTree.root) : Stands t whole [scope] {} where
  place := by
    simp [root, Frame.moduleId?, ModuleTree.pathSegments_root]
  owner := by simp [root, Frame.class?]
  «class» id c found := by simp [root, Frame.class?] at found
  body := by simp [root, Frame.isFunction, Frame.blockKind?]
  complete := nofun
  level top member := by
    cases member
    rw [root]
    rfl
  bare _ _ _ := rfl
  locals name := by
    rw [lookupIn_outside (by simp [root, Frame.isFunction, Frame.blockKind?])]
    rfl
  plain := nofun
  types := nofun

-- What is behind a block has the places that were there.
theorem around_block {kind : BlockKind} {b : Block} (outer : List Scope)
    (frame : scope.frame = .block kind b) :
    (scope :: outer).findSome? (·.frame.moduleId?) =
        outer.findSome? (·.frame.moduleId?) ∧
      (scope :: outer).findSome? (·.frame.class?) =
        outer.findSome? (·.frame.class?) := by
  rw [List.findSome?_cons, List.findSome?_cons, frame]
  exact ⟨rfl, rfl⟩

section Push

variable {top : Scope} {below : List Scope} (stands : Stands t whole (top :: below) s)

include stands

theorem function_outside (scope : Scope) (bare : top.frame.isBlock = false)
    (inner : scope.frame.isFunction = false) :
    (scope :: top :: below).any (·.frame.isFunction) = false := by
  rw [List.any_cons, inner, ← stands.body, stands.outside_of_level bare]
  rfl

theorem openModule {path : List String} (isModule : top.frame.isModule = true)
    (frame : scope.frame = .module id) (here : t.pathSegments id = path) :
    Stands t whole (scope :: top :: below) { path } := by
  have classless := stands.class_of_module isModule
  have outside := stands.function_outside scope (isBlock_of_isModule isModule)
    (by rw [frame]; rfl)
  have classes : (scope :: top :: below).findSome? (·.frame.class?) = Option.none := by
    rw [List.findSome?_cons, frame]
    exact classless
  refine ⟨?_, ?_, ?_, outside.symm, nofun, ?_, fun _ _ _ => rfl, ?_, nofun, nofun⟩
  · rw [List.findSome?_cons, frame]
    exact here
  · rw [classes]
    rfl
  · intro id c found
    rw [classes] at found
    cases found
  · intro top member
    cases member
    rw [frame]
    rfl
  · intro name
    rw [lookupIn_outside outside]
    rfl

theorem openEnum {e : EnumDeclaration} (isModule : top.frame.isModule = true)
    (frame : scope.frame = .enum id e) (here : t.pathSegments id = s.path) :
    Stands t whole (scope :: top :: below) s := by
  have bare := isBlock_of_isModule isModule
  have outside := stands.function_outside scope bare (by rw [frame]; rfl)
  have body := stands.outside_of_level bare
  refine ⟨?_, ?_, ?_, body.trans outside.symm, stands.complete, ?_, ?_, ?_, stands.plain, stands.types⟩
  · rw [List.findSome?_cons, frame]
    exact here
  · rw [List.findSome?_cons, frame]
    exact stands.owner
  · intro id c found
    rw [List.findSome?_cons, frame] at found
    exact stands.class id c found
  · intro top member
    cases member
    rw [frame, body]
    rfl
  · exact fun _ _ _ => stands.bare top rfl isModule
  · intro name
    rw [lookupIn_outside outside, stands.locals_outside body]
    rfl

theorem openClass {c : ClassDeclaration} (isModule : top.frame.isModule = true)
    (frame : scope.frame = .class id c) (here : t.pathSegments id = s.path)
    (known : c.Known t id)
    (there : ∃ d, t.class? id c.name = some d ∧ c.Offers d ∧ (whole = true → d.Offers c)) :
    Stands t whole (scope :: top :: below) { path := s.path, owner := some c.label } := by
  have outside := stands.function_outside scope (isBlock_of_isModule isModule)
    (by rw [frame]; rfl)
  refine ⟨?_, ?_, ?_, outside.symm, nofun, ?_, ?_, ?_, nofun, nofun⟩
  · rw [List.findSome?_cons, frame]
    exact here
  · rw [List.findSome?_cons, frame]
    rfl
  · intro other d found
    rw [List.findSome?_cons, frame] at found
    cases found
    exact ⟨here, known, there⟩
  · intro top member
    cases member
    rw [frame]
    rfl
  · intro top member isModule
    cases member
    rw [frame] at isModule
    cases isModule
  · intro name
    rw [lookupIn_outside outside]
    rfl

theorem openBody {b : Block} (complete : whole = true) (frame : scope.frame = .block .function b)
    (fresh : b.locals = .empty) :
    Stands t whole (scope :: top :: below) { path := s.path, owner := s.owner, body := true } := by
  obtain ⟨modules, classes⟩ := around_block (top :: below) frame
  refine ⟨?_, ?_, ?_, ?_, fun _ => complete, ?_, ?_, ?_, nofun, nofun⟩
  · rw [modules]
    exact stands.place
  · rw [classes]
    exact stands.owner
  · intro id c found
    rw [classes] at found
    exact stands.class id c found
  · rw [List.any_cons, frame]
    rfl
  · intro top member
    cases member
    rw [frame]
    rfl
  · intro top member isModule
    cases member
    rw [frame] at isModule
    cases isModule
  · intro name
    rw [lookupIn_function (by rw [frame]; rfl), frame]
    simp [Frame.here, Frame.block?, fresh]

theorem openBlock {kind : BlockKind} {b : Block} (inside : top.frame.isBlock = true)
    (frame : scope.frame = .block kind b) (inner : kind ≠ .function) (fresh : b.locals = .empty) :
    Stands t whole (scope :: top :: below) s := by
  obtain ⟨modules, classes⟩ := around_block (top :: below) frame
  have notFunction : scope.frame.isFunction = false := by
    simpa [frame, Frame.isFunction, Frame.blockKind?] using inner
  have body : s.body = true := (stands.level top rfl).trans inside
  refine ⟨?_, ?_, ?_, ?_, stands.complete, ?_, ?_, ?_, stands.plain, stands.types⟩
  · rw [modules]
    exact stands.place
  · rw [classes]
    exact stands.owner
  · intro id c found
    rw [classes] at found
    exact stands.class id c found
  · rw [List.any_cons, notFunction]
    exact stands.body
  · intro top member
    cases member
    rw [frame]
    exact body
  · intro top member isModule
    cases member
    rw [frame] at isModule
    cases isModule
  · intro name
    rw [lookupIn_block notFunction (stands.body.symm.trans body), frame]
    simpa [Frame.here, Frame.block?, fresh] using stands.locals name

end Push

-- Another variable in the innermost block.
theorem declares {kind : BlockKind} {b : Block} {changed : Scope} {v : Variable} {height : Nat}
    (stands : Stands t whole (scope :: outer) s) (frame : scope.frame = .block kind b)
    (frame' : changed.frame = .block kind { b with locals := b.locals.insert v.name ⟨v, height⟩ })
    (fresh : lookupIn (scope :: outer) v.name = none) (plain : isDotted v.name = false)
    (known : t.Knows v.type) :
    Stands t whole (changed :: outer) { s with locals := s.locals ++ [(v.name, v.type)] } := by
  have body : s.body = true := by
    rw [stands.level scope rfl, frame]
    rfl
  have same : changed.frame.isFunction = scope.frame.isFunction := by
    rw [frame, frame']
    rfl
  have here : ∀ name, changed.frame.here name =
      if name = v.name then some ⟨v, height⟩ else scope.frame.here name := by
    intro name
    rw [frame, frame']
    exact SymbolTable.find?_insert _ _ _ _
  have found : ∀ name, lookupIn (changed :: outer) name =
      if name = v.name then some ⟨v, height⟩ else lookupIn (scope :: outer) name := by
    intro name
    cases function : scope.frame.isFunction with
    | true =>
        rw [lookupIn_function (same.trans function), lookupIn_function function]
        exact here name
    | false =>
        have inside := stands.body.symm.trans body
        rw [List.any_cons, function, Bool.false_or] at inside
        rw [lookupIn_block (same.trans function) inside, lookupIn_block function inside, here]
        split <;> rfl
  have modules : (changed :: outer).findSome? (·.frame.moduleId?) =
      (scope :: outer).findSome? (·.frame.moduleId?) := by
    rw [List.findSome?_cons, List.findSome?_cons, frame, frame']
    rfl
  have classes : (changed :: outer).findSome? (·.frame.class?) =
      (scope :: outer).findSome? (·.frame.class?) := by
    rw [List.findSome?_cons, List.findSome?_cons, frame, frame']
    rfl
  refine ⟨?_, ?_, ?_, ?_, stands.complete, ?_, ?_, ?_, ?_, ?_⟩
  · rw [modules]
    exact stands.place
  · rw [classes]
    exact stands.owner
  · intro id c there
    rw [classes] at there
    exact stands.class id c there
  · rw [List.any_cons, same]
    exact stands.body
  · intro top member
    cases member
    rw [frame']
    exact body
  · intro top member isModule
    cases member
    rw [frame'] at isModule
    cases isModule
  · intro name
    rw [List.filter_append, stands.locals name, found]
    by_cases own : name = v.name
    · subst own
      rw [if_pos rfl, fresh]
      simp
    · rw [if_neg own]
      simp [Ne.symm own]
  · intro l member
    rcases List.mem_append.mp member with member | member
    · exact stands.plain l member
    · rw [List.mem_singleton.mp member]
      exact plain
  · intro l member
    rcases List.mem_append.mp member with member | member
    · exact stands.types l member
    · rw [List.mem_singleton.mp member]
      exact known

end Stands

end MiLanguage
