import MiLanguage.Proofs.Control.Semantics
import MiLanguage.Proofs.Naming.Sight

set_option autoImplicit false

namespace MiLanguage

namespace Node

-- The words in front of a definition.
def modifierWords (n : Node) : List Modifier :=
  ((n.child? .modifiers).map Node.children).getD [] |>.filterMap fun c =>
    c.token.bind (·.kind.modifier?)

-- The nodes that bring a name into sight of what is behind.
def definitions (n : Node) : List Node :=
  match n.kind with
  | .varDefinition | .varDefAndSetValue => [n]
  | .parameters => n.children.filter (·.kind = .parameter)
  | _ => []

theorem definitions_of_kind {n : Node} (silent : n.kind.introduces = false) : n.definitions = [] := by
  unfold definitions
  split <;> simp_all [NodeKind.introduces]

theorem locals_of_definitions {n : Node} (undefined : n.definitions = []) : n.locals = [] := by
  cases kind : n.kind with
  | parameters =>
      simp only [definitions, kind, List.filter_eq_nil_iff] at undefined
      simp only [locals, kind, List.filterMap_eq_nil_iff]
      intro c member
      rw [if_neg (by simpa using undefined c member)]
  | varDefinition | varDefAndSetValue => simp [definitions, kind] at undefined
  | _ => exact locals_of_kind (by rw [kind]; rfl)

end Node

theorem NodeKind.not_isFunction_of_flat {kind : NodeKind} (flat : kind.encloses = false) :
    kind.isFunction = false := by
  cases kind <;> simp_all [NodeKind.encloses, NodeKind.isFunction]

/-- A local variable or a parameter. `ordinal` counts the definitions that the tree has before its
own, so no two variables share one. -/
structure Definition where
  ordinal : Nat
  node : Node

-- What a name stands for here: the definition that is the last to give it.
def latest? (locals : List Definition) (name : String) : Option Definition :=
  locals.reverse.find? (·.node.title = some name)

/-- A place in the tree where a variable gets a value, and what is in sight there. -/
structure Store where
  sight : Sight
  locals : List Definition
  node : Node

/-- What is in sight at some point of the way through a tree, and what has been come by. -/
structure Journey where
  sight : Sight := {}
  locals : List Definition := []
  defined : Nat := 0
  stores : List Store := []

-- The definitions in a row, the first of them after `count` others.
def numbered (count : Nat) : List Node → List Definition
  | [] => []
  | n :: ns => ⟨count, n⟩ :: numbered (count + 1) ns

namespace Journey

-- On into a node.
def enter (j : Journey) (n : Node) : Journey where
  sight := j.sight.inside n
  locals := if n.kind.isFunction then [] else j.locals
  defined := j.defined
  stores := if n.kind = .varSetValue then j.stores ++ [⟨j.sight, j.locals, n⟩] else j.stores

-- Past a node, after the way through it has come to `inner`.
def leave (j : Journey) (n : Node) (inner : Journey) : Journey :=
  if j.sight.body then
    { sight := j.sight.after n
      locals := j.locals ++ numbered inner.defined n.definitions
      defined := inner.defined + n.definitions.length
      stores := inner.stores }
  else { j with defined := inner.defined, stores := inner.stores }

mutual

def through (j : Journey) : Node → Journey
  | ⟨kind, token, children, line, type⟩ =>
      let n : Node := ⟨kind, token, children, line, type⟩
      j.leave n (along (j.enter n) children)

def along (j : Journey) : List Node → Journey
  | [] => j
  | n :: ns => along (through j n) ns

end

theorem through_eq (j : Journey) (n : Node) : j.through n = j.leave n ((j.enter n).along n.children) := by
  cases n
  rw [through]

@[simp] theorem along_nil (j : Journey) : j.along [] = j := by rw [along]

@[simp] theorem along_cons (j : Journey) (n : Node) (ns : List Node) :
    j.along (n :: ns) = (j.through n).along ns := by rw [along]

theorem along_append (j : Journey) (ns more : List Node) :
    j.along (ns ++ more) = (j.along ns).along more := by
  induction ns generalizing j with
  | nil => simp
  | cons n ns ih => simp [ih]

theorem leave_sight (j inner : Journey) (n : Node) : (j.leave n inner).sight = j.sight.after n := by
  unfold leave
  split
  next => rfl
  next outside => exact (j.sight.after_of_body n (by simpa using outside)).symm

theorem leave_stores (j inner : Journey) (n : Node) : (j.leave n inner).stores = inner.stores := by
  unfold leave
  split <;> rfl

theorem through_sight (j : Journey) (n : Node) : (j.through n).sight = j.sight.after n := by
  rw [through_eq, leave_sight]

theorem along_sight (j : Journey) (ns : List Node) : (j.along ns).sight = j.sight.afterAll ns := by
  induction ns generalizing j with
  | nil => simp
  | cons n ns ih => rw [along_cons, ih, through_sight, Sight.afterAll_cons]

/-- The definitions come by so far have the ordinals below the count. -/
structure Sound (j : Journey) : Prop where
  locals : ∀ d ∈ j.locals, d.ordinal < j.defined
  stores : ∀ s ∈ j.stores, ∀ d ∈ s.locals, d.ordinal < j.defined

end Journey

theorem mem_numbered {count : Nat} {ns : List Node} {d : Definition} (member : d ∈ numbered count ns) :
    count ≤ d.ordinal ∧ d.ordinal < count + ns.length := by
  induction ns generalizing count with
  | nil => cases member
  | cons n ns ih =>
      rw [List.length_cons]
      rcases List.mem_cons.mp member with rfl | member
      · exact ⟨Nat.le_refl _, by dsimp only; omega⟩
      · have := ih member
        omega

namespace Journey

/-- A journey that goes on keeps what has been come by. -/
structure Onward (j later : Journey) : Prop where
  defined : j.defined ≤ later.defined
  stores : ∃ more, later.stores = j.stores ++ more

theorem onward_refl (j : Journey) : j.Onward j := ⟨Nat.le_refl _, [], by simp⟩

theorem Onward.trans {a b c : Journey} (first : a.Onward b) (second : b.Onward c) : a.Onward c := by
  obtain ⟨more, same⟩ := first.stores
  obtain ⟨more', same'⟩ := second.stores
  exact ⟨Nat.le_trans first.defined second.defined, more ++ more', by rw [same', same, List.append_assoc]⟩

theorem onward_enter (j : Journey) (n : Node) : j.Onward (j.enter n) := by
  refine ⟨Nat.le_refl _, ?_⟩
  unfold enter
  dsimp only
  split
  next => exact ⟨_, rfl⟩
  next => exact ⟨[], by simp⟩

theorem onward_leave (j inner : Journey) (n : Node) : inner.Onward (j.leave n inner) := by
  unfold leave
  split
  next => exact ⟨by dsimp only; omega, [], by simp⟩
  next => exact ⟨Nat.le_refl _, [], by simp⟩

mutual

theorem onward_through (j : Journey) : (n : Node) → j.Onward (j.through n)
  | ⟨kind, token, children, line, type⟩ => by
      rw [through_eq]
      exact ((j.onward_enter _).trans (onward_along _ children)).trans (j.onward_leave _ _)

theorem onward_along (j : Journey) : (ns : List Node) → j.Onward (j.along ns)
  | [] => by
      rw [along_nil]
      exact j.onward_refl
  | n :: ns => by
      rw [along_cons]
      exact (onward_through j n).trans (onward_along _ ns)

end

theorem Sound.enter {j : Journey} (sound : j.Sound) (n : Node) : (j.enter n).Sound where
  locals := by
    unfold Journey.enter
    dsimp only
    split
    next => nofun
    next => exact sound.locals
  stores := by
    unfold Journey.enter
    dsimp only
    split
    next =>
      intro s member d inside
      rcases List.mem_append.mp member with member | member
      · exact sound.stores s member d inside
      · cases List.mem_singleton.mp member
        exact sound.locals d inside
    next => exact sound.stores

theorem Sound.leave {j inner : Journey} (sound : j.Sound) (onward : j.Onward inner)
    (within : inner.Sound) (n : Node) : (j.leave n inner).Sound := by
  unfold Journey.leave
  split
  next =>
    refine ⟨fun d member => ?_, fun s member d inside => ?_⟩
    · rcases List.mem_append.mp member with member | member
      · exact Nat.lt_of_lt_of_le (sound.locals d member) (Nat.le_add_right_of_le onward.defined)
      · exact (mem_numbered member).2
    · exact Nat.lt_of_lt_of_le (within.stores s member d inside) (Nat.le_add_right _ _)
  next =>
    exact ⟨fun d member => Nat.lt_of_lt_of_le (sound.locals d member) onward.defined, within.stores⟩

mutual

theorem Sound.through {j : Journey} (sound : j.Sound) : (n : Node) → (j.through n).Sound
  | ⟨kind, token, children, line, type⟩ => by
      rw [through_eq]
      have inner := Sound.along (sound.enter ⟨kind, token, children, line, type⟩) children
      exact sound.leave ((j.onward_enter _).trans (onward_along _ children)) inner _

theorem Sound.along {j : Journey} (sound : j.Sound) : (ns : List Node) → (j.along ns).Sound
  | [] => by
      rw [along_nil]
      exact sound
  | n :: ns => by
      rw [along_cons]
      exact Sound.along (sound.through n) ns

end

section Flat

variable {n : Node}

theorem enter_of_flat (j : Journey) (flat : n.kind.encloses = false) (other : n.kind ≠ .varSetValue) :
    j.enter n = j := by
  unfold enter
  rw [j.sight.inside_of_flat flat, if_neg (by simp [NodeKind.not_isFunction_of_flat flat]),
    if_neg other]

theorem enter_withChildren (j : Journey) (other : n.kind ≠ .varSetValue)
    (titled : n.kind = .createModule ∨ n.kind = .createClass → n.title?.isSome = true)
    (more : List Node) : j.enter (n.withChildren more) = j.enter n := by
  have kind : (n.withChildren more).kind = n.kind := rfl
  unfold enter
  rw [j.sight.inside_withChildren titled, kind, if_neg other, if_neg other]

theorem leave_silent (j inner : Journey) (silent : n.definitions = []) :
    j.leave n inner = { j with defined := inner.defined, stores := inner.stores } := by
  unfold leave
  rw [j.sight.after_of_locals (Node.locals_of_definitions silent), silent]
  simp [numbered]

theorem leave_outside (j inner : Journey) (outside : j.sight.body = false) :
    j.leave n inner = { j with defined := inner.defined, stores := inner.stores } := by
  unfold leave
  rw [if_neg (by simp [outside])]

end Flat

end Journey

-- No variable gets a value in the node, and what is in it sees what the node sees.
def Node.Quiet (n : Node) : Prop := n.Every fun m => m.kind ≠ .varSetValue ∧ m.kind.encloses = false

-- Moreover it brings nothing into sight.
def Node.Still (n : Node) : Prop := n.Quiet ∧ n.Every (·.definitions = [])

namespace Journey

mutual

-- A node in which no variable gets a value and none is defined leaves nothing behind.
theorem through_quiet (j : Journey) : (n : Node) → n.Quiet →
    j.sight.body = false ∨ n.Every (·.definitions = []) → j.through n = j
  | ⟨kind, token, children, line, type⟩, quiet, silent => by
      obtain ⟨other, flat⟩ := quiet.top
      rw [through_eq, j.enter_of_flat flat other, along_quiet j children
        (fun c member => quiet.child member) (silent.imp_right fun every c member => every.child member)]
      rcases silent with outside | every
      · exact j.leave_outside j outside
      · exact j.leave_silent j every.top

theorem along_quiet (j : Journey) : (ns : List Node) → (∀ n ∈ ns, n.Quiet) →
    (j.sight.body = false ∨ ∀ n ∈ ns, n.Every (·.definitions = [])) → j.along ns = j
  | [], _, _ => by rw [along_nil]
  | n :: ns, quiet, silent => by
      rw [along_cons, through_quiet j n (quiet n (by simp)) (silent.imp_right fun each => each n (by simp))]
      exact along_quiet j ns (fun m member => quiet m (by simp [member]))
        (silent.imp_right fun each m member => each m (by simp [member]))

end

section Parts

variable {n : Node}

theorem through_still (j : Journey) (still : n.Still) : j.through n = j :=
  j.through_quiet n still.1 (.inr still.2)

theorem along_still (j : Journey) {ns : List Node} (still : ∀ n ∈ ns, n.Still) : j.along ns = j :=
  j.along_quiet ns (fun n member => (still n member).1) (.inr fun n member => (still n member).2)

theorem through_defining (j : Journey) (flat : n.kind.encloses = false)
    (other : n.kind ≠ .varSetValue) (parts : ∀ c ∈ n.children, c.Still) :
    j.through n = j.leave n j := by
  rw [through_eq, j.enter_of_flat flat other, j.along_still parts]

theorem through_giving (j : Journey) (kind : n.kind = .varSetValue)
    (parts : ∀ c ∈ n.children, c.Still) :
    j.through n = { j with stores := j.stores ++ [⟨j.sight, j.locals, n⟩] } := by
  have flat : n.kind.encloses = false := by rw [kind]; rfl
  have entered : j.enter n = { j with stores := j.stores ++ [⟨j.sight, j.locals, n⟩] } := by
    unfold enter
    rw [j.sight.inside_of_flat flat, if_neg (by simp [NodeKind.not_isFunction_of_flat flat]),
      if_pos kind]
  rw [through_eq, entered, along_still _ parts]
  exact j.leave_silent _ (Node.definitions_of_kind (by rw [kind]; rfl))

theorem through_flat (j : Journey) (flat : n.kind.encloses = false)
    (other : n.kind ≠ .varSetValue) (silent : n.definitions = []) :
    j.through n = { j with
      defined := (j.along n.children).defined, stores := (j.along n.children).stores } := by
  rw [through_eq, j.enter_of_flat flat other]
  exact j.leave_silent _ silent

end Parts

mutual

theorem stores_through (j : Journey) : (n : Node) →
    (j.through n).stores.map Store.node = j.stores.map Store.node ++ n.findAll .varSetValue
  | ⟨kind, token, children, line, type⟩ => by
      rw [through_eq, leave_stores, stores_along]
      unfold enter Node.findAll
      rw [Node.preorder, List.filter_cons]
      dsimp only
      split
      next same => simp [same]
      next other => simp [other]

theorem stores_along (j : Journey) : (ns : List Node) →
    (j.along ns).stores.map Store.node =
      j.stores.map Store.node ++ (Node.preorderAll ns).filter (·.kind = .varSetValue)
  | [] => by simp
  | n :: ns => by
      rw [along_cons, stores_along _ ns, stores_through j n, Node.preorderAll_cons, List.filter_append,
        List.append_assoc]
      rfl

end

end Journey

-- The places in a tree where variables get values.
def Node.stores (n : Node) : List Store := (Journey.through {} n).stores

theorem Node.stores_eq_findAll (n : Node) : n.stores.map Store.node = n.findAll .varSetValue :=
  Journey.stores_through {} n

end MiLanguage
