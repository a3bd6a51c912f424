import MiLanguage.Proofs.Control.Semantics

set_option autoImplicit false

namespace MiLanguage

-- A loop is open, and no function inside of it.
def loopsAround : List Scope → Bool
  | [] => false
  | scope :: outer => !scope.frame.isFunction && (scope.frame.isLoop || loopsAround outer)

-- What the innermost open function returns.
def wantedIn : List Scope → Option Datatype
  | [] => none
  | scope :: outer =>
      if scope.frame.isFunction then scope.frame.block?.bind Block.returnType else wantedIn outer

namespace Node

/-- A node that may stand in the innermost of these scopes. -/
structure Fitting (scopes : List Scope) (n : Node) : Prop where
  jumps : ∀ jump, n.Escapes jump → loopsAround scopes = true
  gives : ∀ m ∈ n.preorder, m.kind = .returnValue → ∀ wanted, wantedIn scopes = some wanted →
    m.Gives wanted

end Node

-- The kind of node that a block other than a function's builds.
def BlockKind.statement? : BlockKind → Option NodeKind
  | function => none
  | branch => some .ifStatement
  | whileLoop => some .whileStatement
  | doLoop => some .doStatement
  | forLoop => some .forStatement
  | loopHead => some .forFakeScope

theorem BlockKind.statement?_eq_some {kind : BlockKind} {built : NodeKind}
    (builds : kind.statement? = some built) :
    built.isFunction = false ∧ built.isJump = false ∧ built ≠ .returnValue ∧
      built.isLoop = kind.isLoop := by
  cases kind <;> cases builds <;> exact ⟨rfl, rfl, by decide, rfl⟩

def headKind? (scopes : List Scope) : Option BlockKind :=
  scopes.head?.bind fun scope => scope.frame.blockKind?

/-- What a scope builds, and where it stands. -/
inductive Placed (outer : List Scope) : Frame → Node → Prop
  | declaration {frame : Frame} {n : Node} :
      frame.isBlock = false → n.kind.isFunction = false → headKind? outer = none →
      Placed outer frame n
  | function {b : Block} {n : Node} {wanted : Datatype} :
      b.returnType = some wanted →
      (n.kind = .functionDefinition ∧ n.declaredType? = some wanted) ∨
        (n.kind = .createConstructor ∧ wanted = .void) →
      outer ≠ [] → headKind? outer = none → Placed outer (.block .function b) n
  | block {kind around : BlockKind} {b : Block} {n : Node} :
      kind.statement? = some n.kind → headKind? outer = some around →
      (kind = .forLoop → around = .loopHead) → Placed outer (.block kind b) n

structure ScopeSound (outer : List Scope) (scope : Scope) : Prop where
  kept : scope.discard = false
  placed : Placed outer scope.frame scope.node
  sound : ∀ c ∈ scope.node.children, c.Sound
  fitting : scope.frame.isBlock = true → ∀ c ∈ scope.node.children, c.Fitting (scope :: outer)
  returned : ∀ kind b, scope.frame = .block kind b → b.returned = true →
    ∃ c ∈ scope.node.children, c.kind = .returnValue

def StackSound : List Scope → Prop
  | [] => True
  | scope :: outer => ScopeSound outer scope ∧ StackSound outer

theorem Frame.Updated.kind {old new : Frame} (updated : old.Updated new) :
    new.blockKind? = old.blockKind? := by
  cases updated <;> rfl

theorem isBlock_iff {frame : Frame} : frame.isBlock = frame.blockKind?.isSome := by
  cases frame <;> rfl

theorem Frame.Updated.type {old new : Frame} (updated : old.Updated new) :
    new.block?.bind Block.returnType = old.block?.bind Block.returnType := by
  cases updated with
  | refl => rfl
  | block type => exact type
  | fields => rfl

section Updated

variable {old new : List Scope}

theorem loopsAround_updated (updated : List.Forall₂ Scope.Updated old new) :
    loopsAround new = loopsAround old := by
  induction updated with
  | nil => rfl
  | cons head _ ih =>
      simp only [loopsAround, Frame.isFunction, Frame.isLoop, head.frame.kind, ih]

theorem wantedIn_updated (updated : List.Forall₂ Scope.Updated old new) :
    wantedIn new = wantedIn old := by
  induction updated with
  | nil => rfl
  | @cons scope scope' _ _ head _ ih =>
      have same : scope'.frame.isFunction = scope.frame.isFunction := by
        simp only [Frame.isFunction, head.frame.kind]
      simp only [wantedIn, same, head.frame.type, ih]

theorem headKind?_updated (updated : List.Forall₂ Scope.Updated old new) :
    headKind? new = headKind? old := by
  cases updated with
  | nil => rfl
  | cons head _ => exact head.frame.kind

theorem Node.Fitting.congr {n : Node} {scopes others : List Scope} (fitting : n.Fitting scopes)
    (loops : loopsAround others = loopsAround scopes) (wanted : wantedIn others = wantedIn scopes) :
    n.Fitting others := by
  refine ⟨?_, ?_⟩
  · rw [loops]
    exact fitting.jumps
  · rw [wanted]
    exact fitting.gives

theorem Placed.updated {outer outer' : List Scope} {frame frame' : Frame} {n : Node}
    (placed : Placed outer frame n) (updated : frame.Updated frame')
    (outers : List.Forall₂ Scope.Updated outer outer') : Placed outer' frame' n := by
  have around := headKind?_updated outers
  have above' : outer ≠ [] → outer' ≠ [] := by
    rintro above rfl
    cases outers
    exact above rfl
  have kind := updated.kind
  cases placed with
  | declaration nonBlock nonFunction bare =>
      exact .declaration (by rw [isBlock_iff, kind, ← isBlock_iff, nonBlock]) nonFunction
        (around.trans bare)
  | function type builds above bare =>
      cases updated with
      | refl => exact .function type builds (above' above) (around.trans bare)
      | block type' => exact .function (type'.trans type) builds (above' above) (around.trans bare)
  | block builds inside head =>
      cases updated with
      | refl => exact .block builds (around.trans inside) head
      | block => exact .block builds (around.trans inside) head

theorem StackSound.updated (sound : StackSound old) (updated : List.Forall₂ Scope.Updated old new) :
    StackSound new := by
  induction updated with
  | nil => trivial
  | @cons scope scope' outer outer' head tail ih =>
      obtain ⟨⟨kept, placed, children, fitting, returned⟩, rest⟩ := sound
      have both : List.Forall₂ Scope.Updated (scope :: outer) (scope' :: outer') := .cons head tail
      refine ⟨?_, ih rest⟩
      constructor
      · exact head.discard.trans kept
      · rw [head.node]
        exact placed.updated head.frame tail
      · rwa [head.node]
      · rw [head.node, isBlock_iff, head.frame.kind, ← isBlock_iff]
        intro block c member
        exact (fitting block c member).congr (loopsAround_updated both) (wantedIn_updated both)
      · rw [head.node]
        intro kind b frame flag
        have same := head.frame
        rw [frame] at same
        cases before : scope.frame with
        | block kind' b' =>
            rw [before] at same
            cases same with
            | refl => exact returned _ _ before flag
            | block _ _ kept => exact returned _ _ before (kept.symm.trans flag)
        | _ => rw [before] at same; cases same

end Updated

theorem Node.Inert.fitting {n : Node} (inert : n.Inert) (scopes : List Scope) :
    n.Fitting scopes :=
  ⟨fun jump escapes => absurd escapes (inert.not_escapes jump),
    fun _ member kind => absurd kind (inert.not_returns member)⟩

section Stack

variable {scope : Scope} {outer : List Scope} {c : Node}

theorem declaredType?_push {n : Node} {type : Datatype} (declared : n.declaredType? = some type)
    (c : Node) : (n.push c).declaredType? = some type := by
  obtain ⟨child, found, typed⟩ := Option.bind_eq_some_iff.mp declared
  have same : (n.push c).child? .type = some child := by
    unfold Node.child? at found ⊢
    rw [Node.push_children, List.find?_append, found]
    rfl
  exact Option.bind_eq_some_iff.mpr ⟨child, same, typed⟩

theorem Placed.push {frame : Frame} {n : Node} (placed : Placed outer frame n) (c : Node) :
    Placed outer frame (n.push c) := by
  cases placed with
  | declaration nonBlock nonFunction bare => exact .declaration nonBlock nonFunction bare
  | function type builds above bare =>
      refine .function type ?_ above bare
      rcases builds with ⟨kind, declared⟩ | builds
      · exact .inl ⟨kind, declaredType?_push declared c⟩
      · exact .inr builds
  | block builds inside head => exact .block builds inside head

theorem StackSound.append (stack : StackSound (scope :: outer)) (sound : c.Sound)
    (fitting : scope.frame.isBlock = true → c.Fitting (scope :: outer)) :
    StackSound ({ scope with node := scope.node.push c } :: outer) := by
  obtain ⟨⟨kept, placed, children, fittings, returned⟩, rest⟩ := stack
  refine ⟨⟨kept, placed.push c, ?_, ?_, ?_⟩, rest⟩
  · intro d member
    rcases List.mem_append.mp member with member | member
    · exact children d member
    · rw [List.mem_singleton.mp member]
      exact sound
  · intro block d member
    have fits : d.Fitting (scope :: outer) := by
      rcases List.mem_append.mp member with member | member
      · exact fittings block d member
      · rw [List.mem_singleton.mp member]
        exact fitting block
    exact fits.congr rfl rfl
  · intro kind b frame flag
    obtain ⟨d, member, returns⟩ := returned kind b frame flag
    exact ⟨d, List.mem_append_left _ member, returns⟩

-- The flag that a block is set with its `return`.
theorem StackSound.flag (stack : StackSound (scope :: outer)) {c : Node}
    (member : c ∈ scope.node.children) (returns : c.kind = .returnValue) (f : Block → Block)
    (type : ∀ b, (f b).returnType = b.returnType) :
    StackSound ({ scope with frame := scope.frame.modifyBlock f } :: outer) := by
  obtain ⟨⟨kept, placed, children, fittings, returned⟩, rest⟩ := stack
  cases frame : scope.frame with
  | block kind b =>
      refine ⟨⟨kept, ?_, children, ?_, fun _ _ _ _ => ⟨c, member, returns⟩⟩, rest⟩
      · rw [frame] at placed
        cases placed with
        | declaration nonBlock => cases nonBlock
        | function wanted builds above bare =>
            exact .function ((type b).trans wanted) builds above bare
        | block builds inside head => exact .block builds inside head
      · intro _ d member
        have fits : d.Fitting (scope :: outer) := fittings (by rw [frame]; rfl) d member
        refine fits.congr ?_ ?_
        · simp only [loopsAround, frame]
          rfl
        · simp only [wantedIn, frame]
          simp [Frame.modifyBlock, Frame.isFunction, Frame.blockKind?, Frame.block?, type]
  | _ =>
      refine ⟨⟨kept, ?_, children, ?_, ?_⟩, rest⟩
      · rw [frame] at placed
        exact placed
      · simp [Frame.modifyBlock, Frame.isBlock, Frame.block?]
      · simp [Frame.modifyBlock]

theorem StackSound.push_declaration {frame : Frame} {n : Node} (stack : StackSound outer)
    (nonBlock : frame.isBlock = false) (nonFunction : n.kind.isFunction = false)
    (bare : headKind? outer = none) (inert : ∀ c ∈ n.children, c.Inert) :
    StackSound ({ frame, node := n } :: outer) := by
  refine ⟨⟨rfl, .declaration nonBlock nonFunction bare, fun c member => (inert c member).sound,
    ?_, ?_⟩, stack⟩
  · intro block
    rw [nonBlock] at block
    cases block
  · intro kind b same
    cases same
    cases nonBlock

theorem StackSound.push_function {b : Block} {n : Node} {wanted : Datatype}
    (stack : StackSound outer) (type : b.returnType = some wanted) (fresh : b.returned = false)
    (builds : (n.kind = .functionDefinition ∧ n.declaredType? = some wanted) ∨
      (n.kind = .createConstructor ∧ wanted = .void))
    (above : outer ≠ []) (bare : headKind? outer = none) (inert : ∀ c ∈ n.children, c.Inert) :
    StackSound ({ frame := .block .function b, node := n } :: outer) := by
  refine ⟨⟨rfl, .function type builds above bare, fun c member => (inert c member).sound,
    fun _ c member => (inert c member).fitting _, ?_⟩, stack⟩
  intro kind b' same returned
  cases same
  rw [fresh] at returned
  cases returned

theorem StackSound.push_block {kind around : BlockKind} {n : Node} (stack : StackSound outer)
    (builds : kind.statement? = some n.kind) (inside : headKind? outer = some around)
    (head : kind = .forLoop → around = .loopHead) (inert : ∀ c ∈ n.children, c.Inert) :
    StackSound ({ frame := .block kind {}, node := n } :: outer) := by
  refine ⟨⟨rfl, .block builds inside head, fun c member => (inert c member).sound,
    fun _ c member => (inert c member).fitting _, ?_⟩, stack⟩
  intro kind b same returned
  cases same
  cases returned

theorem ScopeSound.declaration_closes (sound : ScopeSound outer scope)
    (nonBlock : scope.frame.isBlock = false) : scope.node.Sound ∧ headKind? outer = none := by
  obtain ⟨_, placed, children, _, _⟩ := sound
  generalize scope.frame = frame at placed nonBlock
  cases placed with
  | declaration _ nonFunction bare =>
      exact ⟨Node.every_iff.mpr ⟨Node.functionSound_of_not nonFunction, children⟩, bare⟩
  | _ => cases nonBlock

-- The body of a function keeps what its header promises.
theorem ScopeSound.function_closes {b : Block} (sound : ScopeSound outer scope)
    (frame : scope.frame = .block .function b)
    (returns : ∀ type, b.returnType = some type → type.isVoid = true ∨ b.returned = true) :
    scope.node.Sound ∧ headKind? outer = none := by
  obtain ⟨_, placed, children, fittings, returned⟩ := sound
  have block : scope.frame.isBlock = true := by rw [frame]; rfl
  have loops : loopsAround (scope :: outer) = false := by
    simp [loopsAround, frame, Frame.isFunction, Frame.blockKind?]
  rw [frame] at placed
  cases placed with
  | declaration nonBlock => cases nonBlock
  | block builds => cases builds
  | @function _ _ wanted type builds _ bare =>
      have wantedHere : wantedIn (scope :: outer) = some wanted := by
        simp [wantedIn, frame, Frame.isFunction, Frame.blockKind?, Frame.block?, type]
      have quiet : scope.node.kind.isJump = false ∧ scope.node.kind ≠ .returnValue := by
        rcases builds with ⟨kind, _⟩ | ⟨kind, _⟩ <;> simp [kind, NodeKind.isJump]
      have controlSound : scope.node.ControlSound wanted := by
        refine Node.controlSound_of quiet.1 ?_ ?_ ?_
        · intro child member jump escapes
          have around := (fittings block child member).jumps jump escapes
          rw [loops] at around
          cases around
        · intro storable
          rcases returns wanted type with void | flag
          · rw [storable] at void
            cases void
          · exact returned _ b frame flag
        · intro m member kind
          rcases Node.mem_preorder_iff.mp member with rfl | ⟨child, below, member⟩
          · exact absurd kind quiet.2
          · exact (fittings block child below).gives m member kind wanted wantedHere
      refine ⟨Node.every_iff.mpr ⟨⟨?_, ?_⟩, children⟩, bare⟩
      · intro kind
        rcases builds with ⟨_, declared⟩ | ⟨other, _⟩
        · exact ⟨wanted, declared, controlSound⟩
        · rw [kind] at other
          cases other
      · intro kind
        rcases builds with ⟨other, _⟩ | ⟨_, rfl⟩
        · rw [kind] at other
          cases other
        · exact controlSound

theorem ScopeSound.lowest_closes (sound : ScopeSound [] scope) : scope.node.Sound := by
  obtain ⟨_, placed, children, _, _⟩ := sound
  generalize scope.frame = frame at placed
  cases placed with
  | declaration _ nonFunction =>
      exact Node.every_iff.mpr ⟨Node.functionSound_of_not nonFunction, children⟩
  | function _ _ above => exact absurd rfl above
  | block _ inside => cases inside

theorem ScopeSound.block_closes {kind : BlockKind} {b : Block} (sound : ScopeSound outer scope)
    (frame : scope.frame = .block kind b) (inner : kind ≠ .function) :
    scope.node.Sound ∧ scope.node.Fitting outer ∧ kind.statement? = some scope.node.kind ∧
      (kind = .forLoop → headKind? outer = some .loopHead) := by
  obtain ⟨_, placed, children, fittings, _⟩ := sound
  have block : scope.frame.isBlock = true := by rw [frame]; rfl
  rw [frame] at placed
  cases placed with
  | declaration nonBlock => cases nonBlock
  | function => exact absurd rfl inner
  | @block _ around _ _ builds inside head =>
      obtain ⟨nonFunction, nonJump, nonReturn, loop⟩ := BlockKind.statement?_eq_some builds
      refine ⟨Node.every_iff.mpr ⟨Node.functionSound_of_not nonFunction, children⟩, ⟨?_, ?_⟩,
        builds, fun same => by rw [inside, head same]⟩
      · intro jump escapes
        cases escapes with
        | here jumps =>
            rw [nonJump] at jumps
            cases jumps
        | inside bare member escapes =>
            have around := (fittings block _ member).jumps jump escapes
            -- A scope whose node is no loop is not one either, so the loop is further out.
            have passed : scope.frame.isLoop = false := by
              rw [frame]
              exact loop.symm.trans bare
            simp only [loopsAround, passed, Bool.false_or, Bool.and_eq_true] at around
            exact around.2
      · intro m member returns wanted found
        have wantedHere : wantedIn (scope :: outer) = some wanted := by
          rw [← found]
          cases kind <;> simp_all [wantedIn, Frame.isFunction, Frame.blockKind?]
        rcases Node.mem_preorder_iff.mp member with rfl | ⟨child, below, member⟩
        · exact absurd returns nonReturn
        · exact (fittings block child below).gives m member returns wanted wantedHere

-- A loop that waits for its condition, and takes it.
theorem Node.loop_push {n condition : Node} (sound : n.Sound) (fitting : n.Fitting outer)
    (kind : n.kind = .doStatement) (inert : condition.Inert) :
    (n.push condition).Sound ∧ (n.push condition).Fitting outer := by
  have nonFunction : (n.push condition).kind.isFunction = false := by simp [kind, NodeKind.isFunction]
  refine ⟨Node.every_iff.mpr ⟨Node.functionSound_of_not nonFunction, ?_⟩, ?_, ?_⟩
  · intro c member
    rcases List.mem_append.mp member with member | member
    · exact Every.child sound member
    · rw [List.mem_singleton.mp member]
      exact inert.sound
  · intro jump escapes
    cases escapes with
    | here jumps => simp [kind, NodeKind.isJump] at jumps
    | inside bare => simp [kind, NodeKind.isLoop] at bare
  · intro m member returns
    rcases Node.mem_preorder_iff.mp member with rfl | ⟨child, below, member⟩
    · simp [kind] at returns
    · rcases List.mem_append.mp below with below | below
      · exact fitting.gives m (Node.mem_preorder_iff.mpr (.inr ⟨child, below, member⟩)) returns
      · rw [List.mem_singleton.mp below] at member
        exact absurd returns (inert.not_returns member)

end Stack

end MiLanguage
