import MiLanguage.Proofs.Analysis.Clean

set_option autoImplicit false

namespace MiLanguage

-- How deep in braces a text ends that starts `depth` deep. A closing brace too many counts for
-- nothing.
def braceDepth (depth : Nat) : List Token → Nat
  | [] => depth
  | t :: rest =>
      match t.kind with
      | .leftBrace => braceDepth (depth + 1) rest
      | .rightBrace => braceDepth (depth - 1) rest
      | _ => braceDepth depth rest

-- The text closes the `depth` braces that are open before it, and each brace that it opens.
def closesAll (depth : Nat) : List Token → Bool
  | [] => depth = 0
  | t :: rest =>
      match t.kind with
      | .leftBrace => closesAll (depth + 1) rest
      | .rightBrace => depth ≠ 0 && closesAll (depth - 1) rest
      | _ => closesAll depth rest

section Braces

variable {t : Token} {depth : Nat} {rest : List Token}

theorem braceDepth_leftBrace (kind : t.kind = .leftBrace) :
    braceDepth depth (t :: rest) = braceDepth (depth + 1) rest := by
  simp [braceDepth, kind]

theorem braceDepth_rightBrace (kind : t.kind = .rightBrace) :
    braceDepth depth (t :: rest) = braceDepth (depth - 1) rest := by
  simp [braceDepth, kind]

theorem braceDepth_plain (left : t.kind ≠ .leftBrace) (right : t.kind ≠ .rightBrace) :
    braceDepth depth (t :: rest) = braceDepth depth rest := by
  rw [braceDepth]
  split <;> simp_all

theorem closesAll_leftBrace (kind : t.kind = .leftBrace) :
    closesAll depth (t :: rest) = closesAll (depth + 1) rest := by
  simp [closesAll, kind]

theorem closesAll_rightBrace (kind : t.kind = .rightBrace) :
    closesAll (depth + 1) (t :: rest) = closesAll depth rest := by
  simp [closesAll, kind]

theorem closesAll_plain (left : t.kind ≠ .leftBrace) (right : t.kind ≠ .rightBrace) :
    closesAll depth (t :: rest) = closesAll depth rest := by
  rw [closesAll]
  split <;> simp_all

theorem braceDepth_append (front : List Token) :
    braceDepth depth (front ++ rest) = braceDepth (braceDepth depth front) rest := by
  induction front generalizing depth with
  | nil => rfl
  | cons t front ih =>
      simp only [List.cons_append, braceDepth]
      split <;> exact ih

theorem closesAll_append {front : List Token} (closes : closesAll depth (front ++ rest) = true) :
    closesAll (braceDepth depth front) rest = true := by
  induction front generalizing depth with
  | nil => exact closes
  | cons t front ih =>
      simp only [List.cons_append, closesAll, braceDepth] at closes ⊢
      split at closes
      · exact ih closes
      · exact ih (Bool.and_eq_true_iff.mp closes).2
      · exact ih closes

theorem not_terminator {t : Token} (plain : t.kind.isTerminator = false) :
    t.kind ≠ .leftBrace ∧ t.kind ≠ .rightBrace := by
  constructor
  all_goals
    intro kind
    rw [kind] at plain
    cases plain

theorem braceDepth_open {front : List Token} (plain : ∀ t ∈ front, t.kind.isTerminator = false) :
    braceDepth depth front = depth := by
  induction front with
  | nil => rfl
  | cons t front ih =>
      obtain ⟨left, right⟩ := not_terminator (plain t (by simp))
      rw [braceDepth_plain left right]
      exact ih fun u member => plain u (by simp [member])

theorem closesAll_open {front : List Token} (plain : ∀ t ∈ front, t.kind.isTerminator = false) :
    closesAll depth (front ++ rest) = closesAll depth rest := by
  induction front with
  | nil => rfl
  | cons t front ih =>
      obtain ⟨left, right⟩ := not_terminator (plain t (by simp))
      rw [List.cons_append, closesAll_plain left right]
      exact ih fun u member => plain u (by simp [member])

-- A block that is passed over ends as deep as it began.
theorem Chunk.skipBlock_braceDepth (depth : Nat) {inner : Nat} {tokens beyond : List Token}
    (skipped : Chunk.skipBlock inner tokens = some beyond) :
    ∃ block, tokens = block ++ beyond ∧ braceDepth (depth + inner + 1) block = depth := by
  induction tokens generalizing inner with
  | nil => cases skipped
  | cons t rest ih =>
      by_cases left : t.kind = .leftBrace
      · rw [Chunk.skipBlock_leftBrace left] at skipped
        obtain ⟨block, whole, closed⟩ := ih skipped
        refine ⟨t :: block, by rw [whole]; rfl, ?_⟩
        rw [braceDepth_leftBrace left]
        exact closed
      · by_cases right : t.kind = .rightBrace
        · cases inner with
          | zero =>
              simp only [Chunk.skipBlock, right, Option.some.injEq] at skipped
              refine ⟨[t], by rw [skipped]; rfl, ?_⟩
              rw [braceDepth_rightBrace right]
              rfl
          | succ inner =>
              simp only [Chunk.skipBlock, right] at skipped
              obtain ⟨block, whole, closed⟩ := ih skipped
              refine ⟨t :: block, by rw [whole]; rfl, ?_⟩
              rw [braceDepth_rightBrace right]
              exact closed
        · rw [Chunk.skipBlock_plain left right] at skipped
          obtain ⟨block, whole, closed⟩ := ih skipped
          refine ⟨t :: block, by rw [whole]; rfl, ?_⟩
          rw [braceDepth_plain left right]
          exact closed

theorem closesAll_skipBlock {inner : Nat} {tokens beyond : List Token}
    (skipped : Chunk.skipBlock inner tokens = some beyond) :
    closesAll (depth + inner + 1) tokens = closesAll depth beyond := by
  induction tokens generalizing inner with
  | nil => cases skipped
  | cons t rest ih =>
      by_cases left : t.kind = .leftBrace
      · rw [Chunk.skipBlock_leftBrace left] at skipped
        rw [closesAll_leftBrace left]
        exact ih skipped
      · by_cases right : t.kind = .rightBrace
        · rw [closesAll_rightBrace right]
          cases inner with
          | zero =>
              simp only [Chunk.skipBlock, right, Option.some.injEq] at skipped
              rw [skipped]
              rfl
          | succ inner =>
              rw [Chunk.skipBlock_rightBrace right] at skipped
              exact ih skipped
        · rw [Chunk.skipBlock_plain left right] at skipped
          rw [closesAll_plain left right]
          exact ih skipped

-- A text that closes all of its braces has an end to each block.
theorem Chunk.skipBlock_of_closesAll {inner : Nat} {tokens : List Token}
    (closes : closesAll (depth + inner + 1) tokens = true) :
    ∃ beyond, Chunk.skipBlock inner tokens = some beyond := by
  induction tokens generalizing inner with
  | nil => simp [closesAll] at closes
  | cons t rest ih =>
      rw [closesAll] at closes
      split at closes
      next kind =>
        rw [Chunk.skipBlock_leftBrace kind]
        exact ih closes
      next kind =>
        have closes := (Bool.and_eq_true_iff.mp closes).2
        cases inner with
        | zero => exact ⟨rest, by simp [Chunk.skipBlock, kind]⟩
        | succ inner =>
            obtain ⟨beyond, found⟩ := ih closes
            exact ⟨beyond, by simp [Chunk.skipBlock, kind, found]⟩
      next left right =>
        rw [Chunk.skipBlock_plain left right]
        exact ih closes

-- The chunk is no statement.
def Chunk.breaksOff : Chunk → Bool
  | .statement _ _ => false
  | _ => true

theorem Chunk.readFrom_breaksOff {head : Token} {read tokens later : List Token} {chunk : Chunk}
    (passed : ∀ t ∈ read, t.kind.isTerminator = false)
    (found : Chunk.readFrom head read tokens = (chunk, later)) (breaks : chunk.breaksOff = true) :
    ∃ front, tokens = front ++ later ∧ ∀ t ∈ front, t.kind.isTerminator = false := by
  induction tokens generalizing read with
  | nil =>
      cases found
      exact ⟨[], rfl, by simp⟩
  | cons t rest ih =>
      unfold Chunk.readFrom at found
      split at found
      next =>
        cases found
        exact ⟨[], rfl, by simp⟩
      next => cases found; cases breaks
      next => cases found; cases breaks
      next right semicolon left =>
        have plain : t.kind.isTerminator = false := by
          unfold TokenKind.isTerminator
          split
          next kind => exact absurd kind semicolon
          next kind => exact absurd kind left
          next kind => exact absurd kind right
          next => rfl
        have passed : ∀ u ∈ read ++ [t], u.kind.isTerminator = false := by
          intro u member
          rcases List.mem_append.mp member with member | member
          · exact passed u member
          · rw [List.mem_singleton.mp member]
            exact plain
        obtain ⟨front, whole, unended⟩ := ih passed found
        refine ⟨t :: front, by rw [whole]; rfl, ?_⟩
        intro u member
        rcases List.mem_cons.mp member with rfl | member
        · exact plain
        · exact unended u member

-- What a statement that breaks off leaves behind has no brace in it.
theorem Chunk.next_breaksOff {head : Token} {tail later : List Token} {chunk : Chunk}
    (found : Chunk.next head tail = (chunk, later)) (breaks : chunk.breaksOff = true) :
    ∃ front, head :: tail = front ++ later ∧ ∀ t ∈ front, t.kind.isTerminator = false := by
  unfold Chunk.next at found
  split at found
  next => cases found; cases breaks
  next plain =>
    obtain ⟨front, whole, unended⟩ := Chunk.readFrom_breaksOff (by simp) found breaks
    refine ⟨head :: front, by rw [whole]; rfl, ?_⟩
    intro u member
    rcases List.mem_cons.mp member with rfl | member
    · simpa using plain
    · exact unended u member

end Braces

-- What matters of the open scopes for the braces: which of them are blocks and of which kind, and
-- whether they stand for a header that was rejected.
def ScopeStack.shape (s : ScopeStack) : List (Option BlockKind × Bool) :=
  s.opened.map fun scope => (scope.frame.blockKind?, scope.discard)

/-- One scope for each brace, and one for the head of each loop below that of its body. -/
inductive Nested : List (Option BlockKind × Bool) → Nat → Prop
  | root : Nested [] 0
  | scope {kind : Option BlockKind} {discard : Bool} {rest : List (Option BlockKind × Bool)}
      {depth : Nat} :
      kind ≠ some .loopHead → (kind, discard) ≠ (some .forLoop, false) → Nested rest depth →
      Nested ((kind, discard) :: rest) (depth + 1)
  | loop {rest : List (Option BlockKind × Bool)} {depth : Nat} :
      Nested rest depth →
      Nested ((some .forLoop, false) :: (some .loopHead, false) :: rest) (depth + 1)

theorem Nested.cons {kind : Option BlockKind} {discard : Bool}
    {rest : List (Option BlockKind × Bool)} {depth : Nat}
    (nested : Nested ((kind, discard) :: rest) depth) :
    ∃ outer, depth = outer + 1 ∧
      ((kind ≠ some .loopHead ∧ (kind, discard) ≠ (some .forLoop, false) ∧ Nested rest outer) ∨
        (kind = some .forLoop ∧ discard = false ∧
          ∃ below, rest = (some .loopHead, false) :: below ∧ Nested below outer)) := by
  cases nested with
  | scope head loop inside => exact ⟨_, rfl, .inl ⟨head, loop, inside⟩⟩
  | loop inside => exact ⟨_, rfl, .inr ⟨rfl, rfl, _, rfl, inside⟩⟩

theorem Nested.eq_nil {shape : List (Option BlockKind × Bool)} (nested : Nested shape 0) :
    shape = [] := by
  cases nested
  rfl

namespace ScopeStack

variable {s t : ScopeStack}

theorem Updated.shape (updated : s.Updated t) : t.shape = s.shape := by
  have opened := updated.opened
  unfold ScopeStack.shape
  generalize s.opened = old at opened
  generalize t.opened = new at opened
  induction opened with
  | nil => rfl
  | cons head _ ih =>
      have kind : ∀ {a b : Frame}, a.Updated b → b.blockKind? = a.blockKind? := by
        intro a b updated
        cases updated <;> rfl
      simp only [List.map_cons, ih, kind head.frame, head.discard]

theorem shape_modifyCurrent {f : Scope → Scope}
    (kind : (f s.current).frame.blockKind? = s.current.frame.blockKind?)
    (discard : (f s.current).discard = s.current.discard) : (s.modifyCurrent f).shape = s.shape := by
  unfold ScopeStack.modifyCurrent ScopeStack.shape
  cases opened : s.opened with
  | nil => simp
  | cons scope rest =>
      simp only [ScopeStack.current, opened, List.headD_cons] at kind discard
      simp [kind, discard]

@[simp] theorem shape_append (s : ScopeStack) (node : Node) : (s.append node).shape = s.shape :=
  shape_modifyCurrent rfl rfl

@[simp] theorem shape_push (s : ScopeStack) (scope : Scope) :
    (s.push scope).shape = (scope.frame.blockKind?, scope.discard) :: s.shape :=
  rfl

theorem shape_modifyFirst {f : Scope → Option Scope} {old new : List Scope}
    (each : ∀ a b, f a = some b → b.frame.blockKind? = a.frame.blockKind? ∧ b.discard = a.discard)
    (changed : modifyFirst f old = some new) :
    new.map (fun scope => (scope.frame.blockKind?, scope.discard)) =
      old.map (fun scope => (scope.frame.blockKind?, scope.discard)) := by
  induction old generalizing new with
  | nil => simp [modifyFirst] at changed
  | cons scope rest ih =>
      unfold modifyFirst at changed
      split at changed
      next head =>
        cases changed
        obtain ⟨kind, discard⟩ := each _ _ head
        simp [kind, discard]
      next =>
        obtain ⟨tail, found, same⟩ := Option.map_eq_some_iff.mp changed
        cases same
        simp [ih found]

theorem shape_modifyClass? {f : ClassDeclaration → ClassDeclaration}
    (changed : s.modifyClass? f = some t) : t.shape = s.shape := by
  obtain ⟨opened, found, same⟩ := Option.map_eq_some_iff.mp changed
  cases same
  refine shape_modifyFirst ?_ found
  intro a b same
  split at same
  next id c frame =>
    cases same
    exact ⟨by rw [frame]; rfl, rfl⟩
  next => cases same

theorem shape_pop? {scope : Scope} (popped : s.pop? = some (scope, t)) :
    s.shape = (scope.frame.blockKind?, scope.discard) :: t.shape := by
  unfold ScopeStack.pop? at popped
  split at popped
  next => cases popped
  next opened =>
    cases popped
    simp [ScopeStack.shape, opened]

end ScopeStack

namespace Environment

def shape (env : Environment) : List (Option BlockKind × Bool) := env.scopes.shape

variable {env declared : Environment} {setting : Setting}

@[simp] theorem shape_push (frame : Frame) (node : Node) :
    (env.push frame node).shape = (frame.blockKind?, false) :: env.shape :=
  rfl

@[simp] theorem shape_append (node : Node) : (env.append setting node).shape = env.shape := by
  unfold Environment.append
  split
  next => rfl
  next => exact ScopeStack.shape_append _ _

theorem Updated.shape (updated : env.Updated declared) : declared.shape = env.shape :=
  updated.scopes.shape

theorem shape_addFunction? {f : FunctionDefinition} (added : env.addFunction? f = some declared) :
    declared.shape = env.shape := by
  unfold addFunction? at added
  split at added
  next => cases added
  next =>
    obtain ⟨methods, _, added⟩ := Option.bind_eq_some_iff.mp added
    obtain ⟨scopes, changed, same⟩ := Option.bind_eq_some_iff.mp added
    cases same
    exact ScopeStack.shape_modifyClass? changed
  next =>
    obtain ⟨modules, _, same⟩ := Option.map_eq_some_iff.mp added
    cases same
    rfl

theorem shape_declareVariable? {placement : Placement} {v : Variable}
    (found : env.declareVariable? placement v = some declared) : declared.shape = env.shape := by
  cases placement with
  | inBlock => exact (updated_declareLocal found).shape
  | global =>
      simp only [declareVariable?] at found
      split at found
      next => cases found
      next => cases found; rfl
  | field =>
      simp only [declareVariable?] at found
      split at found
      next => cases found
      next =>
        obtain ⟨scopes, changed, same⟩ := Option.map_eq_some_iff.mp found
        cases same
        exact ScopeStack.shape_modifyClass? changed

theorem Warned.shape {warned : Environment} (warns : env.Warned warned) : warned.shape = env.shape :=
  warns.updated.shape

end Environment

end MiLanguage
