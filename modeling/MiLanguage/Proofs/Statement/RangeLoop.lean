import MiLanguage.Proofs.Outline.Run
import MiLanguage.Proofs.Relocation.Reformatting
import MiLanguage.Proofs.Statement.Storing

set_option autoImplicit false

namespace MiLanguage

section Parentheses

/-- Each parenthesis has its partner. -/
inductive Balanced : List Token → Prop
  | nil : Balanced []
  | plain {t : Token} {rest : List Token} :
      t.kind ≠ .leftParen → t.kind ≠ .rightParen → Balanced rest → Balanced (t :: rest)
  | parens {opening closing : Token} {inner rest : List Token} :
      opening.kind = .leftParen → Balanced inner → closing.kind = .rightParen → Balanced rest →
      Balanced (opening :: (inner ++ closing :: rest))

/-- Each parenthesis has its partner, and every comma stands between two of them. -/
inductive Undivided : List Token → Prop
  | nil : Undivided []
  | plain {t : Token} {rest : List Token} :
      t.kind ≠ .leftParen → t.kind ≠ .rightParen → t.kind ≠ .comma → Undivided rest →
      Undivided (t :: rest)
  | parens {opening closing : Token} {inner rest : List Token} :
      opening.kind = .leftParen → Balanced inner → closing.kind = .rightParen → Undivided rest →
      Undivided (opening :: (inner ++ closing :: rest))

variable {t : Token} {tokens rest : List Token}

theorem Undivided.balanced (undivided : Undivided tokens) : Balanced tokens := by
  induction undivided with
  | nil => exact .nil
  | plain left right _ _ ih => exact .plain left right ih
  | parens left inner right _ ih => exact .parens left inner right ih

theorem Balanced.append (first : Balanced tokens) (second : Balanced rest) :
    Balanced (tokens ++ rest) := by
  induction first with
  | nil => exact second
  | plain left right _ ih => exact .plain left right ih
  | parens left inner right _ _ ih =>
      rw [List.cons_append, List.append_assoc]
      exact .parens left inner right ih

section Closing

theorem splitClosing_plain (left : t.kind ≠ .leftParen) (right : t.kind ≠ .rightParen)
    (depth : Nat) :
    splitClosing depth (t :: rest) =
      (splitClosing depth rest).map fun (inner, after) => (t :: inner, after) := by
  rw [splitClosing]
  · split <;> first | contradiction | rfl
  · exact fun _ kind => absurd kind right

theorem splitClosing_leftParen (left : t.kind = .leftParen) (depth : Nat) :
    splitClosing depth (t :: rest) =
      (splitClosing (depth + 1) rest).map fun (inner, after) => (t :: inner, after) := by
  cases depth <;> simp [splitClosing, left]

theorem splitClosing_rightParen (right : t.kind = .rightParen) (depth : Nat) :
    splitClosing (depth + 1) (t :: rest) =
      (splitClosing depth rest).map fun (inner, after) => (t :: inner, after) := by
  simp [splitClosing, right]

theorem Balanced.splitClosing_append (balanced : Balanced tokens) (depth : Nat)
    (rest : List Token) :
    splitClosing depth (tokens ++ rest) =
      (splitClosing depth rest).map fun (inner, after) => (tokens ++ inner, after) := by
  induction balanced generalizing depth rest with
  | nil => simp
  | plain left right _ ih =>
      rw [List.cons_append, splitClosing_plain left right, ih, Option.map_map]
      rfl
  | parens left _ right _ ihInner ih =>
      rw [List.cons_append, List.append_assoc, splitClosing_leftParen left, ihInner,
        List.cons_append, splitClosing_rightParen right, ih]
      simp [Option.map_map, Function.comp_def]

theorem Balanced.unwrap {opening : TokenOf .leftParen} {closing : TokenOf .rightParen}
    (balanced : Balanced tokens) :
    MiLanguage.unwrap (opening :: (tokens ++ [closing.val])) = some (opening.val, tokens) := by
  simp [MiLanguage.unwrap, opening.property, balanced.splitClosing_append, splitClosing,
    closing.property]

end Closing

section Parts

-- More tokens in front of the first part.
def addFirst (tokens : List Token) : List (List Token) → List (List Token)
  | [] => [tokens]
  | part :: parts => (tokens ++ part) :: parts

theorem addFirst_addFirst (before tokens : List Token) (parts : List (List Token)) :
    addFirst before (addFirst tokens parts) = addFirst (before ++ tokens) parts := by
  cases parts with
  | nil => rfl
  | cons => simp [addFirst]

theorem splitParts_ne_nil (depth : Nat) (tokens : List Token) : splitParts depth tokens ≠ [] := by
  induction tokens generalizing depth with
  | nil => exact List.cons_ne_nil _ _
  | cons t rest ih =>
      unfold splitParts
      split
      · exact List.cons_ne_nil _ _
      · dsimp only
        split <;> exact List.cons_ne_nil _ _

theorem addFirst_nil (depth : Nat) (tokens : List Token) :
    addFirst [] (splitParts depth tokens) = splitParts depth tokens := by
  cases parts : splitParts depth tokens with
  | nil => exact absurd parts (splitParts_ne_nil depth tokens)
  | cons => rfl

theorem splitParts_comma (comma : t.kind = .comma) :
    splitParts 0 (t :: rest) = [] :: splitParts 0 rest := by
  simp [splitParts, comma]

theorem splitParts_leftParen (left : t.kind = .leftParen) (depth : Nat) :
    splitParts depth (t :: rest) = addFirst [t] (splitParts (depth + 1) rest) := by
  cases depth <;> simp only [splitParts, left] <;> rfl

theorem splitParts_rightParen (right : t.kind = .rightParen) (depth : Nat) :
    splitParts (depth + 1) (t :: rest) = addFirst [t] (splitParts depth rest) := by
  simp only [splitParts, right]
  rfl

theorem level_plain (left : t.kind ≠ .leftParen) (right : t.kind ≠ .rightParen) (depth : Nat) :
    (match t.kind with
      | .leftParen => depth + 1
      | .rightParen => depth - 1
      | _ => depth) = depth := by
  split <;> first | contradiction | rfl

theorem splitParts_plain (left : t.kind ≠ .leftParen) (right : t.kind ≠ .rightParen) (depth : Nat)
    (inside : depth = 0 → t.kind ≠ .comma) :
    splitParts depth (t :: rest) = addFirst [t] (splitParts depth rest) := by
  rw [splitParts]
  · exact congrArg (fun next => addFirst [t] (splitParts next rest)) (level_plain left right depth)
  · exact inside

theorem Balanced.splitParts_append (balanced : Balanced tokens) (depth : Nat) (rest : List Token) :
    splitParts (depth + 1) (tokens ++ rest) = addFirst tokens (splitParts (depth + 1) rest) := by
  induction balanced generalizing depth rest with
  | nil => exact (addFirst_nil _ _).symm
  | @plain t _ left right _ ih =>
      have inside : depth + 1 = 0 → t.kind ≠ .comma := nofun
      rw [List.cons_append, splitParts_plain left right _ inside, ih, addFirst_addFirst]
      rfl
  | parens left _ right _ ihInner ih =>
      rw [List.cons_append, List.append_assoc, splitParts_leftParen left, ihInner,
        List.cons_append, splitParts_rightParen right, ih]
      simp [addFirst_addFirst]

theorem Undivided.splitParts_append (undivided : Undivided tokens) (rest : List Token) :
    splitParts 0 (tokens ++ rest) = addFirst tokens (splitParts 0 rest) := by
  induction undivided generalizing rest with
  | nil => exact (addFirst_nil _ _).symm
  | plain left right comma _ ih =>
      rw [List.cons_append, splitParts_plain left right _ fun _ => comma, ih, addFirst_addFirst]
      rfl
  | parens left inner right _ ih =>
      rw [List.cons_append, List.append_assoc, splitParts_leftParen left, inner.splitParts_append,
        List.cons_append, splitParts_rightParen right, ih]
      simp [addFirst_addFirst]

theorem Undivided.splitCommas (undivided : Undivided tokens) :
    MiLanguage.splitCommas tokens = [tokens] := by
  have parts := undivided.splitParts_append []
  rw [List.append_nil] at parts
  rw [MiLanguage.splitCommas, parts]
  simp [splitParts, addFirst]

theorem Undivided.splitCommas_append (undivided : Undivided tokens) (comma : TokenOf .comma)
    (rest : List Token) :
    MiLanguage.splitCommas (tokens ++ comma.val :: rest) =
      tokens :: MiLanguage.splitCommas rest := by
  rw [MiLanguage.splitCommas, undivided.splitParts_append, splitParts_comma comma.property]
  simp [addFirst, MiLanguage.splitCommas]

end Parts

end Parentheses

/-- A loop over a range: `for (start, v -> stop) {`, with any places for its tokens. -/
structure RangeLoop where
  keyword : TokenOf (.keyword .«for»)
  opening : TokenOf .leftParen
  start : List Token
  comma : TokenOf .comma
  v : TokenOf .identifier
  arrow : TokenOf .arrow
  stop : List Token
  closing : TokenOf .rightParen
  brace : TokenOf .leftBrace
  undivided : Undivided start ∧ Undivided stop
  plain : Outline.Plain (start ++ stop)

namespace RangeLoop

variable (loop : RangeLoop)

-- `v < (stop)`
def condition : List Token :=
  [loop.v.val, .synthetic (.binary .less) "<" loop.arrow, .synthetic .leftParen "(" loop.arrow] ++
    loop.stop ++ [.synthetic .rightParen ")" loop.arrow]

-- `v++`
def step : List Token := [loop.v.val, .synthetic .increment "++" loop.arrow]

-- `v -> stop`
def range : List Token := loop.v.val :: loop.arrow.val :: loop.stop

-- What is between the parentheses, for the given parts behind the first one.
def inner (parts : List Token) : List Token := loop.start ++ loop.comma.val :: parts

-- What follows the keyword.
def header (parts : List Token) : List Token :=
  loop.opening.val :: (loop.inner parts ++ [loop.closing.val]) ++ [loop.brace.val]

-- `start, v -> stop`
def short : List Token := loop.header loop.range

-- `start, v < (stop), v++`
def long : List Token := loop.header (loop.condition ++ loop.comma.val :: loop.step)

-- Behind the first part of the head, the variable is constant or may be assigned to.
def Steppable (env : Environment) : Prop :=
  ∀ defined definition v,
    (env.push (.block .loopHead {})
      (.new .forFakeScope loop.keyword.val.streamLine)).loopDefinition loop.start loop.keyword =
        .ok (defined, definition) →
    defined.resolveVariable loop.v = .ok v →
    v.modifiers.isConst = true ∨ v.canAssign = true

variable {loop}

theorem undivided_range : Undivided loop.range := by
  have v := loop.v.property
  have arrow := loop.arrow.property
  exact .plain (by simp [v]) (by simp [v]) (by simp [v])
    (.plain (by simp [arrow]) (by simp [arrow]) (by simp [arrow]) loop.undivided.2)

theorem undivided_condition : Undivided loop.condition := by
  have v := loop.v.property
  exact .plain (by simp [v]) (by simp [v]) (by simp [v])
    (.plain nofun nofun nofun (.parens rfl loop.undivided.2.balanced rfl .nil))

theorem undivided_step : Undivided loop.step := by
  have v := loop.v.property
  exact .plain (by simp [v]) (by simp [v]) (by simp [v]) (.plain nofun nofun nofun .nil)

theorem balanced_inner {parts : List Token} (balanced : Balanced parts) :
    Balanced (loop.inner parts) := by
  have comma := loop.comma.property
  exact loop.undivided.1.balanced.append (.plain (by simp [comma]) (by simp [comma]) balanced)

theorem balanced_long : Balanced (loop.condition ++ loop.comma.val :: loop.step) := by
  have comma := loop.comma.property
  exact undivided_condition.balanced.append
    (.plain (by simp [comma]) (by simp [comma]) undivided_step.balanced)

theorem read_short : ForHead.read loop.keyword (loop.inner loop.range) =
    .ok ⟨loop.start, loop.condition, loop.step, true⟩ := by
  have desugared : desugarRange loop.range loop.keyword = .ok (loop.condition, loop.step) := by
    simp [desugarRange, range, condition, step, require, Token.is, loop.v.property,
      loop.arrow.property]
  rw [ForHead.read, inner, loop.undivided.1.splitCommas_append, undivided_range.splitCommas]
  dsimp only
  rw [desugared]
  rfl

theorem read_long : ForHead.read loop.keyword
      (loop.inner (loop.condition ++ loop.comma.val :: loop.step)) =
    .ok ⟨loop.start, loop.condition, loop.step, false⟩ := by
  rw [ForHead.read, inner, loop.undivided.1.splitCommas_append,
    undivided_condition.splitCommas_append, undivided_step.splitCommas]

theorem plain_header {parts : List Token} (plain : Outline.Plain parts) :
    ∃ front, loop.header parts = front ++ [loop.brace.val] ∧ Outline.Plain front := by
  refine ⟨_, rfl, fun t member => ?_⟩
  simp only [inner, List.mem_cons, List.mem_append, List.not_mem_nil, or_false] at member
  rcases member with rfl | (member | rfl | member) | rfl
  · rw [loop.opening.property]; rfl
  · exact loop.plain t (List.mem_append_left _ member)
  · rw [loop.comma.property]; rfl
  · exact plain t member
  · rw [loop.closing.property]; rfl

theorem plain_range : Outline.Plain loop.range := by
  intro t member
  simp only [range, List.mem_cons] at member
  rcases member with rfl | rfl | member
  · rw [loop.v.property]; rfl
  · rw [loop.arrow.property]; rfl
  · exact loop.plain t (List.mem_append_right _ member)

theorem plain_long : Outline.Plain (loop.condition ++ loop.comma.val :: loop.step) := by
  intro t member
  simp only [condition, step, List.mem_cons, List.mem_append, List.not_mem_nil, or_false] at member
  rcases member with (((rfl | rfl | rfl) | member) | rfl) | rfl | rfl | rfl
  · rw [loop.v.property]; rfl
  · rfl
  · rfl
  · exact loop.plain t (List.mem_append_right _ member)
  · rfl
  · rw [loop.comma.property]; rfl
  · rw [loop.v.property]; rfl
  · rfl

end RangeLoop

namespace Environment

variable {env : Environment} {setting : Setting} {loop : RangeLoop}

theorem loopStep_implied
    (free : ∀ v, env.resolveVariable loop.v = .ok v →
      v.modifiers.isConst = true ∨ v.canAssign = true) :
    env.loopStep true loop.step loop.keyword = env.loopStep false loop.step loop.keyword := by
  unfold loopStep RangeLoop.step
  dsimp only [Token.synthetic]
  simp only [TokenKind.isAssignment, if_true, assign]
  refine bind_congr fun _ => ?_
  cases found : env.resolveVariable loop.v with
  | error r => rfl
  | ok v =>
      rw [Checked.ok_bind, Checked.ok_bind]
      rcases free v found with const | assignable
      · simp [require, const]
        rfl
      · rw [assignable]
        rfl

theorem openFor_long (steppable : loop.Steppable env) :
    env.openFor setting {} loop.keyword loop.long =
      env.openFor setting {} loop.keyword loop.short := by
  unfold openFor RangeLoop.long RangeLoop.short RangeLoop.header
  simp only [dropLastOf_append, Checked.ok_bind,
    (RangeLoop.balanced_inner RangeLoop.balanced_long).unwrap,
    (RangeLoop.balanced_inner RangeLoop.undivided_range.balanced).unwrap, RangeLoop.read_long,
    RangeLoop.read_short]
  refine bind_congr fun _ => bind_congr fun _ => ?_
  cases found : (env.push (.block .loopHead {})
      (.new .forFakeScope loop.keyword.val.streamLine)).loopDefinition loop.start loop.keyword with
  | error r => rfl
  | ok defined =>
      obtain ⟨defined, definition⟩ := defined
      rw [Checked.ok_bind, Checked.ok_bind]
      refine bind_congr fun condition => ?_
      rw [loopStep_implied fun v => steppable defined definition v found]

theorem statement_for (keyword : TokenOf (.keyword .«for»)) (rest : List Token) :
    env.statement setting keyword rest = .ofChecked env (env.openFor setting {} keyword rest) := by
  unfold statement
  rw [LeadingModifiers.read, LeadingModifiers.readFrom, keyword.property]
  dsimp only
  unfold dispatch
  rw [keyword.property]
  cases env.frame <;> simp only [read, keyword.property]

theorem statement_long (steppable : loop.Steppable env) :
    env.statement setting loop.keyword loop.long =
      env.statement setting loop.keyword loop.short := by
  rw [statement_for, statement_for, openFor_long steppable]

end Environment

namespace AnalysisState

variable {s : AnalysisState} {loop : RangeLoop}

theorem checkReachable_setting (first : Token) : (s.checkReachable first).setting = s.setting := by
  unfold checkReachable
  split
  · split <;> rfl
  · rfl

theorem flushDo_setting : s.flushDo.setting = s.setting := by
  unfold flushDo
  split <;> rfl

theorem ready_setting (first : Token) : (s.ready first).setting = s.setting := by
  unfold ready
  rw [checkReachable_setting]
  split
  · rfl
  · exact flushDo_setting

-- What is still to be read plays no part in this.
theorem ready_remaining (first : Token) (tail : List Token) :
    ({ s with remaining := tail }.ready first).environment = (s.ready first).environment := by
  have reaches (s : AnalysisState) :
      ({ s with remaining := tail }.checkReachable first).environment =
        (s.checkReachable first).environment := by
    rw [checkReachable_remaining]
  obtain ⟨setting, remaining, environment, log, pendingDo⟩ := s
  cases pendingDo with
  | none => exact reaches _
  | some block =>
      exact reaches (({ setting, remaining, environment, log, pendingDo := some block } :
        AnalysisState).report (SyntaxFault.doWithoutWhile false) first).flushDo

theorem statement_settle (keyword : TokenOf (.keyword .«for»)) (rest : List Token) :
    s.statement keyword rest =
      settle ((s.ready keyword).environment.statement s.setting keyword rest)
        (s.ready keyword).environment.scopes.depth keyword rest (s.ready keyword) := by
  have kind := keyword.property
  rw [← ready_setting keyword]
  unfold statement ready
  cases s.pendingDo with
  | none => simp [statementOrBrace, Token.is, kind]; rfl
  | some block =>
      simp [statementOrBrace, Token.is, kind]; rfl

theorem settle_header (outcome : Outcome) (depth : Nat) (parts others : List Token) :
    settle outcome depth loop.keyword (loop.header parts) s =
      settle outcome depth loop.keyword (loop.header others) s := by
  have head (rest : List Token) :
      ((loop.keyword.val :: rest).find? (!·.kind.isModifier)).getD loop.keyword.val =
        loop.keyword.val := by
    simp [loop.keyword.property, TokenKind.isModifier]
  have last (parts : List Token) :
      (loop.header parts).getLast?.getD loop.keyword.val = loop.brace.val := by
    rw [RangeLoop.header, List.getLast?_concat]
    rfl
  unfold settle
  simp only [head, last]

theorem statement_long (steppable : loop.Steppable (s.ready loop.keyword).environment) :
    s.statement loop.keyword loop.long = s.statement loop.keyword loop.short := by
  rw [statement_settle, statement_settle, Environment.statement_long steppable]
  exact settle_header ..

theorem step_header {parts : List Token} (plain : Outline.Plain parts) (tail : List Token) :
    ({ s with remaining := loop.keyword.val :: loop.header parts ++ tail }).step =
      some ({ s with remaining := tail }.statement loop.keyword (loop.header parts)) := by
  obtain ⟨front, same, plain⟩ := RangeLoop.plain_header plain
  have whole : Outline.Plain (loop.keyword.val :: front) := by
    intro t member
    rcases List.mem_cons.mp member with rfl | member
    · rw [loop.keyword.property]; rfl
    · exact plain t member
  obtain ⟨first, rest, split, next⟩ := Chunk.next_closed whole (.inr loop.brace.property) tail
  rw [List.cons_append] at split
  obtain ⟨rfl, rfl⟩ := List.cons.inj split
  rw [same]
  unfold step
  simp only [List.cons_append, next]

/-- The range loop is another spelling: wherever the tokens of either stand, both are accepted or
blamed for the same fault, with the same scopes, variable and nodes, and the pass goes on alike. -/
theorem rangeLoop_expands {first : Token} {rest : List Token}
    (spelled : move .nowhere (first :: rest) = move .nowhere (loop.keyword.val :: loop.long))
    (steppable : loop.Steppable (s.ready loop.keyword).environment) (tail : List Token) :
    move .nowhere ((s.ready loop.keyword).environment.statement s.setting first rest) =
      move .nowhere
        ((s.ready loop.keyword).environment.statement s.setting loop.keyword loop.short) ∧
    ∃ ranged spelledOut,
      ({ s with remaining := loop.keyword.val :: loop.short ++ tail }).step = some ranged ∧
      ({ s with remaining := first :: rest ++ tail }).step = some spelledOut ∧
      move .nowhere spelledOut = move .nowhere ranged := by
  have long : ({ s with remaining := loop.keyword.val :: loop.long ++ tail }).step =
      some ({ s with remaining := tail }.statement loop.keyword loop.short) := by
    rw [RangeLoop.long, step_header RangeLoop.plain_long]
    rw [← ready_remaining _ tail] at steppable
    exact congrArg some (statement_long steppable)
  have short : ({ s with remaining := loop.keyword.val :: loop.short ++ tail }).step =
      some ({ s with remaining := tail }.statement loop.keyword loop.short) := by
    rw [RangeLoop.short, step_header RangeLoop.plain_range]
  obtain ⟨keyword, header⟩ : move .nowhere first = move .nowhere loop.keyword.val ∧
      move .nowhere rest = move .nowhere loop.long := List.cons.inj spelled
  constructor
  · rw [← Environment.statement_move, keyword, header, Environment.statement_move,
      Environment.statement_long steppable]
  · have remaining : move .nowhere (first :: rest ++ tail) =
        move .nowhere (loop.keyword.val :: loop.long ++ tail) := by
      rw [move_append, move_append, spelled]
    have states : move .nowhere { s with remaining := first :: rest ++ tail } =
        move .nowhere { s with remaining := loop.keyword.val :: loop.long ++ tail } :=
      congrArg (fun remaining => { move .nowhere s with remaining }) remaining
    have steps := congrArg step states
    rw [step_move, step_move, long] at steps
    cases spelledOut : ({ s with remaining := first :: rest ++ tail }).step with
    | none => rw [spelledOut] at steps; cases steps
    | some t =>
        rw [spelledOut] at steps
        exact ⟨_, t, short, rfl, Option.some.inj steps⟩

-- In the body of a function, with nothing in it yet.
def inBody : AnalysisState where
  setting := ⟨.bodies, {}⟩
  remaining := []
  environment :=
    { modules := .empty
      scopes := (ScopeStack.start ModuleTree.root (.new .parent 0)).push
        { frame := .block .function {}, node := .new .functionDefinition 1 }
      inLibrary := false }
  log := { maxErrors := 0 }

def word (kind : TokenKind) (lexeme : String) (column : Nat) : Token :=
  ⟨kind, lexeme, 1, column, 1, ⟨column, column + lexeme.length, userFile⟩⟩

-- `for (mut int i = 0, i -> 9) {`
def countingLoop : RangeLoop where
  keyword := ⟨word (.keyword .«for») "for" 1, rfl⟩
  opening := ⟨word .leftParen "(" 5, rfl⟩
  start := [word (.modifier .mut) "mut" 6, word (.datatype .int) "int" 10, word .identifier "i" 14,
    word .assign "=" 16, word (.literal .int) "0" 18]
  comma := ⟨word .comma "," 19, rfl⟩
  v := ⟨word .identifier "i" 21, rfl⟩
  arrow := ⟨word .arrow "->" 23, rfl⟩
  stop := [word (.literal .int) "9" 26]
  closing := ⟨word .rightParen ")" 27, rfl⟩
  brace := ⟨word .leftBrace "\x7b" 29, rfl⟩
  undivided := ⟨.plain nofun nofun nofun (.plain nofun nofun nofun (.plain nofun nofun nofun
    (.plain nofun nofun nofun (.plain nofun nofun nofun .nil)))), .plain nofun nofun nofun .nil⟩
  plain := by simp [Outline.Plain, word, TokenKind.isTerminator]

theorem countingLoop_steppable :
    countingLoop.Steppable (inBody.ready countingLoop.keyword).environment := by
  intro defined definition v defines resolved
  injection defines with same
  injection same with env node
  subst env
  injection resolved with v
  subst v
  exact .inr rfl

-- The longer spelling, on another line.
def longBelow : List Token :=
  (countingLoop.keyword.val :: countingLoop.long).map ({ · with line := 2, streamLine := 2 })

theorem countingLoop_expands :
    let env := (inBody.ready countingLoop.keyword).environment
    let short := env.statement inBody.setting countingLoop.keyword countingLoop.short
    let long := env.statement inBody.setting (longBelow.headD countingLoop.keyword) longBelow.tail
    (∃ node, short.result = .ok node) ∧ move .nowhere long = move .nowhere short ∧
    ∃ ranged spelledOut,
      ({ inBody with remaining := countingLoop.keyword.val :: countingLoop.short ++ [] }).step =
        some ranged ∧
      ({ inBody with remaining := longBelow ++ [] }).step = some spelledOut ∧
      move .nowhere spelledOut = move .nowhere ranged := by
  have spelled : move .nowhere longBelow =
      move .nowhere (countingLoop.keyword.val :: countingLoop.long) := rfl
  exact ⟨⟨_, rfl⟩, rangeLoop_expands spelled countingLoop_steppable []⟩

end AnalysisState

end MiLanguage
