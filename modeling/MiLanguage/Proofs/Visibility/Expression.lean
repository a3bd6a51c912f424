import MiLanguage.Proofs.Expression.Soundness
import MiLanguage.Proofs.Node

set_option autoImplicit false

namespace MiLanguage

-- Nodes of these kinds name a class or an enum by a token of their own.
def NodeKind.namesType : NodeKind → Bool
  | type | structConstruct => true
  | _ => false

-- A node of such a kind names no type by itself, and declares no class.
def NodeKind.isNeutral (kind : NodeKind) : Bool := !kind.namesType && kind ≠ .createClass

-- The types that a node names are named in these files.
def Node.NamedIn (files : FileId → Prop) (n : Node) : Prop :=
  n.kind.namesType = true → ∀ place, n.token = some place → files place.span.fileId

-- A part of a statement that is written in these files. It declares no class.
def Node.Within (files : FileId → Prop) (n : Node) : Prop :=
  n.Every fun m => m.kind ≠ .createClass ∧ m.NamedIn files

def Tokens.In (files : FileId → Prop) (tokens : List Token) : Prop :=
  ∀ t ∈ tokens, files t.span.fileId

variable {files : FileId → Prop} {n : Node} {place : Token} {tokens rest : List Token}

theorem Tokens.In.suffix (inside : Tokens.In files tokens) (suffix : rest <:+ tokens) :
    Tokens.In files rest :=
  fun t member => inside t (suffix.subset member)

namespace Node

theorem within_iff (neutral : n.kind.isNeutral = true) :
    n.Within files ↔ ∀ c ∈ n.children, c.Within files := by
  simp only [NodeKind.isNeutral, Bool.and_eq_true, Bool.not_eq_true', decide_eq_true_eq] at neutral
  have top : n.kind ≠ .createClass ∧ n.NamedIn files :=
    ⟨neutral.2, fun names => absurd names (by simp [neutral.1])⟩
  rw [Within, every_iff, and_iff_right top]
  rfl

theorem within_new {kind : NodeKind} {line : Nat} {children : List Node}
    (neutral : kind.isNeutral = true) (within : ∀ c ∈ children, c.Within files) :
    (new kind line children).Within files :=
  (within_iff neutral).mpr within

theorem within_leaf {kind : NodeKind} (neutral : kind.isNeutral = true) :
    (leaf kind place).Within files :=
  (within_iff neutral).mpr (by simp [leaf])

end Node

namespace Typed

variable {env : Environment} {e : Typed}

theorem within_of {type : Datatype} (within : n.Within files) : (of n type).node.Within files :=
  Node.every_iff.mpr ⟨within.top, fun _ member => within.child member⟩

theorem within_reference (read : reference env place = .ok e) : e.node.Within files := by
  simp only [reference, Checked.bind_eq_ok] at read
  obtain ⟨v, _, same⟩ := read
  cases same
  exact within_of (Node.within_leaf rfl)

theorem within_call {args : List Typed} (within : ∀ a ∈ args, a.node.Within files)
    (read : call env place args = .ok e) : e.node.Within files := by
  simp only [call, Checked.bind_eq_ok] at read
  obtain ⟨callee, _, same⟩ := read
  cases same
  have arguments : (Node.new .parameters place.streamLine (args.map Typed.node)).Within files :=
    Node.within_new rfl (by simpa using within)
  refine within_of (Node.within_new rfl ?_)
  simpa using ⟨Node.within_leaf rfl, arguments⟩

theorem within_enumMember {member : Token} (read : enumMember env place member = .ok e) :
    e.node.Within files := by
  simp only [enumMember, Checked.bind_eq_ok] at read
  obtain ⟨⟨qualified, members⟩, _, _, _, same⟩ := read
  cases same
  refine within_of (Node.within_new rfl ?_)
  simpa using ⟨Node.within_leaf rfl, Node.within_leaf rfl⟩

theorem within_construct {keyword : Token} (inside : files place.span.fileId)
    (read : construct env keyword place = .ok e) : e.node.Within files := by
  simp only [construct, Checked.bind_eq_ok] at read
  obtain ⟨qualified, _, same⟩ := read
  cases same
  refine Node.every_iff.mpr ⟨⟨nofun, ?_⟩, nofun⟩
  intro _ t token
  cases token
  exact inside

theorem within_literal {l : LiteralToken} (read : literal l place = .ok e) :
    e.node.Within files := by
  have leaf : ∀ kind type, e = of (.leaf (.literal kind) place) type → e.node.Within files := by
    rintro kind type rfl
    exact within_of (Node.within_leaf rfl)
  cases l with
  | int => exact leaf _ _ (intLiteral_eq_ok read).1
  | long =>
      simp only [literal, longLiteral] at read
      split at read
      next => cases read; exact leaf _ _ rfl
      next => simp at read
  | _ => cases read; exact leaf _ _ rfl

theorem within_unary {op : UnaryOperator} (within : e.node.Within files) :
    (unary op e place).node.Within files :=
  within_of (Node.within_new rfl (by simpa using within))

theorem within_cast {p : Primitive} (within : e.node.Within files) :
    (cast p e place).node.Within files := by
  refine (Node.within_iff rfl).mpr ?_
  simpa [cast, Node.leaf] using within

theorem within_binary {op : BinaryOperator} {left right : Typed}
    (leftWithin : left.node.Within files) (rightWithin : right.node.Within files)
    (built : binary op left right place = .ok e) : e.node.Within files := by
  unfold binary at built
  split at built
  next =>
    cases built
    exact within_of (Node.within_new rfl (by simpa using ⟨leftWithin, rightWithin⟩))
  next => simp at built

theorem within_ternary {condition yes no : Typed} (conditionWithin : condition.node.Within files)
    (yesWithin : yes.node.Within files) (noWithin : no.node.Within files)
    (built : ternary condition yes no place = .ok e) : e.node.Within files := by
  simp only [ternary, Checked.bind_eq_ok] at built
  obtain ⟨_, _, _, _, same⟩ := built
  cases same
  have arm : ∀ {kind : NodeKind} {arm : Typed}, kind = .ternaryIf ∨ kind = .ternaryElse →
      arm.node.Within files → (Node.new kind place.streamLine [arm.node]).Within files := by
    rintro _ arm (rfl | rfl) within
    all_goals exact Node.within_new rfl (by simpa using within)
  refine within_of (Node.within_new rfl ?_)
  simpa using ⟨conditionWithin, arm (.inl rfl) yesWithin, arm (.inr rfl) noWithin⟩

end Typed

namespace Expression

variable {env : Environment} {anchor : Token} {bound : Nat} {e : Typed}

-- What is left of a text once some of it has been read.
def Shortens (tokens rest : List Token) : Prop := rest <:+ tokens ∧ rest.length < tokens.length

theorem shortens_cons (suffix : rest <:+ tokens) (t : Token) : Shortens (t :: tokens) rest :=
  ⟨suffix.trans (List.suffix_cons t tokens), Nat.lt_succ_of_le suffix.length_le⟩

theorem Shortens.trans {later : List Token} (shortens : Shortens tokens rest)
    (suffix : later <:+ rest) : Shortens tokens later :=
  ⟨suffix.trans shortens.1, Nat.lt_of_le_of_lt suffix.length_le shortens.2⟩

theorem expect_suffix {kind : TokenKind} {what : String} {t : Token}
    (found : expect anchor kind what tokens = .ok (t, rest)) : rest <:+ tokens := by
  rw [(expect_eq_ok found).1]
  exact List.suffix_cons t rest

/-- Each reader takes tokens off the head of a text, and an expression is made of those. -/
structure Draws (files : FileId → Prop) (env : Environment) (anchor : Token) (bound : Nat) : Prop where
  read : ∀ {level tokens e rest}, Tokens.In files tokens →
    Expression.read env anchor bound level tokens = .ok (e, rest) →
    e.node.Within files ∧ Shortens tokens rest
  climb : ∀ {level left tokens e rest}, Tokens.In files tokens → left.node.Within files →
    Expression.climb env anchor bound level left tokens = .ok (e, rest) →
    e.node.Within files ∧ rest <:+ tokens
  operand : ∀ {tokens e rest}, Tokens.In files tokens →
    Expression.operand env anchor bound tokens = .ok (e, rest) →
    e.node.Within files ∧ Shortens tokens rest
  arguments : ∀ {tokens args rest}, Tokens.In files tokens →
    Expression.arguments env anchor bound tokens = .ok (args, rest) →
    (∀ a ∈ args, a.node.Within files) ∧ rest <:+ tokens
  argumentList : ∀ {tokens args rest}, Tokens.In files tokens →
    Expression.argumentList env anchor bound tokens = .ok (args, rest) →
    (∀ a ∈ args, a.node.Within files) ∧ Shortens tokens rest

theorem draws_zero : Draws files env anchor 0 where
  read _ found := by simp [read] at found
  climb _ within found := by
    simp only [climb] at found
    cases found
    exact ⟨within, List.suffix_rfl⟩
  operand _ found := by simp [operand] at found
  arguments _ found := by simp [arguments] at found
  argumentList _ found := by simp [argumentList] at found

section Readers

variable (draws : Draws files env anchor bound) (inside : Tokens.In files tokens)

include draws inside

theorem read_draws {level : Nat}
    (found : read env anchor (bound + 1) level tokens = .ok (e, rest)) :
    e.node.Within files ∧ Shortens tokens rest := by
  simp only [read, Checked.bind_eq_ok] at found
  obtain ⟨⟨first, later⟩, operand, climbed⟩ := found
  obtain ⟨within, shortens⟩ := draws.operand inside operand
  obtain ⟨within, suffix⟩ := draws.climb (inside.suffix shortens.1) within climbed
  exact ⟨within, shortens.trans suffix⟩

theorem climb_draws {level : Nat} {left : Typed} (within : left.node.Within files)
    (found : climb env anchor (bound + 1) level left tokens = .ok (e, rest)) :
    e.node.Within files ∧ rest <:+ tokens := by
  cases tokens with
  | nil =>
      simp only [climb] at found
      cases found
      exact ⟨within, List.suffix_rfl⟩
  | cons t later =>
      have tail : later <:+ t :: later := List.suffix_cons t later
      simp only [climb] at found
      split at found
      next =>
        split at found
        next =>
          simp only [Checked.bind_eq_ok] at found
          obtain ⟨⟨yes, colon⟩, yesRead, ⟨_, third⟩, expected, ⟨no, after⟩, noRead, built, ternary,
            climbed⟩ := found
          obtain ⟨yesWithin, second⟩ := draws.read (inside.suffix tail) yesRead
          have third := (expect_suffix expected).trans (second.1.trans tail)
          obtain ⟨noWithin, last⟩ := draws.read (inside.suffix third) noRead
          have last := last.1.trans third
          have built := Typed.within_ternary within yesWithin noWithin ternary
          obtain ⟨within, suffix⟩ := draws.climb (inside.suffix last) built climbed
          exact ⟨within, suffix.trans last⟩
        next => cases found; exact ⟨within, List.suffix_rfl⟩
      next =>
        split at found
        next =>
          simp only [Checked.bind_eq_ok] at found
          obtain ⟨⟨right, after⟩, rightRead, built, binary, climbed⟩ := found
          obtain ⟨rightWithin, second⟩ := draws.read (inside.suffix tail) rightRead
          have second := second.1.trans tail
          have built := Typed.within_binary within rightWithin binary
          obtain ⟨within, suffix⟩ := draws.climb (inside.suffix second) built climbed
          exact ⟨within, suffix.trans second⟩
        next => cases found; exact ⟨within, List.suffix_rfl⟩
      next => cases found; exact ⟨within, List.suffix_rfl⟩

omit draws in
theorem construct_draws {keyword : Token}
    (found : construct env anchor keyword tokens = .ok (e, rest)) :
    e.node.Within files ∧ rest <:+ tokens := by
  simp only [construct, Checked.bind_eq_ok] at found
  obtain ⟨⟨name, later⟩, nameRead, found⟩ := found
  obtain ⟨rfl, _⟩ := expect_eq_ok nameRead
  have named : files name.span.fileId := inside name (by simp)
  have ends : ∀ {beyond}, beyond <:+ later →
      (do let e ← Typed.construct env keyword name; Except.ok (e, beyond)) = Except.ok (e, rest) →
      e.node.Within files ∧ rest <:+ name :: later := by
    intro beyond suffix built
    simp only [Checked.bind_eq_ok] at built
    obtain ⟨built, construct, same⟩ := built
    cases same
    exact ⟨Typed.within_construct named construct, suffix.trans (List.suffix_cons name later)⟩
  cases later with
  | nil => exact ends List.suffix_rfl found
  | cons t after =>
      dsimp only at found
      split at found
      next =>
        simp only [Checked.bind_eq_ok] at found
        obtain ⟨⟨_, beyond⟩, closed, _, same, built⟩ := found
        cases same
        refine ends ((expect_suffix closed).trans (List.suffix_cons t after)) ?_
        simpa using built
      next => exact ends List.suffix_rfl found

theorem minus_draws {t : Token} {later : List Token} (same : tokens = t :: later)
    (minus : t.kind = .binary .sub)
    (found : operand env anchor (bound + 1) tokens = .ok (e, rest)) :
    e.node.Within files ∧ Shortens tokens rest := by
  subst same
  have tail := inside.suffix (List.suffix_cons t later)
  simp only [operand, minus] at found
  cases later with
  | nil => simp at found
  | cons next after =>
      simp only at found
      split at found
      next =>
        simp only [Checked.bind_eq_ok] at found
        obtain ⟨number, read, same⟩ := found
        obtain ⟨rfl, _⟩ := Typed.intLiteral_eq_ok read
        cases same
        refine ⟨Typed.within_unary (Typed.within_of (Node.within_leaf rfl)), ?_⟩
        exact shortens_cons (List.suffix_cons next rest) t
      next =>
        simp only [Checked.bind_eq_ok] at found
        obtain ⟨⟨inner, _⟩, read, _, _, same⟩ := found
        cases same
        obtain ⟨within, shortens⟩ := draws.operand tail read
        exact ⟨Typed.within_unary within, shortens_cons shortens.1 t⟩

theorem name_draws {t : Token} {later : List Token} (same : tokens = t :: later)
    (name : t.kind = .identifier)
    (found : operand env anchor (bound + 1) tokens = .ok (e, rest)) :
    e.node.Within files ∧ Shortens tokens rest := by
  subst same
  have tail := inside.suffix (List.suffix_cons t later)
  simp only [operand, name] at found
  cases later with
  | nil =>
      simp only [Checked.bind_eq_ok] at found
      obtain ⟨variableRead, read, same⟩ := found
      cases same
      exact ⟨Typed.within_reference read, shortens_cons List.suffix_rfl t⟩
  | cons next after =>
      have afterNext : after <:+ next :: after := List.suffix_cons next after
      simp only at found
      split at found
      next =>
        simp only [Checked.bind_eq_ok] at found
        obtain ⟨⟨args, _⟩, argsRead, ⟨_, _⟩, closed, called, call, same⟩ := found
        cases same
        obtain ⟨within, suffix⟩ := draws.arguments (tail.suffix afterNext) argsRead
        have left := ((expect_suffix closed).trans suffix).trans afterNext
        exact ⟨Typed.within_call within call, shortens_cons left t⟩
      next =>
        simp only [enumMember, Checked.bind_eq_ok] at found
        obtain ⟨⟨member, _⟩, memberRead, selected, select, same⟩ := found
        cases same
        have left := (expect_suffix memberRead).trans afterNext
        exact ⟨Typed.within_enumMember select, shortens_cons left t⟩
      next =>
        simp only [Checked.bind_eq_ok] at found
        obtain ⟨variableRead, read, same⟩ := found
        cases same
        exact ⟨Typed.within_reference read, shortens_cons List.suffix_rfl t⟩

theorem operand_draws (found : operand env anchor (bound + 1) tokens = .ok (e, rest)) :
    e.node.Within files ∧ Shortens tokens rest := by
  cases tokens with
  | nil => simp [operand] at found
  | cons t later =>
      have tail := inside.suffix (List.suffix_cons t later)
      cases kind : t.kind with
      | binary op =>
          cases op with
          | sub => exact minus_draws draws inside rfl kind found
          | add =>
              simp only [operand, kind, Checked.bind_eq_ok] at found
              obtain ⟨⟨inner, _⟩, read, _, _, same⟩ := found
              cases same
              obtain ⟨within, shortens⟩ := draws.operand tail read
              exact ⟨within, shortens_cons shortens.1 t⟩
          | _ => simp [operand, kind] at found
      | increment | decrement =>
          simp only [operand, kind, Checked.bind_eq_ok] at found
          obtain ⟨⟨inner, _⟩, read, _, _, same⟩ := found
          cases same
          obtain ⟨within, shortens⟩ := draws.operand tail read
          exact ⟨within, shortens_cons shortens.1 t⟩
      | bang | tilde =>
          simp only [operand, kind, Checked.bind_eq_ok] at found
          obtain ⟨⟨inner, _⟩, read, _, _, same⟩ := found
          cases same
          obtain ⟨within, shortens⟩ := draws.operand tail read
          exact ⟨Typed.within_unary within, shortens_cons shortens.1 t⟩
      | datatype p =>
          simp only [operand, kind] at found
          split at found
          next => simp at found
          next =>
            simp only [Checked.bind_eq_ok] at found
            obtain ⟨⟨inner, _⟩, read, same⟩ := found
            cases same
            obtain ⟨within, shortens⟩ := draws.operand tail read
            exact ⟨Typed.within_cast within, shortens_cons shortens.1 t⟩
      | identifier => exact name_draws draws inside rfl kind found
      | literal l =>
          simp only [operand, kind, Checked.bind_eq_ok] at found
          obtain ⟨constant, read, same⟩ := found
          cases same
          exact ⟨Typed.within_literal read, shortens_cons List.suffix_rfl t⟩
      | keyword k =>
          cases k with
          | new =>
              simp only [operand, kind] at found
              obtain ⟨within, suffix⟩ := construct_draws tail found
              exact ⟨within, shortens_cons suffix t⟩
          | _ => simp [operand, kind] at found
      | punctuation p =>
          cases p with
          | leftParen =>
              simp only [operand, kind, Checked.bind_eq_ok] at found
              obtain ⟨⟨inner, _⟩, read, ⟨_, _⟩, closed, same⟩ := found
              cases same
              obtain ⟨within, shortens⟩ := draws.read tail read
              exact ⟨within, shortens_cons ((expect_suffix closed).trans shortens.1) t⟩
          | _ => simp [operand, kind] at found
      | _ => simp [operand, kind] at found

theorem argumentList_draws {args : List Typed}
    (found : argumentList env anchor (bound + 1) tokens = .ok (args, rest)) :
    (∀ a ∈ args, a.node.Within files) ∧ Shortens tokens rest := by
  simp only [argumentList, Checked.bind_eq_ok] at found
  obtain ⟨⟨first, later⟩, firstRead, found⟩ := found
  obtain ⟨within, shortens⟩ := draws.read inside firstRead
  cases later with
  | nil => cases found; exact ⟨by simpa using within, shortens⟩
  | cons t after =>
      dsimp only at found
      split at found
      next =>
        simp only [Checked.bind_eq_ok] at found
        obtain ⟨⟨others, _⟩, othersRead, same⟩ := found
        cases same
        have tail := List.suffix_cons t after
        obtain ⟨all, later⟩ :=
          draws.argumentList (inside.suffix (tail.trans shortens.1)) othersRead
        refine ⟨?_, shortens.trans (later.1.trans tail)⟩
        intro a member
        rcases List.mem_cons.mp member with rfl | member
        · exact within
        · exact all a member
      next => cases found; exact ⟨by simpa using within, shortens⟩

theorem arguments_draws {args : List Typed}
    (found : arguments env anchor (bound + 1) tokens = .ok (args, rest)) :
    (∀ a ∈ args, a.node.Within files) ∧ rest <:+ tokens := by
  simp only [arguments] at found
  split at found
  next => cases found; exact ⟨by simp, List.suffix_rfl⟩
  next =>
    obtain ⟨within, shortens⟩ := draws.argumentList inside found
    exact ⟨within, shortens.1⟩

end Readers

theorem draws (files : FileId → Prop) (env : Environment) (anchor : Token) (bound : Nat) :
    Draws files env anchor bound := by
  induction bound with
  | zero => exact draws_zero
  | succ bound ih =>
      exact
        { read := fun inside => read_draws ih inside
          climb := fun inside => climb_draws ih inside
          operand := operand_draws ih
          arguments := fun inside => arguments_draws ih inside
          argumentList := fun inside => argumentList_draws ih inside }

end Expression

theorem Environment.expression_within {env : Environment} {e : Typed}
    (inside : Tokens.In files tokens) (read : env.expression tokens place = .ok e) :
    e.node.Within files := by
  unfold expression at read
  split at read
  next => simp at read
  next anchor _ =>
    simp only [Checked.bind_eq_ok] at read
    obtain ⟨⟨found, rest⟩, first, read⟩ := read
    split at read
    next => cases read; exact ((Expression.draws files env anchor _).read inside first).1
    next => simp at read

end MiLanguage
