import MiLanguage.Proofs.Expression.Soundness

set_option autoImplicit false

namespace MiLanguage

/-- What may come next in an expression. A class name behind `new` may have empty parentheses. -/
inductive Turn where
  | operand | className | emptyParens | operator
  deriving DecidableEq

def Turn.next (turn : Turn) : TokenKind → Turn
  | .identifier => if turn = .className then .emptyParens else .operator
  | .literal _ | .rightParen => .operator
  | .keyword .new => .className
  | _ => .operand

-- The kinds of the tokens of an expression, without parentheses that only group, the empty ones
-- behind `new`, and a `+` in front of an operand. `calls` says of each open parenthesis, the
-- innermost first, whether it stands behind the name of a function.
def significantFrom (turn : Turn) (calls : List Bool) : List Token → List TokenKind
  | [] => []
  | t :: rest =>
      match t.kind with
      | .leftParen =>
          if turn = .operator then .leftParen :: significantFrom .operand (true :: calls) rest
          else significantFrom .operand (false :: calls) rest
      | .rightParen =>
          if calls.headD false then .rightParen :: significantFrom .operator calls.tail rest
          else significantFrom .operator calls.tail rest
      | .binary .add =>
          if turn = .operand then significantFrom .operand calls rest
          else .binary .add :: significantFrom .operand calls rest
      | kind => kind :: significantFrom (turn.next kind) calls rest

def significant (tokens : List Token) : List TokenKind := significantFrom .operand [] tokens

def TokenKind.isStep : TokenKind → Bool
  | increment | decrement => true
  | _ => false

def separated : List (List TokenKind) → List TokenKind
  | [] => []
  | [part] => part
  | part :: parts => part ++ .comma :: separated parts

-- How a node of an expression spells out, given the kind of its token and what the nodes below it
-- spell.
def NodeKind.spell : NodeKind → Option TokenKind → List (List TokenKind) → List TokenKind
  | binary op, _, [left, right] => left ++ .binary op :: right
  | unary op, _, [operand] => op.sign :: operand
  | ternaryOperator, _, [test, yes, no] => test ++ .question :: yes ++ .colon :: no
  | functionCall, _, [name, args] => name ++ .leftParen :: args ++ [.rightParen]
  | parameters, _, args => separated args
  | getEnumMember, _, [enum, member] => enum ++ .doubleColon :: member
  | structConstruct, some name, _ => [.keyword .new, name]
  | _, token, parts => token.toList ++ parts.flatten

namespace Node

mutual
-- The tree of an expression read back in source order, as the kinds of the tokens it stands for.
def readBack : Node → List TokenKind
  | ⟨kind, token, children, _, _⟩ => kind.spell (token.map Token.kind) (readBackAll children)
def readBackAll : List Node → List (List TokenKind)
  | [] => []
  | n :: ns => readBack n :: readBackAll ns
end

theorem readBackAll_eq (ns : List Node) : readBackAll ns = ns.map readBack := by
  induction ns with
  | nil => rfl
  | cons n ns ih => rw [readBackAll, ih, List.map_cons]

theorem readBack_eq (n : Node) :
    n.readBack = n.kind.spell (n.token.map Token.kind) (n.children.map readBack) := by
  cases n
  rw [readBack, readBackAll_eq]

@[simp] theorem readBack_typed (n : Node) (type : Datatype) :
    (n.typed type).readBack = n.readBack := by
  rw [readBack_eq, readBack_eq n]
  rfl

@[simp] theorem readBack_new (kind : NodeKind) (line : Nat) (children : List Node) :
    (new kind line children).readBack = kind.spell none (children.map readBack) :=
  readBack_eq _

@[simp] theorem readBack_leaf (kind : NodeKind) (t : Token) :
    (leaf kind t).readBack = kind.spell (some t.kind) [] :=
  readBack_eq _

end Node

section Significant

variable {turn : Turn} {calls : List Bool} {t : Token} {rest : List Token}

theorem significantFrom_kept (left : t.kind ≠ .leftParen) (right : t.kind ≠ .rightParen)
    (plus : t.kind ≠ .binary .add) :
    significantFrom turn calls (t :: rest) =
      t.kind :: significantFrom (turn.next t.kind) calls rest := by
  rw [significantFrom]
  split
  next kind => exact absurd kind left
  next kind => exact absurd kind right
  next kind => exact absurd kind plus
  next => rfl

theorem mem_significantFrom {kind : TokenKind} {tokens : List Token}
    (member : kind ∈ significantFrom turn calls tokens) : ∃ t ∈ tokens, t.kind = kind := by
  induction tokens generalizing turn calls with
  | nil => cases member
  | cons t rest ih =>
      have behind : ∀ {turn calls}, kind ∈ significantFrom turn calls rest →
          ∃ u ∈ t :: rest, u.kind = kind := by
        intro turn calls later
        obtain ⟨u, here, same⟩ := ih later
        exact ⟨u, List.mem_cons_of_mem t here, same⟩
      have here : ∀ {k turn calls}, t.kind = k → kind ∈ k :: significantFrom turn calls rest →
          ∃ u ∈ t :: rest, u.kind = kind := by
        intro k turn calls same later
        rcases List.mem_cons.mp later with rfl | later
        · exact ⟨t, List.mem_cons_self, same⟩
        · exact behind later
      unfold significantFrom at member
      split at member
      next kind =>
        split at member
        · exact here kind member
        · exact behind member
      next kind =>
        split at member
        · exact here kind member
        · exact behind member
      next kind =>
        split at member
        · exact behind member
        · exact here kind member
      next => exact here rfl member

theorem significantFrom_binary {op : BinaryOperator} (sign : t.kind = .binary op) :
    significantFrom .operator calls (t :: rest) =
      .binary op :: significantFrom .operand calls rest := by
  by_cases plus : op = .add
  · cases t
    cases sign
    subst plus
    rfl
  · rw [significantFrom_kept (by simp [sign]) (by simp [sign]) (by simp [sign, plus]), sign]
    rfl

theorem significantFrom_plus (sign : t.kind = .binary .add) :
    significantFrom .operand calls (t :: rest) = significantFrom .operand calls rest := by
  cases t
  cases sign
  rfl

theorem significantFrom_call (left : t.kind = .leftParen) :
    significantFrom .operator calls (t :: rest) =
      .leftParen :: significantFrom .operand (true :: calls) rest := by
  cases t
  cases left
  rfl

theorem significantFrom_group (left : t.kind = .leftParen) (other : turn ≠ .operator) :
    significantFrom turn calls (t :: rest) = significantFrom .operand (false :: calls) rest := by
  cases t
  cases left
  exact if_neg other

theorem significantFrom_called (right : t.kind = .rightParen) :
    significantFrom turn (true :: calls) (t :: rest) =
      .rightParen :: significantFrom .operator calls rest := by
  cases t
  cases right
  rfl

theorem significantFrom_grouped (right : t.kind = .rightParen) :
    significantFrom turn (false :: calls) (t :: rest) = significantFrom .operator calls rest := by
  cases t
  cases right
  rfl

-- A class name without parentheses is a complete operand.
theorem significantFrom_emptyParens (other : ∀ t, rest.head? = some t → t.kind ≠ .leftParen) :
    significantFrom .emptyParens calls rest = significantFrom .operator calls rest := by
  cases rest with
  | nil => rfl
  | cons t rest =>
      have left := other t rfl
      unfold significantFrom
      split
      next kind => exact absurd kind left
      next => rfl
      next => rfl
      next kind _ _ _ => cases kind <;> rfl

theorem significantFrom_rightParen (right : rest.head?.any (·.is .rightParen) = true) :
    significantFrom .operand calls rest = significantFrom .operator calls rest := by
  cases rest with
  | nil => rfl
  | cons t rest =>
      have kind : t.kind = .rightParen := by simpa using right
      cases t
      cases kind
      rfl

end Significant

namespace Expression

def unstepped (kinds : List TokenKind) : List TokenKind := kinds.filter (!·.isStep)

@[simp] theorem unstepped_cons (kind : TokenKind) (kinds : List TokenKind) :
    unstepped (kind :: kinds) = if kind.isStep then unstepped kinds else kind :: unstepped kinds := by
  cases step : kind.isStep <;> simp [unstepped, step]

-- From `tokens` to `rest` the text spells `kinds`, steps aside.
def Covers (kinds : List TokenKind) (tokens rest : List Token) : Prop :=
  ∀ calls, unstepped (significantFrom .operand calls tokens) =
    kinds ++ unstepped (significantFrom .operator calls rest)

-- What the operators behind `left` make of it covers them as well.
def Extends (left whole : List TokenKind) (tokens rest : List Token) : Prop :=
  ∃ more, whole = left ++ more ∧ ∀ calls, unstepped (significantFrom .operator calls tokens) =
    more ++ unstepped (significantFrom .operator calls rest)

-- The readers call each other with one less of `bound`, so they are treated together.
structure Lossless (env : Environment) (anchor : Token) (bound : Nat) : Prop where
  read : ∀ {level tokens e rest}, Expression.read env anchor bound level tokens = .ok (e, rest) →
    Covers e.node.readBack tokens rest
  climb : ∀ {level left tokens e rest},
    Expression.climb env anchor bound level left tokens = .ok (e, rest) →
    Extends left.node.readBack e.node.readBack tokens rest
  operand : ∀ {tokens e rest}, Expression.operand env anchor bound tokens = .ok (e, rest) →
    Covers e.node.readBack tokens rest
  arguments : ∀ {tokens args rest},
    Expression.arguments env anchor bound tokens = .ok (args, rest) →
    Covers (separated (args.map fun e => e.node.readBack)) tokens rest
  argumentList : ∀ {tokens args rest},
    Expression.argumentList env anchor bound tokens = .ok (args, rest) →
    args ≠ [] ∧ Covers (separated (args.map fun e => e.node.readBack)) tokens rest

variable {env : Environment} {anchor : Token} {bound : Nat} {tokens rest : List Token} {e : Typed}

theorem Extends.refl (kinds : List TokenKind) (tokens : List Token) :
    Extends kinds kinds tokens tokens :=
  ⟨[], by simp, by simp⟩

theorem lossless_zero : Lossless env anchor 0 where
  read found := by simp [read] at found
  climb found := by
    simp only [climb] at found
    cases found
    exact .refl _ _
  operand found := by simp [operand] at found
  arguments found := by simp [arguments] at found
  argumentList found := by simp [argumentList] at found

theorem read_lossless {level : Nat} (lossless : Lossless env anchor bound)
    (found : read env anchor (bound + 1) level tokens = .ok (e, rest)) :
    Covers e.node.readBack tokens rest := by
  simp only [read, Checked.bind_eq_ok] at found
  obtain ⟨⟨first, later⟩, operand, climbed⟩ := found
  obtain ⟨more, whole, behind⟩ := lossless.climb climbed
  intro calls
  rw [lossless.operand operand calls, behind calls, whole, List.append_assoc]

theorem readBack_ternary {condition yes no : Typed} {place : Token}
    (built : Typed.ternary condition yes no place = .ok e) :
    e.node.readBack = condition.node.readBack ++ .question :: yes.node.readBack ++
      .colon :: no.node.readBack := by
  simp only [Typed.ternary, Checked.bind_eq_ok] at built
  obtain ⟨_, _, _, _, same⟩ := built
  cases same
  simp [NodeKind.spell]

theorem readBack_binary {op : BinaryOperator} {left right : Typed} {place : Token}
    (built : Typed.binary op left right place = .ok e) :
    e.node.readBack = left.node.readBack ++ .binary op :: right.node.readBack := by
  unfold Typed.binary at built
  split at built
  next =>
    cases built
    simp [NodeKind.spell]
  next => simp at built

theorem climb_lossless {level : Nat} {left : Typed} (lossless : Lossless env anchor bound)
    (found : climb env anchor (bound + 1) level left tokens = .ok (e, rest)) :
    Extends left.node.readBack e.node.readBack tokens rest := by
  cases tokens with
  | nil =>
      simp only [climb] at found
      cases found
      exact .refl _ _
  | cons t later =>
      simp only [climb] at found
      split at found
      next question =>
        split at found
        next =>
          simp only [Checked.bind_eq_ok] at found
          obtain ⟨⟨yes, _⟩, yesRead, ⟨colon, _⟩, colonRead, ⟨no, _⟩, noRead, built, ternary,
            climbed⟩ := found
          obtain ⟨rfl, colonKind⟩ := expect_eq_ok colonRead
          obtain ⟨more, whole, behind⟩ := lossless.climb climbed
          refine ⟨.question :: yes.node.readBack ++ .colon :: no.node.readBack ++ more, ?_, ?_⟩
          · rw [whole, readBack_ternary ternary]
            simp
          · intro calls
            have yesCovers := lossless.read yesRead calls
            have noCovers := lossless.read noRead calls
            rw [significantFrom_kept (by simp [colonKind]) (by simp [colonKind])
              (by simp [colonKind])] at yesCovers
            rw [significantFrom_kept (by simp [question]) (by simp [question]) (by simp [question])]
            simp_all [Turn.next, TokenKind.isStep]
        next =>
          cases found
          exact .refl _ _
      next op sign =>
        split at found
        next =>
          simp only [Checked.bind_eq_ok] at found
          obtain ⟨⟨right, _⟩, rightRead, built, binary, climbed⟩ := found
          obtain ⟨more, whole, behind⟩ := lossless.climb climbed
          refine ⟨.binary op :: right.node.readBack ++ more, ?_, ?_⟩
          · rw [whole, readBack_binary binary]
            simp
          · intro calls
            rw [significantFrom_binary sign]
            simp [TokenKind.isStep, lossless.read rightRead calls, behind calls]
        next =>
          cases found
          exact .refl _ _
      next =>
        cases found
        exact .refl _ _

-- A sign in front of an operand.
theorem covers_sign {t : Token} {kinds : List TokenKind} (covers : Covers kinds tokens rest)
    (left : t.kind ≠ .leftParen) (right : t.kind ≠ .rightParen) (plus : t.kind ≠ .binary .add)
    (turn : Turn.operand.next t.kind = .operand) :
    Covers (unstepped [t.kind] ++ kinds) (t :: tokens) rest := by
  intro calls
  rw [significantFrom_kept left right plus, turn]
  cases step : t.kind.isStep <;> simp [unstepped, step] <;> exact covers calls

theorem minus_lossless {t : Token} (minus : t.kind = .binary .sub)
    (lossless : Lossless env anchor bound)
    (found : operand env anchor (bound + 1) (t :: tokens) = .ok (e, rest)) :
    Covers e.node.readBack (t :: tokens) rest := by
  have sign : ∀ {kinds later}, Covers kinds tokens later →
      Covers (.binary .sub :: kinds) (t :: tokens) later := by
    intro kinds later covers
    have signed := covers_sign (t := t) covers (by simp [minus]) (by simp [minus]) (by simp [minus])
      (by simp [minus, Turn.next])
    simpa [minus, unstepped, TokenKind.isStep] using signed
  simp only [operand, minus] at found
  cases tokens with
  | nil => simp at found
  | cons next later =>
      simp only at found
      split at found
      next integer =>
        rw [Token.is_iff] at integer
        simp only [Checked.bind_eq_ok] at found
        obtain ⟨number, read, same⟩ := found
        obtain ⟨rfl, _⟩ := Typed.intLiteral_eq_ok read
        cases same
        have covers : Covers [.literal .int] (next :: rest) rest := by
          intro calls
          rw [significantFrom_kept (by simp [integer]) (by simp [integer]) (by simp [integer])]
          simp [integer, TokenKind.isStep, Turn.next]
        simpa [Typed.unary, Typed.integer, NodeKind.spell, UnaryOperator.sign, integer] using
          sign covers
      next =>
        simp only [Checked.bind_eq_ok] at found
        obtain ⟨⟨inner, _⟩, read, _, _, same⟩ := found
        cases same
        simpa [Typed.unary, NodeKind.spell, UnaryOperator.sign] using sign (lossless.operand read)

theorem readBack_reference {place : Token} (built : Typed.reference env place = .ok e) :
    e.node.readBack = [.identifier] := by
  simp only [Typed.reference, Checked.bind_eq_ok] at built
  obtain ⟨v, _, same⟩ := built
  cases same
  simp [NodeKind.spell]

theorem readBack_call {place : Token} {args : List Typed}
    (built : Typed.call env place args = .ok e) :
    e.node.readBack = .identifier :: .leftParen ::
      separated (args.map fun e => e.node.readBack) ++ [.rightParen] := by
  simp only [Typed.call, Checked.bind_eq_ok] at built
  obtain ⟨callee, _, same⟩ := built
  cases same
  simp [NodeKind.spell, Function.comp_def]

theorem covers_name {name : Token} (kind : name.kind = .identifier) :
    Covers [.identifier] (name :: tokens) tokens := by
  intro calls
  rw [significantFrom_kept (by simp [kind]) (by simp [kind]) (by simp [kind])]
  simp [kind, TokenKind.isStep, Turn.next]

theorem name_lossless {t : Token} (name : t.kind = .identifier)
    (lossless : Lossless env anchor bound)
    (found : operand env anchor (bound + 1) (t :: tokens) = .ok (e, rest)) :
    Covers e.node.readBack (t :: tokens) rest := by
  have named : ∀ {later}, Covers [.identifier] (t :: later) later := covers_name name
  simp only [operand, name] at found
  cases tokens with
  | nil =>
      simp only [Checked.bind_eq_ok] at found
      obtain ⟨variableRead, read, same⟩ := found
      cases same
      rw [readBack_reference read]
      exact named
  | cons next later =>
      simp only at found
      split at found
      next left =>
        simp only [Checked.bind_eq_ok] at found
        obtain ⟨⟨args, _⟩, argsRead, ⟨closing, _⟩, closes, called, call, same⟩ := found
        obtain ⟨rfl, right⟩ := expect_eq_ok closes
        cases same
        intro calls
        rw [named calls, significantFrom_call left, readBack_call call]
        have covers := lossless.arguments argsRead (true :: calls)
        rw [significantFrom_called right] at covers
        simp [TokenKind.isStep, covers]
      next colons =>
        simp only [enumMember, Typed.enumMember, Checked.bind_eq_ok] at found
        obtain ⟨⟨member, _⟩, memberRead, _, ⟨_, _, _, _, built⟩, same⟩ := found
        obtain ⟨rfl, memberKind⟩ := expect_eq_ok memberRead
        cases built
        cases same
        intro calls
        rw [named calls, significantFrom_kept (by simp [colons]) (by simp [colons])
          (by simp [colons])]
        simp [colons, TokenKind.isStep, Turn.next, covers_name memberKind calls, NodeKind.spell,
          memberKind]
      next =>
        simp only [Checked.bind_eq_ok] at found
        obtain ⟨variableRead, read, same⟩ := found
        cases same
        rw [readBack_reference read]
        exact named

theorem readBack_construct {keyword name : Token}
    (built : Typed.construct env keyword name = .ok e) :
    e.node.readBack = [.keyword .new, .identifier] := by
  simp only [Typed.construct, Checked.bind_eq_ok] at built
  obtain ⟨qualified, _, same⟩ := built
  cases same
  rw [Typed.of_node, Node.readBack_typed, Node.readBack_eq]
  simp [Node.leaf, NodeKind.spell]

theorem construct_lossless {keyword : Token} (new : keyword.kind = .keyword .new)
    (found : construct env anchor keyword tokens = .ok (e, rest)) :
    Covers e.node.readBack (keyword :: tokens) rest := by
  simp only [construct, Checked.bind_eq_ok] at found
  obtain ⟨⟨name, later⟩, nameRead, found⟩ := found
  obtain ⟨rfl, identifier⟩ := expect_eq_ok nameRead
  have named : ∀ calls, unstepped (significantFrom .operand calls (keyword :: name :: later)) =
      .keyword .new :: .identifier :: unstepped (significantFrom .emptyParens calls later) := by
    intro calls
    rw [significantFrom_kept (by simp [new]) (by simp [new]) (by simp [new]),
      significantFrom_kept (by simp [identifier]) (by simp [identifier]) (by simp [identifier])]
    simp [new, identifier, TokenKind.isStep, Turn.next]
  dsimp only at found
  split at found
  next =>
    simp only [Checked.bind_eq_ok] at found
    obtain ⟨_, same, built, construct, done⟩ := found
    cases same
    cases done
    intro calls
    rw [named, readBack_construct construct]
    rfl
  next opening behind =>
    split at found
    next left =>
      rw [Token.is_iff] at left
      simp only [Checked.bind_eq_ok] at found
      obtain ⟨⟨closing, _⟩, closes, _, skipped, built, construct, same⟩ := found
      obtain ⟨rfl, right⟩ := expect_eq_ok closes
      cases skipped
      cases same
      intro calls
      rw [named, readBack_construct construct, significantFrom_group left (by simp),
        significantFrom_grouped right]
      rfl
    next other =>
      simp only [Checked.bind_eq_ok] at found
      obtain ⟨_, same, built, construct, done⟩ := found
      cases same
      cases done
      intro calls
      rw [named, readBack_construct construct, significantFrom_emptyParens (by simpa using other)]
      rfl

theorem literal_lossless {t : Token} {l : LiteralToken} (kind : t.kind = .literal l)
    (read : Typed.literal l t = .ok e) : Covers e.node.readBack (t :: tokens) tokens := by
  have spelled : e.node.readBack = [.literal l] := by
    cases l with
    | int =>
        obtain ⟨rfl, _⟩ := Typed.intLiteral_eq_ok read
        simp [Typed.integer, NodeKind.spell, kind]
    | long =>
        simp only [Typed.literal, Typed.longLiteral] at read
        split at read
        next =>
          cases read
          simp [NodeKind.spell, kind]
        next => simp at read
    | _ =>
        cases read
        simp [NodeKind.spell, kind]
  intro calls
  rw [spelled, significantFrom_kept (by simp [kind]) (by simp [kind]) (by simp [kind])]
  simp [kind, TokenKind.isStep, Turn.next]

theorem operand_lossless (lossless : Lossless env anchor bound)
    (found : operand env anchor (bound + 1) tokens = .ok (e, rest)) :
    Covers e.node.readBack tokens rest := by
  cases tokens with
  | nil => simp [operand] at found
  | cons t later =>
      cases kind : t.kind with
      | binary op =>
          cases op with
          | sub => exact minus_lossless kind lossless found
          | add =>
              simp only [operand, kind, Checked.bind_eq_ok] at found
              obtain ⟨⟨inner, _⟩, read, _, _, same⟩ := found
              cases same
              intro calls
              rw [significantFrom_plus kind, lossless.operand read calls]
          | _ => simp [operand, kind] at found
      | increment | decrement =>
          simp only [operand, kind, Checked.bind_eq_ok] at found
          obtain ⟨⟨inner, _⟩, read, _, _, same⟩ := found
          cases same
          have signed := covers_sign (t := t) (lossless.operand read) (by simp [kind])
            (by simp [kind]) (by simp [kind]) (by simp [kind, Turn.next])
          simpa [kind, unstepped, TokenKind.isStep] using signed
      | bang | tilde =>
          simp only [operand, kind, Checked.bind_eq_ok] at found
          obtain ⟨⟨inner, _⟩, read, _, _, same⟩ := found
          cases same
          have signed := covers_sign (t := t) (lossless.operand read) (by simp [kind])
            (by simp [kind]) (by simp [kind]) (by simp [kind, Turn.next])
          simpa [kind, unstepped, TokenKind.isStep, Typed.unary, NodeKind.spell,
            UnaryOperator.sign] using signed
      | datatype p =>
          simp only [operand, kind] at found
          split at found
          next => simp at found
          next =>
            simp only [Checked.bind_eq_ok] at found
            obtain ⟨⟨inner, _⟩, read, same⟩ := found
            cases same
            have signed := covers_sign (t := t) (lossless.operand read) (by simp [kind])
              (by simp [kind]) (by simp [kind]) (by simp [kind, Turn.next])
            rw [Typed.cast, Typed.of_node, Node.readBack_typed, Node.readBack_eq]
            simpa [kind, unstepped, TokenKind.isStep, NodeKind.spell, Node.leaf, Node.push] using signed
      | identifier => exact name_lossless kind lossless found
      | literal l =>
          simp only [operand, kind, Checked.bind_eq_ok] at found
          obtain ⟨constant, read, same⟩ := found
          cases same
          exact literal_lossless kind read
      | keyword k =>
          cases k with
          | new =>
              simp only [operand, kind] at found
              exact construct_lossless kind found
          | _ => simp [operand, kind] at found
      | punctuation p =>
          cases p with
          | leftParen =>
              simp only [operand, kind, Checked.bind_eq_ok] at found
              obtain ⟨⟨inner, _⟩, read, ⟨closing, _⟩, closes, same⟩ := found
              obtain ⟨rfl, right⟩ := expect_eq_ok closes
              cases same
              intro calls
              rw [significantFrom_group kind (by simp), lossless.read read,
                significantFrom_grouped right]
          | _ => simp [operand, kind] at found
      | _ => simp [operand, kind] at found

theorem argumentList_lossless {args : List Typed} (lossless : Lossless env anchor bound)
    (found : argumentList env anchor (bound + 1) tokens = .ok (args, rest)) :
    args ≠ [] ∧ Covers (separated (args.map fun e => e.node.readBack)) tokens rest := by
  simp only [argumentList, Checked.bind_eq_ok] at found
  obtain ⟨⟨first, later⟩, firstRead, found⟩ := found
  have alone := lossless.read firstRead
  dsimp only at found
  split at found
  next =>
    cases found
    exact ⟨by simp, alone⟩
  next t behind =>
    split at found
    next comma =>
      rw [Token.is_iff] at comma
      simp only [Checked.bind_eq_ok] at found
      obtain ⟨⟨others, _⟩, othersRead, same⟩ := found
      obtain ⟨nonempty, covers⟩ := lossless.argumentList othersRead
      cases same
      refine ⟨by simp, fun calls => ?_⟩
      obtain ⟨second, others, rfl⟩ := List.exists_cons_of_ne_nil nonempty
      rw [alone calls, significantFrom_kept (by simp [comma]) (by simp [comma]) (by simp [comma])]
      have behind := covers calls
      simp [comma, TokenKind.isStep, Turn.next, separated] at behind ⊢
      exact behind
    next =>
      cases found
      exact ⟨by simp, alone⟩

theorem arguments_lossless {args : List Typed} (lossless : Lossless env anchor bound)
    (found : arguments env anchor (bound + 1) tokens = .ok (args, rest)) :
    Covers (separated (args.map fun e => e.node.readBack)) tokens rest := by
  simp only [arguments] at found
  split at found
  next right =>
    cases found
    intro calls
    rw [significantFrom_rightParen right]
    rfl
  next => exact (lossless.argumentList found).2

theorem lossless (env : Environment) (anchor : Token) (bound : Nat) :
    Lossless env anchor bound := by
  induction bound with
  | zero => exact lossless_zero
  | succ bound ih =>
      exact
        { read := read_lossless ih
          climb := climb_lossless ih
          operand := operand_lossless ih
          arguments := arguments_lossless ih
          argumentList := argumentList_lossless ih }

end Expression

namespace Environment

-- Read back, the tree of an expression spells its significant tokens, steps aside.
theorem expression_spells {env : Environment} {tokens : List Token} {place : Token} {e : Typed}
    (read : env.expression tokens place = .ok e) :
    e.node.readBack = (significant tokens).filter (!·.isStep) := by
  unfold expression at read
  split at read
  next => simp at read
  next anchor _ =>
    simp only [Checked.bind_eq_ok] at read
    obtain ⟨⟨found, rest⟩, first, read⟩ := read
    have covers := (Expression.lossless env anchor _).read first []
    cases rest with
    | nil =>
        cases read
        simpa [significant, significantFrom, Expression.unstepped] using covers.symm
    | cons => simp at read

/-- The tree of an expression has kept every token that means something, but for `++` and `--` in
front of an operand: read back it spells the tokens of the text without the parentheses that only
group, the empty ones behind `new` and the signs `+` in front of operands. So texts with the same
tree differ in no more than these. -/
theorem expression_readBack (env : Environment) (tokens : List Token) (place : Token) (e : Typed)
    (read : env.expression tokens place = .ok e) :
    e.node.readBack = (significant tokens).filter (!·.isStep) ∧
      ((∀ t ∈ tokens, t.kind.isStep = false) → e.node.readBack = significant tokens) ∧
      ∀ (other : Environment) (others : List Token) (there : Token) (f : Typed),
        other.expression others there = .ok f → f.node = e.node →
        (significant others).filter (!·.isStep) = (significant tokens).filter (!·.isStep) := by
  refine ⟨expression_spells read, fun plain => ?_, fun other others there f found same => ?_⟩
  · rw [expression_spells read, List.filter_eq_self]
    intro kind member
    obtain ⟨t, here, rfl⟩ := mem_significantFrom member
    simp [plain t here]
  · rw [← expression_spells found, ← expression_spells read, same]

section Sample

def atRoot : Environment := ⟨.empty, .start ModuleTree.root (.new .parent 0), false⟩

-- `(1 + +2) * 3` and `--5`, of which only the first is read back as it stands.
def groupedSum : List Token :=
  [.alone .leftParen "(", .alone (.literal .int) "1", .alone (.binary .add) "+",
    .alone (.binary .add) "+", .alone (.literal .int) "2", .alone .rightParen ")",
    .alone (.binary .mul) "*", .alone (.literal .int) "3"]

def steppedNumber : List Token := [.alone .decrement "--", .alone (.literal .int) "5"]

-- What ends the statement around them.
def semicolon : Token := .alone .semicolon ";"

end Sample

theorem expression_readBack_groupedSum :
    ∃ e, atRoot.expression groupedSum semicolon = .ok e ∧
      e.node.readBack = [.literal .int, .binary .add, .literal .int, .binary .mul, .literal .int] := by
  have read : ∃ e, atRoot.expression groupedSum semicolon = .ok e := ⟨_, rfl⟩
  obtain ⟨e, read⟩ := read
  have plain : ∀ t ∈ groupedSum, t.kind.isStep = false := by decide
  have spelled := (expression_readBack atRoot groupedSum semicolon e read).2.1 plain
  exact ⟨e, read, spelled.trans (by decide)⟩

/-- The `--` of `--5` is in no tree. -/
theorem steppedNumber_readBack :
    ∃ e, atRoot.expression steppedNumber semicolon = .ok e ∧
      e.node.readBack = [.literal .int] ∧ significant steppedNumber = [.decrement, .literal .int] :=
  ⟨_, rfl, rfl, rfl⟩

end Environment

end MiLanguage
