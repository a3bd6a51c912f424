import MiLanguage.Expression.Reading
import MiLanguage.Proofs.Checked
import MiLanguage.Proofs.Expression.Surface

set_option autoImplicit false

namespace MiLanguage

-- What some expression stands for.
def Environment.Means (env : Environment) (e : Typed) : Prop :=
  ∃ surface, Elaborates env surface e

def Environment.MeanAll (env : Environment) (args : List Typed) : Prop :=
  ∃ surfaces, ElaboratesAll env surfaces args

namespace Typed

variable {env : Environment} {place : Token}

theorem intLiteral_eq_ok {negated : Bool} {e : Typed}
    (read : intLiteral place negated = .ok e) :
    e = integer place ∧ ∃ n, intValue? place.lexeme = some n ∧
      n ≤ if negated then maxInt + 1 else maxInt := by
  unfold intLiteral at read
  generalize (if negated then maxInt + 1 else maxInt) = limit at read ⊢
  dsimp only at read
  split at read
  next bounded =>
    obtain ⟨n, value, le⟩ := Option.any_eq_true _ _ |>.mp bounded
    cases read
    exact ⟨rfl, n, value, by simpa using le⟩
  next => simp at read

theorem literal_means {l : LiteralToken} {e : Typed} (kind : place.kind = .literal l)
    (read : literal l place = .ok e) : env.Means e := by
  let text : TokenOf (.literal l) := ⟨place, kind⟩
  have constant : ∀ k type, l.constant? = some (k, type) →
      e = of (.leaf (.literal k) place) type → env.Means e := by
    intro k type table same
    rw [same]
    exact ⟨.literal l text, .constant table⟩
  cases l with
  | int =>
      obtain ⟨same, n, value, le⟩ := intLiteral_eq_ok read
      rw [same]
      exact ⟨.literal .int text, .integer value (by simpa using le)⟩
  | long =>
      simp only [literal, longLiteral] at read
      split at read
      next bounded =>
        obtain ⟨n, value, le⟩ := Option.any_eq_true _ _ |>.mp bounded
        cases read
        exact ⟨.literal .long text, .long value (by simpa using le)⟩
      next => simp at read
  | _ => cases read; exact constant _ _ rfl rfl

theorem reference_means {e : Typed} (kind : place.kind = .identifier)
    (read : reference env place = .ok e) : env.Means e := by
  simp only [reference, Checked.bind_eq_ok] at read
  obtain ⟨v, resolved, same⟩ := read
  cases same
  exact ⟨.reference ⟨place, kind⟩, .reference resolved⟩

theorem call_means {args : List Typed} {e : Typed} (kind : place.kind = .identifier)
    (means : env.MeanAll args) (read : call env place args = .ok e) : env.Means e := by
  simp only [call, Checked.bind_eq_ok] at read
  obtain ⟨callee, resolved, same⟩ := read
  obtain ⟨surfaces, elaborates⟩ := means
  cases same
  exact ⟨.call ⟨place, kind⟩ surfaces, .call elaborates resolved⟩

theorem enumMember_means {member : Token} {e : Typed} (kind : place.kind = .identifier)
    (memberKind : member.kind = .identifier) (read : enumMember env place member = .ok e) :
    env.Means e := by
  simp only [enumMember, Checked.bind_eq_ok, Checked.require_eq_ok] at read
  obtain ⟨⟨qualified, members⟩, resolved, _, present, same⟩ := read
  cases same
  exact ⟨.member ⟨place, kind⟩ ⟨member, memberKind⟩, .member resolved (by simpa using present)⟩

theorem construct_means {keyword : Token} {e : Typed} (keywordKind : keyword.kind = .keyword .new)
    (kind : place.kind = .identifier) (read : construct env keyword place = .ok e) :
    env.Means e := by
  simp only [construct, Checked.bind_eq_ok] at read
  obtain ⟨qualified, resolved, same⟩ := read
  cases same
  exact ⟨.construct ⟨keyword, keywordKind⟩ ⟨place, kind⟩, .construct resolved⟩

theorem unary_means {op : UnaryOperator} {operand : Typed} (kind : place.kind = op.sign)
    (means : env.Means operand) (takes : op.takes operand.type = true) :
    env.Means (unary op operand place) := by
  obtain ⟨surface, elaborates⟩ := means
  exact ⟨.unary op ⟨place, kind⟩ surface, .unary elaborates takes⟩

theorem cast_means {p : Primitive} {operand : Typed} (kind : place.kind = .datatype p)
    (storable : p ≠ .void) (means : env.Means operand) : env.Means (cast p operand place) := by
  obtain ⟨surface, elaborates⟩ := means
  exact ⟨.cast p ⟨place, kind⟩ surface, .cast storable elaborates⟩

theorem binary_means {op : BinaryOperator} {left right e : Typed} (kind : place.kind = .binary op)
    (leftMeans : env.Means left) (rightMeans : env.Means right)
    (built : binary op left right place = .ok e) : env.Means e := by
  obtain ⟨leftSurface, leftElaborates⟩ := leftMeans
  obtain ⟨rightSurface, rightElaborates⟩ := rightMeans
  unfold binary at built
  split at built
  next type result =>
    cases built
    exact ⟨.binary op ⟨place, kind⟩ leftSurface rightSurface,
      .binary leftElaborates rightElaborates result⟩
  next => simp at built

theorem ternary_means {condition yes no e : Typed} (kind : place.kind = .question)
    (conditionMeans : env.Means condition) (yesMeans : env.Means yes) (noMeans : env.Means no)
    (built : ternary condition yes no place = .ok e) : env.Means e := by
  obtain ⟨conditionSurface, conditionElaborates⟩ := conditionMeans
  obtain ⟨yesSurface, yesElaborates⟩ := yesMeans
  obtain ⟨noSurface, noElaborates⟩ := noMeans
  simp only [ternary, Checked.bind_eq_ok, Checked.require_eq_ok] at built
  obtain ⟨_, decides, _, related, same⟩ := built
  cases same
  exact ⟨.ternary ⟨place, kind⟩ conditionSurface yesSurface noSurface,
    .ternary conditionElaborates yesElaborates noElaborates decides related⟩

end Typed

namespace Expression

variable {env : Environment} {anchor : Token}

theorem expect_eq_ok {kind : TokenKind} {place : String} {tokens rest : List Token} {t : Token}
    (found : expect anchor kind place tokens = .ok (t, rest)) :
    tokens = t :: rest ∧ t.kind = kind := by
  unfold expect at found
  split at found
  next => simp at found
  next head tail =>
    split at found
    next same => cases found; exact ⟨rfl, by simpa using same⟩
    next => simp at found

-- The readers call each other with one less of `bound`, so they are treated together.
structure Sound (env : Environment) (anchor : Token) (bound : Nat) : Prop where
  read : ∀ {level tokens e rest},
    Expression.read env anchor bound level tokens = .ok (e, rest) → env.Means e
  climb : ∀ {level left tokens e rest}, env.Means left →
    Expression.climb env anchor bound level left tokens = .ok (e, rest) → env.Means e
  operand : ∀ {tokens e rest},
    Expression.operand env anchor bound tokens = .ok (e, rest) → env.Means e
  arguments : ∀ {tokens args rest},
    Expression.arguments env anchor bound tokens = .ok (args, rest) → env.MeanAll args
  argumentList : ∀ {tokens args rest},
    Expression.argumentList env anchor bound tokens = .ok (args, rest) → env.MeanAll args

theorem sound_zero : Sound env anchor 0 where
  read found := by simp [read] at found
  climb means found := by
    simp only [climb] at found
    cases found
    exact means
  operand found := by simp [operand] at found
  arguments found := by simp [arguments] at found
  argumentList found := by simp [argumentList] at found

variable {bound : Nat} {tokens rest : List Token} {e : Typed}

theorem read_sound {level : Nat} (sound : Sound env anchor bound)
    (found : read env anchor (bound + 1) level tokens = .ok (e, rest)) : env.Means e := by
  simp only [read, Checked.bind_eq_ok] at found
  obtain ⟨⟨first, later⟩, operand, climbed⟩ := found
  exact sound.climb (sound.operand operand) climbed

theorem climb_sound {level : Nat} {left : Typed} (sound : Sound env anchor bound)
    (means : env.Means left)
    (found : climb env anchor (bound + 1) level left tokens = .ok (e, rest)) : env.Means e := by
  cases tokens with
  | nil =>
      simp only [climb] at found
      cases found
      exact means
  | cons t later =>
      simp only [climb] at found
      split at found
      next question =>
        split at found
        next =>
          simp only [Checked.bind_eq_ok] at found
          obtain ⟨⟨yes, _⟩, yesRead, _, _, ⟨no, _⟩, noRead, built, ternary, climbed⟩ := found
          exact sound.climb
            (Typed.ternary_means question means (sound.read yesRead) (sound.read noRead) ternary)
            climbed
        next => cases found; exact means
      next op sign =>
        split at found
        next =>
          simp only [Checked.bind_eq_ok] at found
          obtain ⟨⟨right, _⟩, rightRead, built, binary, climbed⟩ := found
          exact sound.climb (Typed.binary_means sign means (sound.read rightRead) binary) climbed
        next => cases found; exact means
      next => cases found; exact means

theorem minus_sound {t : Token} (minus : t.kind = .binary .sub) (sound : Sound env anchor bound)
    (found : operand env anchor (bound + 1) (t :: tokens) = .ok (e, rest)) : env.Means e := by
  simp only [operand, minus] at found
  cases tokens with
  | nil => simp at found
  | cons next later =>
      simp only at found
      split at found
      next integer =>
        rw [Token.is_iff] at integer
        simp only [Checked.bind_eq_ok] at found
        obtain ⟨number, read, same⟩ := found
        obtain ⟨rfl, n, value, le⟩ := Typed.intLiteral_eq_ok read
        cases same
        exact ⟨.unary .negate ⟨t, minus⟩ (.literal .int ⟨next, integer⟩),
          .negative value (by simpa using le)⟩
      next =>
        simp only [Checked.bind_eq_ok, Typed.requireOperand, Checked.require_eq_ok] at found
        obtain ⟨⟨inner, _⟩, read, _, signed, same⟩ := found
        cases same
        exact Typed.unary_means minus (sound.operand read) signed

theorem name_sound {t : Token} (name : t.kind = .identifier) (sound : Sound env anchor bound)
    (found : operand env anchor (bound + 1) (t :: tokens) = .ok (e, rest)) : env.Means e := by
  simp only [operand, name] at found
  cases tokens with
  | nil =>
      simp only [Checked.bind_eq_ok] at found
      obtain ⟨variableRead, read, same⟩ := found
      cases same
      exact Typed.reference_means name read
  | cons next later =>
      simp only at found
      split at found
      next =>
        simp only [Checked.bind_eq_ok] at found
        obtain ⟨⟨args, _⟩, argsRead, _, _, called, call, same⟩ := found
        cases same
        exact Typed.call_means name (sound.arguments argsRead) call
      next =>
        simp only [enumMember, Checked.bind_eq_ok] at found
        obtain ⟨⟨member, _⟩, memberRead, selected, select, same⟩ := found
        cases same
        exact Typed.enumMember_means name (expect_eq_ok memberRead).2 select
      next =>
        simp only [Checked.bind_eq_ok] at found
        obtain ⟨variableRead, read, same⟩ := found
        cases same
        exact Typed.reference_means name read

theorem construct_sound {keyword : Token} (new : keyword.kind = .keyword .new)
    (found : construct env anchor keyword tokens = .ok (e, rest)) : env.Means e := by
  simp only [construct, Checked.bind_eq_ok] at found
  obtain ⟨⟨name, later⟩, nameRead, found⟩ := found
  have identifier := (expect_eq_ok nameRead).2
  dsimp only at found
  split at found
  next =>
    simp only [Checked.bind_eq_ok] at found
    obtain ⟨_, _, built, construct, same⟩ := found
    cases same
    exact Typed.construct_means new identifier construct
  next =>
    split at found
    next =>
      simp only [Checked.bind_eq_ok] at found
      obtain ⟨_, _, _, _, built, construct, same⟩ := found
      cases same
      exact Typed.construct_means new identifier construct
    next =>
      simp only [Checked.bind_eq_ok] at found
      obtain ⟨_, _, built, construct, same⟩ := found
      cases same
      exact Typed.construct_means new identifier construct

theorem operand_sound (sound : Sound env anchor bound)
    (found : operand env anchor (bound + 1) tokens = .ok (e, rest)) : env.Means e := by
  cases tokens with
  | nil => simp [operand] at found
  | cons t later =>
      cases kind : t.kind with
      | binary op =>
          cases op with
          | sub => exact minus_sound kind sound found
          | add =>
              simp only [operand, kind, Checked.bind_eq_ok] at found
              obtain ⟨⟨inner, _⟩, read, _, _, same⟩ := found
              cases same
              exact sound.operand read
          | _ => simp [operand, kind] at found
      | increment | decrement =>
          simp only [operand, kind, Checked.bind_eq_ok] at found
          obtain ⟨⟨inner, _⟩, read, _, _, same⟩ := found
          cases same
          exact sound.operand read
      | bang | tilde =>
          simp only [operand, kind, Checked.bind_eq_ok, Typed.requireOperand,
            Checked.require_eq_ok] at found
          obtain ⟨⟨inner, _⟩, read, _, takes, same⟩ := found
          cases same
          exact Typed.unary_means kind (sound.operand read) takes
      | datatype p =>
          simp only [operand, kind] at found
          split at found
          next => simp at found
          next storable =>
            simp only [Checked.bind_eq_ok] at found
            obtain ⟨⟨inner, _⟩, read, same⟩ := found
            cases same
            exact Typed.cast_means kind storable (sound.operand read)
      | identifier => exact name_sound kind sound found
      | literal l =>
          simp only [operand, kind, Checked.bind_eq_ok] at found
          obtain ⟨constant, read, same⟩ := found
          cases same
          exact Typed.literal_means kind read
      | keyword k =>
          cases k with
          | new =>
              simp only [operand, kind] at found
              exact construct_sound kind found
          | _ => simp [operand, kind] at found
      | punctuation p =>
          cases p with
          | leftParen =>
              simp only [operand, kind, Checked.bind_eq_ok] at found
              obtain ⟨⟨inner, _⟩, read, _, _, same⟩ := found
              cases same
              exact sound.read read
          | _ => simp [operand, kind] at found
      | _ => simp [operand, kind] at found

theorem argumentList_sound {args : List Typed} (sound : Sound env anchor bound)
    (found : argumentList env anchor (bound + 1) tokens = .ok (args, rest)) :
    env.MeanAll args := by
  simp only [argumentList, Checked.bind_eq_ok] at found
  obtain ⟨⟨first, later⟩, firstRead, found⟩ := found
  obtain ⟨surface, elaborates⟩ := sound.read firstRead
  have alone : env.MeanAll [first] := ⟨[surface], .cons elaborates .nil⟩
  split at found
  next => cases found; exact alone
  next =>
    split at found
    next =>
      simp only [Checked.bind_eq_ok] at found
      obtain ⟨⟨others, _⟩, othersRead, same⟩ := found
      obtain ⟨surfaces, elaborateAll⟩ := sound.argumentList othersRead
      cases same
      exact ⟨surface :: surfaces, .cons elaborates elaborateAll⟩
    next => cases found; exact alone

theorem arguments_sound {args : List Typed} (sound : Sound env anchor bound)
    (found : arguments env anchor (bound + 1) tokens = .ok (args, rest)) : env.MeanAll args := by
  simp only [arguments] at found
  split at found
  next => cases found; exact ⟨[], .nil⟩
  next => exact sound.argumentList found

theorem sound (env : Environment) (anchor : Token) (bound : Nat) : Sound env anchor bound := by
  induction bound with
  | zero => exact sound_zero
  | succ bound ih =>
      exact
        { read := read_sound ih
          climb := climb_sound ih
          operand := operand_sound ih
          arguments := arguments_sound ih
          argumentList := argumentList_sound ih }

end Expression

-- What the reader makes of a text is what the typing rules say of some expression.
theorem Environment.expression_means {env : Environment} {tokens : List Token} {place : Token}
    {e : Typed} (read : env.expression tokens place = .ok e) : env.Means e := by
  unfold expression at read
  split at read
  next => simp at read
  next anchor _ =>
    simp only [Checked.bind_eq_ok] at read
    obtain ⟨⟨found, rest⟩, first, read⟩ := read
    split at read
    next => cases read; exact (Expression.sound env anchor _).read first
    next => simp at read

end MiLanguage
