import MiLanguage.Proofs.Visibility.Expression

set_option autoImplicit false

namespace MiLanguage

namespace Expression

variable {env : Environment} {anchor : Token} {bound : Nat} {tokens rest : List Token}
  {α β : Type}

theorem bind_congr {x y : Checked α} {f g : α → Checked β} (same : x = y)
    (each : ∀ a, y = .ok a → f a = g a) : (x >>= f) = (y >>= g) := by
  subst same
  cases x with
  | error => rfl
  | ok a => exact each a rfl

/-- A reader with this bound reads as it does with the next one, if it has enough for the tokens that
are there. -/
structure Enough (env : Environment) (anchor : Token) (bound : Nat) : Prop where
  read : ∀ level tokens, 2 * tokens.length + 1 ≤ bound →
    Expression.read env anchor (bound + 1) level tokens = Expression.read env anchor bound level tokens
  climb : ∀ level left tokens, 2 * tokens.length ≤ bound →
    Expression.climb env anchor (bound + 1) level left tokens =
      Expression.climb env anchor bound level left tokens
  operand : ∀ tokens, 2 * tokens.length ≤ bound →
    Expression.operand env anchor (bound + 1) tokens = Expression.operand env anchor bound tokens
  arguments : ∀ tokens, 2 * tokens.length + 3 ≤ bound →
    Expression.arguments env anchor (bound + 1) tokens = Expression.arguments env anchor bound tokens
  argumentList : ∀ tokens, 2 * tokens.length + 2 ≤ bound →
    Expression.argumentList env anchor (bound + 1) tokens =
      Expression.argumentList env anchor bound tokens

theorem enough_zero : Enough env anchor 0 where
  read _ _ le := absurd le (by omega)
  climb level left tokens le := by
    rw [List.length_eq_zero_iff.mp (by omega : tokens.length = 0), climb_nil, climb_nil]
  operand tokens le := by
    rw [List.length_eq_zero_iff.mp (by omega : tokens.length = 0), operand_nil, operand_nil]
  arguments _ le := absurd le (by omega)
  argumentList _ le := absurd le (by omega)

-- Whatever is read, what is left is shorter.
theorem read_shortens {level : Nat} {e : Typed}
    (found : read env anchor bound level tokens = .ok (e, rest)) : Shortens tokens rest :=
  ((draws (fun _ => True) env anchor bound).read (fun _ _ => trivial) found).2

theorem operand_shorter {e : Typed} (found : operand env anchor bound tokens = .ok (e, rest)) :
    rest.length < tokens.length :=
  ((draws (fun _ => True) env anchor bound).operand (fun _ _ => trivial) found).2.2

theorem expect_shorter {kind : TokenKind} {what : String} {t : Token}
    (found : expect anchor kind what tokens = .ok (t, rest)) : rest.length < tokens.length := by
  rw [(expect_eq_ok found).1]
  exact Nat.lt_succ_self _

section Readers

variable (enough : Enough env anchor bound)

include enough

theorem read_enough (level : Nat) (tokens : List Token) (le : 2 * tokens.length + 1 ≤ bound + 1) :
    read env anchor (bound + 2) level tokens = read env anchor (bound + 1) level tokens := by
  rw [read, read]
  refine bind_congr (enough.operand tokens (by omega)) ?_
  rintro ⟨first, rest⟩ found
  have shorter := operand_shorter found
  exact enough.climb level first rest (by omega)

theorem climb_enough (level : Nat) (left : Typed) (tokens : List Token)
    (le : 2 * tokens.length ≤ bound + 1) :
    climb env anchor (bound + 2) level left tokens = climb env anchor (bound + 1) level left tokens := by
  cases tokens with
  | nil => rw [climb_nil, climb_nil]
  | cons t rest =>
      rw [List.length_cons] at le
      simp only [climb]
      split
      next =>
        split
        next =>
          refine bind_congr (enough.read 0 rest (by omega)) ?_
          rintro ⟨yes, colon⟩ found
          have first : colon.length < rest.length := (read_shortens found).2
          refine bind_congr rfl ?_
          rintro ⟨_, after⟩ expected
          have next : after.length < colon.length := expect_shorter expected
          refine bind_congr (enough.read 0 after (by omega)) ?_
          rintro ⟨no, last⟩ other
          have second : last.length < after.length := (read_shortens other).2
          exact bind_congr rfl fun e _ => enough.climb level e last (by omega)
        next => rfl
      next =>
        split
        next op _ _ =>
          refine bind_congr (enough.read _ rest (by omega)) ?_
          rintro ⟨right, last⟩ found
          have shorter := (read_shortens found).2
          exact bind_congr rfl fun e _ => enough.climb level e last (by omega)
        next => rfl
      next => rfl

theorem operand_enough (tokens : List Token) (le : 2 * tokens.length ≤ bound + 1) :
    operand env anchor (bound + 2) tokens = operand env anchor (bound + 1) tokens := by
  cases tokens with
  | nil => rw [operand_nil, operand_nil]
  | cons t rest =>
      rw [List.length_cons] at le
      have inner := enough.operand rest (by omega)
      have whole := enough.read 0 rest (by omega)
      rw [operand.eq_def env anchor (bound + 2) (t :: rest),
        operand.eq_def env anchor (bound + 1) (t :: rest)]
      cases rest with
      | nil =>
          dsimp only
          rw [inner, whole]
      | cons next later =>
          rw [List.length_cons] at le
          have listed := enough.arguments later (by omega)
          dsimp only
          rw [inner, whole, listed]

theorem arguments_enough (tokens : List Token) (le : 2 * tokens.length + 3 ≤ bound + 1) :
    arguments env anchor (bound + 2) tokens = arguments env anchor (bound + 1) tokens := by
  simp only [arguments, enough.argumentList tokens (by omega)]

theorem argumentList_enough (tokens : List Token) (le : 2 * tokens.length + 2 ≤ bound + 1) :
    argumentList env anchor (bound + 2) tokens = argumentList env anchor (bound + 1) tokens := by
  rw [argumentList, argumentList]
  refine bind_congr (enough.read 0 tokens (by omega)) ?_
  rintro ⟨first, rest⟩ found
  have shorter := (read_shortens found).2
  cases rest with
  | nil => rfl
  | cons t later =>
      rw [List.length_cons] at shorter
      simp only [enough.argumentList later (by omega)]

end Readers

theorem enough (env : Environment) (anchor : Token) (bound : Nat) : Enough env anchor bound := by
  induction bound with
  | zero => exact enough_zero
  | succ bound ih =>
      exact ⟨read_enough ih, climb_enough ih, operand_enough ih, arguments_enough ih,
        argumentList_enough ih⟩

end Expression

end MiLanguage
