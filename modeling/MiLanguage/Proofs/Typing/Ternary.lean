import MiLanguage.Proofs.Assignability
import MiLanguage.Proofs.Typing.Run

set_option autoImplicit false

namespace MiLanguage

namespace Datatype

variable {a b : Datatype}

/-- Wherever a value of the type `whole` may stand, one of the type `part` may: where a variable
starts with it, where it is stored or given for a parameter, and where a function returns it. -/
structure Covers (whole part : Datatype) : Prop where
  itself : part.assignable whole = true
  stored : ∀ wanted, whole.assignable wanted = true → part.assignable wanted = true
  returned : ∀ wanted, wanted.isVoid = false →
    Environment.returnFits wanted whole = true → Environment.returnFits wanted part = true

theorem returnFits_eq (wanted found : Datatype) (value : wanted.isVoid = false) :
    Environment.returnFits wanted found = (!found.isVoid && found.fits wanted) := by
  cases void : found.isVoid <;> simp [Environment.returnFits, value, void]

theorem covers_of_fits {whole part : Datatype} (fits : part.fits whole = true) :
    whole.Covers part where
  itself := assignable_of_fits fits
  stored _ := assignable_trans (assignable_of_fits fits)
  returned wanted value returns := by
    rw [returnFits_eq _ _ value, Bool.and_eq_true, Bool.not_eq_true'] at returns ⊢
    refine ⟨?_, fits_trans fits returns.2⟩
    cases part with
    | null => rfl
    | of x m =>
        cases whole with
        | null => cases fits
        | of y n =>
            simp only [Datatype.fits, Bool.and_eq_true, decide_eq_true_eq] at fits
            have same : (of x m).isVoid = (of y n).isVoid := by
              rw [fits.1]
              cases y <;> rfl
            rw [same]
            exact returns.1

-- The type of a ternary takes in that of its first arm, and that of the second one just if that is
-- not the only nullable one.
theorem covers_arms (related : a.sameBase b = true) :
    (if a = .null then b else a).Covers a ∧
      ((if a = .null then b else a).Covers b ↔ (b.nullable = true → a.nullable = true)) := by
  cases a with
  | null =>
      rw [if_pos rfl]
      exact ⟨covers_of_fits related, fun _ _ => rfl, fun _ => covers_of_fits (fits_refl b)⟩
  | of x m =>
      rw [if_neg (by simp)]
      refine ⟨covers_of_fits (fits_refl _), fun covers => nullable_of_assignable covers.itself, ?_⟩
      intro wider
      refine covers_of_fits ?_
      cases b with
      | null => exact related
      | of y n =>
          have same : x = y := by simpa [sameBase] using related
          subst same
          have wider : n = true → m = true := wider
          cases n <;> simp_all [Datatype.fits]

end Datatype

namespace Node

/-- A ternary with these values in its arms, of the types `a` and `b`. -/
structure Chooses (n yes no : Node) (a b : Datatype) : Prop where
  arms : ∃ condition thenArm elseArm, n.children = [condition, thenArm, elseArm] ∧
    thenArm.kind = .ternaryIf ∧ thenArm.children = [yes] ∧
    elseArm.kind = .ternaryElse ∧ elseArm.children = [no]
  yes : yes.HasType a
  no : no.HasType b

-- The type of a ternary covers both of its arms, unless only the second one is nullable.
def ArmsCovered (n : Node) : Prop :=
  n.kind = .ternaryOperator → ∃ yes no a b type, n.Chooses yes no a b ∧ n.HasType type ∧
    type.Covers a ∧ (type.Covers b ↔ (b.nullable = true → a.nullable = true))

theorem LocallyTyped.armsCovered {n : Node} (typed : n.LocallyTyped) : n.ArmsCovered := by
  intro kind
  have fits := typed.fits
  unfold Fits at fits
  rw [kind] at fits
  obtain ⟨condition, thenArm, elseArm, yes, no, a, b, children, thenKind, thenValue, elseKind,
    elseValue, _, yesType, noType, related, type⟩ := fits
  obtain ⟨first, second⟩ := Datatype.covers_arms related
  exact ⟨yes, no, a, b, _, ⟨⟨condition, thenArm, elseArm, children, thenKind, thenValue, elseKind,
    elseValue⟩, yesType, noType⟩, type, first, second⟩

end Node

namespace Analysis

/-- Whatever the tokens are, the type of a ternary in the tree covers its first arm, and its second
arm just if that one is not nullable where the first one is not. -/
theorem root_armsCovered (host : Host) (maxErrors : Nat) (tokens : List Token) :
    (ofTokens host maxErrors tokens).root.Every Node.ArmsCovered :=
  root_every_of_typed host maxErrors tokens fun _ typed => typed.armsCovered

-- The program with a nullable value in the second arm of a ternary, which an `int` starts with.
def nullableArmProgram : List Token :=
  (programTokens "module m { fn f (bool b, int x, nullable int y) { int z = b ? x : y; } }"
    false).toOption.getD []

/-- A nullable number may not be stored in an `int`. Where it is an arm of a ternary, it is. -/
theorem nullableArm_accepted :
    let a := ofTokens {} 100 nullableArmProgram
    let plain := ofTokens {} 100 ((programTokens
      "module m { fn f (bool b, int x, nullable int y) { int z = y; } }" false).toOption.getD [])
    a.isOk = true ∧ plain.isOk = false ∧
      (a.root.findAll .ternaryOperator).map (fun n =>
        (n.type, (n.children.drop 1).map fun arm => arm.children.map Node.type)) =
        [(some .int, [[some .int], [some (.of (.primitive .int) true)]])] ∧
      (Datatype.of (.primitive .int) true).assignable .int = false := by
  decide +kernel

end Analysis

end MiLanguage
