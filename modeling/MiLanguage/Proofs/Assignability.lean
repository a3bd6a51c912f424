import MiLanguage.Datatype.Basic
import MiLanguage.Proofs.Overload

set_option autoImplicit false

namespace MiLanguage

theorem Primitive.rank_injective {p q : Primitive} {r : Nat} (first : p.rank = some r)
    (second : q.rank = some r) : p = q := by
  cases p <;> cases q <;> simp [rank] at first second ⊢ <;> omega

namespace Datatype

variable {a b c : Datatype}

theorem rank_of (base : BaseType) (m n : Bool) : (of base m).rank = (of base n).rank := by
  cases base <;> rfl

-- Only a primitive type is a number.
theorem base_of_rank {r : Nat} (ranked : a.rank = some r) :
    ∃ p n, a = of (.primitive p) n ∧ p.rank = some r := by
  cases a with
  | null => cases ranked
  | of base n =>
      cases base with
      | named => cases ranked
      | primitive p => exact ⟨p, n, rfl, ranked⟩

theorem promotable_trans (first : a.promotable b = true) (second : b.promotable c = true) :
    a.promotable c = true := by
  unfold promotable at *
  grind

theorem promotable_asymm (first : a.promotable b = true) : b.promotable a = false := by
  unfold promotable at *
  grind

theorem assignable_refl (a : Datatype) : a.assignable a = true := by
  cases a with
  | null => rfl
  | of base n => cases n <;> simp [assignable]

theorem assignable_of_iff {x y : BaseType} {m n : Bool} :
    (of x m).assignable (of y n) = true ↔
      (m = true → n = true) ∧ (x = y ∨ (of x true).promotable (of y true) = true) := by
  have rank : (of x m).promotable (of y n) = (of x true).promotable (of y true) := by
    simp only [promotable, rank_of x m true, rank_of y n true]
  cases m <;> simp [assignable, rank]

theorem nullable_of_assignable (taken : a.assignable b = true) (nullable : a.nullable = true) :
    b.nullable = true := by
  cases a with
  | null => exact taken
  | of x m =>
      cases b with
      | null => rfl
      | of y n => exact (assignable_of_iff.mp taken).1 nullable

theorem assignable_trans (first : a.assignable b = true) (second : b.assignable c = true) :
    a.assignable c = true := by
  cases a with
  | null => exact nullable_of_assignable second first
  | of x m =>
      cases b with
      | null => cases first
      | of y n =>
          cases c with
          | null => cases second
          | of z k =>
              rw [assignable_of_iff] at first second ⊢
              obtain ⟨wider, below⟩ := first
              obtain ⟨wider', above⟩ := second
              refine ⟨fun nullable => wider' (wider nullable), ?_⟩
              rcases below with rfl | low
              · exact above
              · rcases above with rfl | high
                · exact .inr low
                · exact .inr (promotable_trans low high)

theorem assignable_antisymm (up : a.assignable b = true) (down : b.assignable a = true) :
    a = b := by
  cases a with
  | null =>
      cases b with
      | null => rfl
      | of => cases down
  | of x m =>
      cases b with
      | null => cases up
      | of y n =>
          rw [assignable_of_iff] at up down
          have nullable : m = n := Bool.eq_iff_iff.mpr ⟨up.1, down.1⟩
          have base : x = y := by
            rcases up.2 with same | low
            · exact same
            · rcases down.2 with same | high
              · exact same.symm
              · rw [promotable_asymm low] at high
                cases high
          rw [base, nullable]

theorem fits_refl (a : Datatype) : a.fits a = true := by
  cases a with
  | null => rfl
  | of x m => cases m <;> simp [fits]

theorem fits_trans (first : a.fits b = true) (second : b.fits c = true) : a.fits c = true := by
  cases a with
  | null => exact nullable_of_assignable (assignable_of_fits second) first
  | of x m =>
      cases b with
      | null => cases first
      | of y n =>
          cases c with
          | null => cases second
          | of z k => cases m <;> cases n <;> cases k <;> simp_all [fits]

-- Between numbers the ranks decide, apart from nullability.
theorem assignable_number_iff {p q : Primitive} {m n : Bool} {low high : Nat}
    (ranked : p.rank = some low) (ranked' : q.rank = some high) :
    (of (.primitive p) m).assignable (of (.primitive q) n) = true ↔
      (m = true → n = true) ∧ low ≤ high := by
  have promoted : (of (.primitive p) true).promotable (of (.primitive q) true) =
      decide (low < high) := by
    simp [promotable, rank, primitive?, ranked, ranked']
  have same : BaseType.primitive p = .primitive q ↔ low = high := by
    constructor
    · intro same
      cases same
      exact Option.some.inj (ranked.symm.trans ranked')
    · rintro rfl
      rw [Primitive.rank_injective ranked ranked']
  rw [assignable_of_iff, promoted, same, decide_eq_true_iff, Nat.le_iff_lt_or_eq, or_comm]

-- Only to a number, and to one of the same rank or a larger one, is a number assignable.
theorem rank_of_assignable {p : Primitive} {m : Bool} {low : Nat} (ranked : p.rank = some low)
    (taken : (of (.primitive p) m).assignable c = true) :
    ∃ q n high, c = of (.primitive q) n ∧ q.rank = some high := by
  cases c with
  | null => cases taken
  | of y n =>
      rcases (assignable_of_iff.mp taken).2 with rfl | promoted
      · exact ⟨p, n, low, rfl, ranked⟩
      · simp only [promotable] at promoted
        split at promoted
        next high _ above =>
          obtain ⟨q, _, same, ranked⟩ := base_of_rank above
          cases same
          exact ⟨q, n, high, rfl, ranked⟩
        next => cases promoted

/-- The least of the types that values of both types are assignable to. -/
structure IsLeastUpper (a b c : Datatype) : Prop where
  left : a.assignable c = true
  right : b.assignable c = true
  least : ∀ t, a.assignable t = true → b.assignable t = true → c.assignable t = true

theorem heavier_leastUpper (joined : heavier a b = some c) : IsLeastUpper a b c := by
  unfold heavier at joined
  split at joined
  next ra rb rankedA rankedB =>
    obtain ⟨p, m, rfl, rankedP⟩ := base_of_rank rankedA
    obtain ⟨q, n, rfl, rankedQ⟩ := base_of_rank rankedB
    have least (w : Primitive) (rw' : Nat) (rankedW : w.rank = some rw')
        (above : ra ≤ rw' ∧ rb ≤ rw') (reached : rw' = ra ∨ rw' = rb)
        (same : of (.primitive w) (m || n) = c) :
        IsLeastUpper (of (.primitive p) m) (of (.primitive q) n) c := by
      subst same
      refine ⟨(assignable_number_iff rankedP rankedW).mpr ⟨by simp +contextual, above.1⟩,
        (assignable_number_iff rankedQ rankedW).mpr ⟨by simp +contextual, above.2⟩, ?_⟩
      intro t first second
      obtain ⟨u, k, ru, rfl, rankedU⟩ := rank_of_assignable rankedP first
      rw [assignable_number_iff rankedP rankedU] at first
      rw [assignable_number_iff rankedQ rankedU] at second
      refine (assignable_number_iff rankedW rankedU).mpr ⟨?_, ?_⟩
      · intro nullable
        rcases Bool.or_eq_true_iff.mp nullable with here | here
        · exact first.1 here
        · exact second.1 here
      · rcases reached with rfl | rfl
        · exact first.2
        · exact second.2
    simp only [Option.some.injEq] at joined
    by_cases order : rb ≤ ra
    · rw [if_pos order] at joined
      exact least p ra rankedP ⟨Nat.le_refl _, order⟩ (.inl rfl) joined
    · rw [if_neg order] at joined
      exact least q rb rankedQ ⟨by omega, Nat.le_refl _⟩ (.inr rfl) joined
  next => cases joined

theorem IsLeastUpper.unique {d : Datatype} (one : IsLeastUpper a b c) (other : IsLeastUpper b a d) :
    c = d :=
  assignable_antisymm (one.least d other.right other.left) (other.least c one.right one.left)

theorem heavier_comm (a b : Datatype) : heavier a b = heavier b a := by
  have defined : (heavier a b).isSome ↔ (heavier b a).isSome := by
    rw [heavier_isSome_iff, heavier_isSome_iff, and_comm]
  cases one : heavier a b with
  | none =>
      cases other : heavier b a with
      | none => rfl
      | some d => simp [one, other] at defined
  | some c =>
      cases other : heavier b a with
      | none => simp [one, other] at defined
      | some d => rw [(heavier_leastUpper one).unique (heavier_leastUpper other)]

theorem sameBase_comm (a b : Datatype) : a.sameBase b = b.sameBase a := by
  cases a <;> cases b <;> simp [sameBase, nullable, eq_comm]

-- One side of a joined text is a string; whichever it is, the other one has to be joinable.
theorem joined_comm (a b : Datatype) :
    ((a.isString || b.isString) && (if a.isString then b else a).isJoinable) =
      ((b.isString || a.isString) && (if b.isString then a else b).isJoinable) := by
  have string (t : Datatype) (is : t.isString = true) : t.isJoinable = true := by
    simp only [isString, decide_eq_true_eq] at is
    simp [isJoinable, is]
  cases first : a.isString <;> cases second : b.isString <;>
    simp_all

theorem binaryResult_comm (op : BinaryOperator) (a b : Datatype) :
    binaryResult op a b = binaryResult op b a := by
  have integral : (a.isIntegral && b.isIntegral) = (b.isIntegral && a.isIntegral) := Bool.and_comm ..
  have numeric : (a.isNumeric && b.isNumeric) = (b.isNumeric && a.isNumeric) := Bool.and_comm ..
  have bool : (a.isBool && b.isBool) = (b.isBool && a.isBool) := Bool.and_comm ..
  have nullable : (a.nullable || b.nullable) = (b.nullable || a.nullable) := Bool.or_comm ..
  unfold binaryResult
  split
  next =>
    have string : (a.isString || b.isString) = (b.isString || a.isString) := Bool.or_comm ..
    have joined := joined_comm a b
    rw [string, heavier_comm a b]
    cases textual : b.isString || a.isString with
    | false => simp
    | true =>
        rw [string, textual, Bool.true_and, Bool.true_and] at joined
        rw [joined]
  next => rw [integral, heavier_comm a b]
  next => rw [integral, heavier_comm a b, bool, nullable]
  next => rw [numeric]
  next => rw [numeric, sameBase_comm a b]
  next => rw [bool]

end Datatype

namespace Overload

variable {args narrower : List Datatype} {f : FunctionDefinition}

-- Acceptance goes over argument by argument, by transitivity.
theorem Takes.narrow (taken : Takes Datatype.assignable args f)
    (assignable : List.Forall₂ (fun a b => a.assignable b = true) narrower args) :
    Takes Datatype.assignable narrower f := by
  unfold Takes at *
  generalize f.paramTypes = params at taken
  induction assignable generalizing params with
  | nil => exact taken
  | cons first _ ih =>
      cases taken with
      | cons accepted others =>
          exact .cons (Datatype.assignable_trans first accepted) (ih _ others)

end Overload

/-- Assignability is a partial order. The two stricter relations imply it, the heavier of two types
is their least upper bound and is there for numbers only, no operator tells its operands' types
apart, and with a list of arguments a function takes every list that is assignable to it. -/
theorem assignability_laws :
    (∀ a : Datatype, a.assignable a = true) ∧
    (∀ a b c : Datatype, a.assignable b = true → b.assignable c = true → a.assignable c = true) ∧
    (∀ a b : Datatype, a.assignable b = true → b.assignable a = true → a = b) ∧
    (∀ a b : Datatype, (a.exact b = true → a.fits b = true) ∧
      (a.fits b = true → a.assignable b = true)) ∧
    (∀ a b : Datatype,
      ((Datatype.heavier a b).isSome ↔ a.isNumeric = true ∧ b.isNumeric = true) ∧
      ∀ c ∈ Datatype.heavier a b, Datatype.IsLeastUpper a b c) ∧
    (∀ (op : BinaryOperator) (a b : Datatype),
      Datatype.binaryResult op a b = Datatype.binaryResult op b a) ∧
    ∀ (candidates : List FunctionDefinition) (args narrower : List Datatype),
      List.Forall₂ (fun a b => a.assignable b = true) narrower args →
        ∀ f ∈ Overload.matching Datatype.assignable candidates args,
          f ∈ Overload.matching Datatype.assignable candidates narrower := by
  refine ⟨Datatype.assignable_refl, fun _ _ _ => Datatype.assignable_trans,
    fun _ _ => Datatype.assignable_antisymm,
    fun _ _ => ⟨Datatype.fits_of_exact, Datatype.assignable_of_fits⟩,
    fun a b => ⟨Datatype.heavier_isSome_iff a b, fun _ => Datatype.heavier_leastUpper⟩,
    Datatype.binaryResult_comm, ?_⟩
  intro candidates args narrower assignable f accepted
  rw [Overload.mem_matching, Overload.matchesWith_iff] at accepted ⊢
  exact ⟨accepted.1, Overload.Takes.narrow accepted.2 assignable⟩

end MiLanguage
