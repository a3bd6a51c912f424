import Mathlib.Data.List.Forall2
import MiLanguage.ModuleTree
import MiLanguage.Overload

set_option autoImplicit false

namespace MiLanguage

namespace Datatype

variable {a b : Datatype}

theorem fits_of_exact (taken : a.exact b = true) : a.fits b = true := by
  cases a with
  | null => exact taken
  | of x m =>
      have same : of x m = b := by simpa [exact] using taken
      subst same
      cases m <;> simp [fits]

theorem assignable_of_fits (taken : a.fits b = true) : a.assignable b = true := by
  cases a with
  | null => exact taken
  | of x m =>
      cases b with
      | null => cases taken
      | of y n => cases m <;> cases n <;> simp_all [fits, assignable]

theorem assignable_of_exact (taken : a.exact b = true) : a.assignable b = true :=
  assignable_of_fits (fits_of_exact taken)

end Datatype

namespace Overload

variable {accepts wider : Datatype → Datatype → Bool} {candidates others : List FunctionDefinition}
  {args : List Datatype} {f d : FunctionDefinition} {n : Nat}

-- There is one parameter for each argument, and it accepts that argument.
def Takes (accepts : Datatype → Datatype → Bool) (args : List Datatype)
    (f : FunctionDefinition) : Prop :=
  List.Forall₂ (fun a p => accepts a p = true) args f.paramTypes

theorem matchesWith_iff {params : List Datatype} :
    matchesWith accepts args params = true ↔
      List.Forall₂ (fun a p => accepts a p = true) args params := by
  induction args generalizing params with
  | nil => cases params <;> simp [matchesWith]
  | cons a args ih => cases params <;> simp [matchesWith, ih]

instance (accepts : Datatype → Datatype → Bool) (args : List Datatype) (f : FunctionDefinition) :
    Decidable (Takes accepts args f) :=
  decidable_of_iff (matchesWith accepts args f.paramTypes = true) matchesWith_iff

theorem Takes.widen (taken : Takes accepts args f)
    (widens : ∀ {a b}, accepts a b = true → wider a b = true) : Takes wider args f :=
  taken.imp fun _ _ => widens

theorem matching_eq_filter (accepts : Datatype → Datatype → Bool)
    (candidates : List FunctionDefinition) (args : List Datatype) :
    matching accepts candidates args = candidates.filter fun f => Takes accepts args f := by
  refine List.filter_congr fun f _ => ?_
  rw [Bool.eq_iff_iff, decide_eq_true_iff]
  exact matchesWith_iff

theorem matching_eq_nil_iff :
    matching accepts candidates args = [] ↔ ∀ f ∈ candidates, ¬Takes accepts args f := by
  simp [matching_eq_filter, List.filter_eq_nil_iff]

theorem length_eq_of_takes (taken : Takes accepts args f) : f.parameters.length = args.length := by
  simpa [FunctionDefinition.paramTypes] using taken.length_eq.symm

section Tiers

-- Some candidate takes the arguments as they are.
def SomeExact (candidates : List FunctionDefinition) (args : List Datatype) : Prop :=
  ∃ f ∈ candidates, Takes Datatype.exact args f

instance (candidates : List FunctionDefinition) (args : List Datatype) :
    Decidable (SomeExact candidates args) :=
  inferInstanceAs (Decidable (∃ f ∈ candidates, Takes Datatype.exact args f))

theorem decidingTier_eq (candidates : List FunctionDefinition) (args : List Datatype) :
    decidingTier candidates args =
      if SomeExact candidates args then candidates.filter fun f => Takes Datatype.exact args f
      else candidates.filter fun f => Takes Datatype.assignable args f := by
  have unmatched : matching Datatype.exact candidates args = [] ↔ ¬SomeExact candidates args := by
    simp [matching_eq_nil_iff, SomeExact]
  unfold decidingTier
  split
  next empty => rw [if_neg (unmatched.mp empty), matching_eq_filter]
  next found =>
    rw [if_pos (not_not.mp fun missing => found (unmatched.mpr missing)), matching_eq_filter]

theorem mem_decidingTier (member : f ∈ decidingTier candidates args) :
    f ∈ candidates ∧ Takes Datatype.assignable args f := by
  rw [decidingTier_eq] at member
  split at member
  next =>
    obtain ⟨here, exact⟩ := List.mem_filter.mp member
    exact ⟨here, (of_decide_eq_true exact).widen Datatype.assignable_of_exact⟩
  next =>
    obtain ⟨here, assignable⟩ := List.mem_filter.mp member
    exact ⟨here, of_decide_eq_true assignable⟩

theorem decidingTier_eq_nil_iff :
    decidingTier candidates args = [] ↔ ∀ f ∈ candidates, ¬Takes Datatype.assignable args f := by
  constructor
  · intro empty f member taken
    rw [decidingTier_eq] at empty
    split at empty
    next found =>
      obtain ⟨g, here, exact⟩ := found
      exact List.filter_eq_nil_iff.mp empty g here (by simpa using exact)
    next => exact List.filter_eq_nil_iff.mp empty f member (by simpa using taken)
  · intro refused
    refine List.eq_nil_iff_forall_not_mem.mpr fun f member => ?_
    obtain ⟨here, taken⟩ := mem_decidingTier member
    exact refused f here taken

-- Who cannot take the arguments has no part in the choice, and the order has none either.
theorem decidingTier_perm
    (same : (others.filter fun f => Takes Datatype.assignable args f).Perm
      (candidates.filter fun f => Takes Datatype.assignable args f)) :
    (decidingTier others args).Perm (decidingTier candidates args) := by
  have exact : ∀ fs : List FunctionDefinition,
      fs.filter (fun f => Takes Datatype.exact args f) =
        (fs.filter fun f => Takes Datatype.assignable args f).filter
          fun f => Takes Datatype.exact args f := by
    intro fs
    rw [List.filter_filter]
    refine List.filter_congr fun f _ => ?_
    by_cases taken : Takes Datatype.exact args f
    · simp [taken, taken.widen Datatype.assignable_of_exact]
    · simp [taken]
  have found : SomeExact others args ↔ SomeExact candidates args := by
    have narrowed : ∀ fs : List FunctionDefinition, SomeExact fs args ↔
        SomeExact (fs.filter fun f => Takes Datatype.assignable args f) args := by
      intro fs
      constructor
      · rintro ⟨f, here, taken⟩
        refine ⟨f, List.mem_filter.mpr ⟨here, ?_⟩, taken⟩
        simpa using taken.widen Datatype.assignable_of_exact
      · rintro ⟨f, here, taken⟩
        exact ⟨f, (List.mem_filter.mp here).1, taken⟩
    rw [narrowed others, narrowed candidates]
    simp only [SomeExact, same.mem_iff]
  rw [decidingTier_eq, decidingTier_eq]
  simp only [found]
  split
  · rw [exact others, exact candidates]
    exact same.filter _
  · exact same

end Tiers

section Single

theorem single_eq_ok_iff {fs : List FunctionDefinition} : single fs = .ok d ↔ fs = [d] := by
  match fs with
  | [] | [_] | _ :: _ :: _ => simp [single]

theorem single_eq_noMatch_iff {fs : List FunctionDefinition} :
    single fs = .error .noMatch ↔ fs = [] := by
  match fs with
  | [] | [_] | _ :: _ :: _ => simp [single]

theorem single_eq_ambiguous_iff {fs : List FunctionDefinition} :
    single fs = .error (.ambiguous n) ↔ 2 ≤ n ∧ fs.length = n := by
  match fs with
  | [] | [_] => simp [single]; omega
  | _ :: _ :: _ => simp [single]; omega

theorem single_perm {fs gs : List FunctionDefinition} (perm : fs.Perm gs) :
    single fs = single gs := by
  have length := perm.length_eq
  match gs with
  | [] => rw [perm.eq_nil]
  | [g] => rw [List.perm_singleton.mp perm]
  | _ :: _ :: _ =>
      match fs with
      | [] | [_] => simp at length
      | _ :: _ :: _ => simpa [single] using length

end Single

section Selection

theorem select_eq_noMatch_iff :
    select candidates args = .error .noMatch ↔
      ∀ f ∈ candidates, ¬Takes Datatype.assignable args f :=
  single_eq_noMatch_iff.trans decidingTier_eq_nil_iff

theorem select_perm (perm : others.Perm candidates) :
    select others args = select candidates args :=
  single_perm (decidingTier_perm (perm.filter _))

theorem select_of_same_takers
    (same : (others.filter fun f => Takes Datatype.assignable args f) =
      candidates.filter fun f => Takes Datatype.assignable args f) :
    select others args = select candidates args :=
  single_perm (decidingTier_perm (same ▸ .refl _))

theorem takes_exact_iff (known : Datatype.null ∉ args) :
    Takes Datatype.exact args f ↔ f.paramTypes = args := by
  have same : ∀ {args params : List Datatype}, Datatype.null ∉ args →
      (List.Forall₂ (fun a p => Datatype.exact a p = true) args params ↔ params = args) := by
    intro args params known
    induction args generalizing params with
    | nil => simp
    | cons a args ih =>
        simp only [List.mem_cons, not_or] at known
        cases params with
        | nil => simp
        | cons p params =>
            simp [Datatype.exact_eq a p (Ne.symm known.1), ih known.2, eq_comm (a := a)]
  exact same known

theorem select_of_same_types (distinct : candidates.Pairwise (·.paramTypes ≠ ·.paramTypes))
    (known : Datatype.null ∉ args) (member : f ∈ candidates) (same : f.paramTypes = args) :
    select candidates args = .ok f := by
  have exact : Takes Datatype.exact args f := (takes_exact_iff known).mpr same
  refine single_eq_ok_iff.mpr ?_
  rw [decidingTier_eq, if_pos ⟨f, member, exact⟩]
  obtain ⟨front, back, rfl⟩ := List.append_of_mem member
  obtain ⟨_, behind, across⟩ := List.pairwise_append.mp distinct
  have before : front.filter (fun g => Takes Datatype.exact args g) = [] := by
    refine List.filter_eq_nil_iff.mpr fun g here taken => ?_
    refine across g here f (by simp) ?_
    rw [same, (takes_exact_iff known).mp (of_decide_eq_true taken)]
  have after : back.filter (fun g => Takes Datatype.exact args g) = [] := by
    refine List.filter_eq_nil_iff.mpr fun g here taken => ?_
    refine (List.pairwise_cons.mp behind).1 g here ?_
    rw [same, (takes_exact_iff known).mp (of_decide_eq_true taken)]
  simp [List.filter_append, before, after, exact]

end Selection

/-- What a choice between overloads comes to, for any candidates and any arguments. The deciding
tier is made of those that take every argument as it is, or, if there are none, of those that may
have every argument assigned. -/
theorem select_decides (candidates : List FunctionDefinition) (args : List Datatype) :
    decidingTier candidates args =
      (if SomeExact candidates args then candidates.filter fun f => Takes Datatype.exact args f
      else candidates.filter fun f => Takes Datatype.assignable args f) ∧
    (select candidates args = .error .noMatch ↔
      ∀ f ∈ candidates, ¬Takes Datatype.assignable args f) ∧
    (∀ d, select candidates args = .ok d →
      d ∈ candidates ∧ d.parameters.length = args.length ∧ Takes Datatype.assignable args d ∧
        decidingTier candidates args = [d]) ∧
    (∀ n, select candidates args = .error (.ambiguous n) →
      2 ≤ n ∧ (decidingTier candidates args).length = n) ∧
    (∀ others : List FunctionDefinition, others.Perm candidates →
      select others args = select candidates args) ∧
    (∀ others : List FunctionDefinition,
      (others.filter fun f => Takes Datatype.assignable args f) =
        (candidates.filter fun f => Takes Datatype.assignable args f) →
      select others args = select candidates args) ∧
    (candidates.Pairwise (·.paramTypes ≠ ·.paramTypes) → Datatype.null ∉ args →
      ∀ f ∈ candidates, f.paramTypes = args → select candidates args = .ok f) := by
  refine ⟨decidingTier_eq candidates args, select_eq_noMatch_iff, fun d selected => ?_,
    fun n selected => single_eq_ambiguous_iff.mp selected, fun _ => select_perm,
    fun _ => select_of_same_takers, fun distinct known f member =>
      select_of_same_types distinct known member⟩
  have tier := single_eq_ok_iff.mp selected
  obtain ⟨here, taken⟩ := mem_decidingTier (show d ∈ decidingTier candidates args by simp [tier])
  exact ⟨here, length_eq_of_takes taken, taken, tier⟩

section Sample

-- A function without a result that takes parameters of these types.
def sample (types : List Datatype) : FunctionDefinition :=
  { name := "f", returnType := .void
    parameters := types.map fun type => { type, name := "p", modifiers := .empty }
    modifiers := .empty, owner := .module ModuleTree.root, fileId := userFile, line := 1
    body := .pending }

def nullableInt : Datatype := Datatype.int.withNullable true

end Sample

/-- Of `f(long)`, `f(nullable int)` and `f(int)` the last one is meant by a call with an `int`, in
whatever order they stand. -/
theorem select_decides_plain :
    select [sample [.long], sample [nullableInt], sample [.int]] [.int] = .ok (sample [.int]) ∧
      select [sample [.int], sample [.long], sample [nullableInt]] [.int] = .ok (sample [.int]) := by
  obtain ⟨_, _, _, _, perm, _, same⟩ :=
    select_decides [sample [.long], sample [nullableInt], sample [.int]] [.int]
  have found := same (by decide) (by decide) (sample [.int]) (by simp) rfl
  have moved := List.perm_append_singleton (sample [.int]) [sample [.long], sample [nullableInt]]
  exact ⟨found, (perm _ moved.symm).trans found⟩

section Promotion

-- A candidate that takes the arguments as they are is one of those that promote nothing.
theorem filter_exact_of_single (alone : candidates.filter (fun f => Takes Datatype.fits args f) = [d])
    (exact : Takes Datatype.exact args d) :
    candidates.filter (fun f => Takes Datatype.exact args f) = [d] := by
  have narrowed : candidates.filter (fun f => Takes Datatype.exact args f) =
      (candidates.filter fun f => Takes Datatype.fits args f).filter
        fun f => Takes Datatype.exact args f := by
    rw [List.filter_filter]
    refine List.filter_congr fun f _ => ?_
    by_cases taken : Takes Datatype.exact args f
    · simp [taken, taken.widen Datatype.fits_of_exact]
    · simp [taken]
  rw [narrowed, alone]
  simp [exact]

theorem someExact_iff_of_single
    (alone : candidates.filter (fun f => Takes Datatype.fits args f) = [d]) :
    SomeExact candidates args ↔ Takes Datatype.exact args d := by
  constructor
  · rintro ⟨f, member, exact⟩
    have fits := exact.widen Datatype.fits_of_exact
    have here : f ∈ candidates.filter fun f => Takes Datatype.fits args f :=
      List.mem_filter.mpr ⟨member, by simpa using fits⟩
    rw [alone, List.mem_singleton] at here
    exact here ▸ exact
  · intro exact
    have here : d ∈ candidates.filter fun f => Takes Datatype.fits args f := by simp [alone]
    exact ⟨d, (List.mem_filter.mp here).1, exact⟩

theorem select_eq_ok_iff_of_single
    (alone : candidates.filter (fun f => Takes Datatype.fits args f) = [d]) :
    select candidates args = .ok d ↔ Takes Datatype.exact args d ∨
      candidates.filter (fun f => Takes Datatype.assignable args f) = [d] := by
  rw [select, single_eq_ok_iff, decidingTier_eq]
  by_cases exact : Takes Datatype.exact args d
  · rw [if_pos ((someExact_iff_of_single alone).mpr exact)]
    simp [exact, filter_exact_of_single alone exact]
  · rw [if_neg (mt (someExact_iff_of_single alone).mp exact)]
    simp [exact]

theorem two_le_of_ambiguous (ambiguous : select candidates args = .error (.ambiguous n)) :
    2 ≤ (candidates.filter fun f => Takes Datatype.fits args f).length ∨
      ¬SomeExact candidates args ∧
        2 ≤ (candidates.filter fun f => Takes Datatype.assignable args f).length := by
  obtain ⟨two, length⟩ := single_eq_ambiguous_iff.mp ambiguous
  rw [← length, decidingTier_eq] at two
  split at two
  next =>
    refine .inl (Nat.le_trans two ?_)
    refine (List.monotone_filter_right candidates fun f exact => ?_).length_le
    simpa using (of_decide_eq_true exact).widen Datatype.fits_of_exact
  next unmatched => exact .inr ⟨unmatched, two⟩

/-- What becomes of the one candidate that promotes nothing. It is chosen exactly if it takes every
argument as it is, so that it makes none nullable, or if nobody else takes the arguments at all. And
a call is ambiguous only if two candidates promote nothing, or none does and two promote, or the one
that promotes nothing makes an argument nullable and another one takes the arguments as well. -/
theorem unpromoted_decides (candidates : List FunctionDefinition) (args : List Datatype) :
    (∀ d, candidates.filter (fun f => Takes Datatype.fits args f) = [d] →
      (select candidates args = .ok d ↔ Takes Datatype.exact args d ∨
        candidates.filter (fun f => Takes Datatype.assignable args f) = [d])) ∧
    (∀ n, select candidates args = .error (.ambiguous n) →
      2 ≤ (candidates.filter fun f => Takes Datatype.fits args f).length ∨
      candidates.filter (fun f => Takes Datatype.fits args f) = [] ∧
        2 ≤ (candidates.filter fun f => Takes Datatype.assignable args f).length ∨
      ∃ d, candidates.filter (fun f => Takes Datatype.fits args f) = [d] ∧
        ¬Takes Datatype.exact args d ∧
        2 ≤ (candidates.filter fun f => Takes Datatype.assignable args f).length) := by
  refine ⟨fun d => select_eq_ok_iff_of_single, fun n ambiguous => ?_⟩
  rcases two_le_of_ambiguous ambiguous with two | ⟨inexact, two⟩
  · exact .inl two
  · generalize fitting : candidates.filter (fun f => Takes Datatype.fits args f) = fs
    match fs with
    | [] => exact .inr (.inl ⟨rfl, two⟩)
    | [d] => exact .inr (.inr ⟨d, rfl, mt (someExact_iff_of_single fitting).mpr inexact, two⟩)
    | _ :: _ :: _ => exact .inl (by simp)

/-- `f(nullable int)` is chosen for an `int` where the other candidate takes none. -/
theorem unpromoted_decides_alone :
    select [sample [nullableInt], sample [.bool]] [.int] = .ok (sample [nullableInt]) :=
  ((unpromoted_decides [sample [nullableInt], sample [.bool]] [.int]).1 (sample [nullableInt])
    rfl).mpr (.inr rfl)

/-- Beside `f(long)`, the one candidate that promotes nothing for an `int` is not chosen. -/
theorem nullable_beside_promotion :
    [sample [nullableInt], sample [.long]].filter (fun f => Takes Datatype.fits [.int] f) =
        [sample [nullableInt]] ∧
      select [sample [nullableInt], sample [.long]] [.int] = .error (.ambiguous 2) :=
  ⟨rfl, rfl⟩

end Promotion

end Overload

end MiLanguage
