import MiLanguage.Host.Binding
import MiLanguage.Proofs.Checked
import Mathlib.Data.List.Forall2

set_option autoImplicit false

namespace MiLanguage

-- The first element of `xs` that `P` holds of is `x`, and `before` is in front of it.
def FirstIn {α : Type} (P : α → Prop) (xs before : List α) (x : α) : Prop :=
  (∃ after, xs = before ++ x :: after) ∧ P x ∧ ∀ y ∈ before, ¬P y

section First

variable {α : Type} {P : α → Prop} {xs before : List α} {x : α}

theorem FirstIn.mem (first : FirstIn P xs before x) : x ∈ xs := by
  obtain ⟨⟨after, rfl⟩, _⟩ := first
  simp

theorem exists_firstIn (member : x ∈ xs) (holds : P x) : ∃ before y, FirstIn P xs before y := by
  induction xs with
  | nil => cases member
  | cons head tail ih =>
      by_cases here : P head
      · exact ⟨[], head, ⟨tail, rfl⟩, here, nofun⟩
      · rcases List.mem_cons.mp member with rfl | member
        · exact absurd holds here
        · obtain ⟨before, y, ⟨after, rfl⟩, found, earlier⟩ := ih member
          exact ⟨head :: before, y, ⟨after, rfl⟩, found, List.forall_mem_cons.mpr ⟨here, earlier⟩⟩

theorem FirstIn.unique {before' : List α} {x' : α} (first : FirstIn P xs before x)
    (first' : FirstIn P xs before' x') : before = before' ∧ x = x' := by
  induction xs generalizing before before' with
  | nil => simp [FirstIn] at first
  | cons y ys ih =>
      obtain ⟨⟨after, split⟩, holds, earlier⟩ := first
      obtain ⟨⟨after', split'⟩, holds', earlier'⟩ := first'
      cases before with
      | nil =>
          cases before' with
          | nil =>
              cases split
              cases split'
              exact ⟨rfl, rfl⟩
          | cons z before' =>
              obtain ⟨rfl, _⟩ := List.cons.inj split
              obtain ⟨rfl, _⟩ := List.cons.inj split'
              exact absurd holds (earlier' _ (by simp))
      | cons z before =>
          cases before' with
          | nil =>
              obtain ⟨rfl, _⟩ := List.cons.inj split
              obtain ⟨rfl, _⟩ := List.cons.inj split'
              exact absurd holds' (earlier _ (by simp))
          | cons z' before' =>
              obtain ⟨rfl, tail⟩ := List.cons.inj split
              obtain ⟨rfl, tail'⟩ := List.cons.inj split'
              obtain ⟨rfl, same⟩ :=
                ih ⟨⟨after, tail⟩, holds, fun y member => earlier y (by simp [member])⟩
                  ⟨⟨after', tail'⟩, holds', fun y member => earlier' y (by simp [member])⟩
              exact ⟨rfl, same⟩

theorem find?_eq_some_iff_first {p : α → Bool} (reads : ∀ y ∈ xs, p y = true ↔ P y) :
    xs.find? p = some x ↔ ∃ before, FirstIn P xs before x := by
  rw [List.find?_eq_some_iff_append]
  constructor
  · rintro ⟨holds, before, after, rfl, earlier⟩
    refine ⟨before, ⟨after, rfl⟩, (reads x (by simp)).mp holds, ?_⟩
    intro y member held
    have missed := earlier y member
    rw [(reads y (by simp [member])).mpr held] at missed
    cases missed
  · rintro ⟨before, ⟨after, rfl⟩, holds, earlier⟩
    refine ⟨(reads x (by simp)).mpr holds, before, after, rfl, ?_⟩
    intro y member
    rw [Bool.not_eq_true', ← Bool.not_eq_true, reads y (by simp [member])]
    exact earlier y member

theorem find?_eq_none_iff_first {p : α → Bool} (reads : ∀ y ∈ xs, p y = true ↔ P y) :
    xs.find? p = none ↔ ∀ y ∈ xs, ¬P y := by
  rw [List.find?_eq_none]
  exact forall₂_congr fun y member => not_congr (reads y member)

theorem firstIndex_eq_some {p : α → Bool} {i : Nat} (reads : ∀ y ∈ xs, p y = true ↔ P y)
    (found : NativeBinding.firstIndex p xs = some (i, x)) :
    ∃ before, FirstIn P xs before x ∧ i = before.length + 1 := by
  have shifted : ∀ start, (xs.zipIdx start).findSome?
      (fun entry => if p entry.1 then some (entry.2, entry.1) else none) = some (i, x) →
      ∃ before, FirstIn P xs before x ∧ i = before.length + start := by
    clear found
    induction xs with
    | nil => simp
    | cons y ys ih =>
        intro start found
        rw [List.zipIdx_cons, List.findSome?_cons] at found
        by_cases here : p y = true
        · simp only [here, if_true, Option.some.injEq, Prod.mk.injEq] at found
          obtain ⟨rfl, rfl⟩ := found
          exact ⟨[], ⟨⟨ys, rfl⟩, (reads y (by simp)).mp here, by simp⟩, by simp⟩
        · simp only [here] at found
          obtain ⟨before, ⟨⟨after, rfl⟩, holds, earlier⟩, rfl⟩ :=
            ih (fun z member => reads z (by simp [member])) (start + 1) found
          refine ⟨y :: before, ⟨⟨after, rfl⟩, holds, ?_⟩, by simp; omega⟩
          exact List.forall_mem_cons.mpr ⟨fun held => here ((reads y (by simp)).mpr held), earlier⟩
  exact shifted 1 found

theorem firstIndex_eq_none {p : α → Bool} (reads : ∀ y ∈ xs, p y = true ↔ P y)
    (missing : NativeBinding.firstIndex p xs = none) : ∀ y ∈ xs, ¬P y := by
  intro y member held
  obtain ⟨i, inside, rfl⟩ := List.mem_iff_getElem.mp member
  have missed := List.findSome?_eq_none_iff.mp missing (xs[i], 1 + i)
    (by simp [List.mk_mem_zipIdx_iff_le_and_getElem?_sub, inside])
  simp [(reads _ member).mpr held] at missed

end First

-- A value of type `t` can be passed: the type is primitive and not `void`.
def Datatype.Passes (t : Datatype) : Prop := ∃ p, t.primitive? = some p ∧ p ≠ .void

namespace HostParam

-- The parameter takes the boxed form of `t`.
def Boxes (p : HostParam) (t : Datatype) : Prop :=
  ∃ q, t.primitive? = some q ∧ p.type = .boxed q

-- The parameter takes `t` without a box.
def Unboxes (p : HostParam) (t : Datatype) : Prop :=
  ∃ q, t.primitive? = some q ∧ p.type = .unboxed q

end HostParam

namespace HostMethod

/-- The method has this name and takes exactly the boxed forms of `params`. -/
structure Takes (m : HostMethod) (function : String) (params : List Datatype) : Prop where
  name : m.name = function
  boxed : List.Forall₂ HostParam.Boxes m.params params

/-- The method would do if it did not take at least one of the parameters without a box. -/
structure TakesUnboxed (m : HostMethod) (function : String) (params : List Datatype) : Prop where
  name : m.name = function
  alike : List.Forall₂ (fun p t => p.Boxes t ∨ p.Unboxes t) m.params params
  unboxed : ∃ pair ∈ m.params.zip params, pair.1.Unboxes pair.2

-- The method returns the boxed form of the type, or nothing if that is `void`.
def Returns (m : HostMethod) (returns : Datatype) : Prop :=
  (returns.primitive? = some .void ∧ m.returns = .void) ∨
    ∃ q, returns.primitive? = some q ∧ q ≠ .void ∧ m.returns = .boxed q

end HostMethod

/-- What a native function asks of the host. -/
structure NativeRequest where
  className : String
  function : String
  params : List Datatype
  returns : Datatype

namespace NativeRequest

def bind (r : NativeRequest) (host : Host) : Except BindError NativeBinding :=
  NativeBinding.bind host r.className r.function r.params r.returns

def boxedSignature (r : NativeRequest) : String :=
  s!"{r.function}({HostType.listText (r.params.map HostType.expected)})"

-- The first method of the class that takes the parameters is `m`.
def Picks (r : NativeRequest) (host : Host) (m : HostMethod) : Prop :=
  ∃ c before, host.find? r.className = some c ∧
    FirstIn (·.Takes r.function r.params) c.methods before m

theorem Picks.unique {r : NativeRequest} {host : Host} {m m' : HostMethod}
    (picks : r.Picks host m) (picks' : r.Picks host m') : m = m' := by
  obtain ⟨c, before, found, first⟩ := picks
  obtain ⟨c', before', found', first'⟩ := picks'
  rw [found] at found'
  cases found'
  exact (first.unique first').2

-- A declared type that is nullable, for a parameter of the host that is marked nonnull.
def Clashes (pair : Datatype × HostParam) : Prop :=
  pair.1.nullable = true ∧ pair.2.nonnull = true

/-- What a request has to meet. -/
inductive Condition where
  | parameters
  | result
  | hostClass
  | method
  | nullability
  | returnType
  | returnMark
  | callable
  | isStatic

namespace Condition

def inOrder : List Condition :=
  [parameters, result, hostClass, method, nullability, returnType, returnMark, callable, isStatic]

def Holds (r : NativeRequest) (host : Host) : Condition → Prop
  | parameters => ∀ t ∈ r.params, t.Passes
  | result => ∃ p, r.returns.primitive? = some p
  | hostClass => ∃ c, host.find? r.className = some c
  | method => ∃ m, r.Picks host m
  | nullability => ∀ m, r.Picks host m → ∀ pair ∈ r.params.zip m.params, ¬Clashes pair
  | returnType => ∀ m, r.Picks host m → m.Returns r.returns
  | returnMark => ∀ m, r.Picks host m →
      r.returns.primitive? = some .void ∨ r.returns.nullable = true ∨ m.returnsNonnull = true
  | callable => ∀ m, r.Picks host m → m.callable = true
  | isStatic => ∀ m, r.Picks host m → m.isStatic = true

-- The error for a condition that is violated when those before it are met.
def Reports (r : NativeRequest) (host : Host) (e : BindError) : Condition → Prop
  | parameters => ∃ before t, FirstIn (¬·.Passes) r.params before t ∧
      e = .nonPrimitiveParameter (before.length + 1) t
  | result => e = .nonPrimitiveReturn r.returns
  | hostClass => e = .classNotFound r.className
  | method => ∃ c, host.find? r.className = some c ∧
      ((∃ before m, FirstIn (·.TakesUnboxed r.function r.params) c.methods before m ∧
          e = .unboxedParameter r.className m.signature r.boxedSignature) ∨
        (∀ m ∈ c.methods, ¬m.TakesUnboxed r.function r.params) ∧
          e = .methodNotFound r.className r.boxedSignature)
  | nullability => ∃ m before pair, r.Picks host m ∧
      FirstIn Clashes (r.params.zip m.params) before pair ∧
      e = .nullableParameterMarkedNonnull (before.length + 1)
  | returnType => ∃ m, r.Picks host m ∧
      e = .returnTypeMismatch (HostType.expected r.returns) m.returns
  | returnMark => e = .returnMustBeNullable
  | callable => ∃ m, r.Picks host m ∧ e = .notCallable m.signature
  | isStatic => ∃ m, r.Picks host m ∧ e = .notStatic m.signature

end Condition

end NativeRequest

section Types

variable {t : Datatype} {p : HostParam} {m : HostMethod} {function : String}
  {params : List Datatype}

theorem Datatype.passes_iff : t.Passes ↔ (!NativeBinding.isPrimitive t || t.isVoid) = false := by
  unfold Datatype.Passes NativeBinding.isPrimitive Datatype.isVoid
  cases t.primitive? <;> simp

theorem Datatype.Passes.expected (passes : t.Passes) :
    ∃ q, t.primitive? = some q ∧ HostType.expected t = .boxed q := by
  obtain ⟨q, primitive, value⟩ := passes
  refine ⟨q, primitive, ?_⟩
  unfold HostType.expected
  rw [primitive]
  cases q <;> first | rfl | exact absurd rfl value

theorem HostParam.boxes_iff (passes : t.Passes) : p.Boxes t ↔ p.type = HostType.expected t := by
  obtain ⟨q, primitive, expected⟩ := passes.expected
  simp [HostParam.Boxes, primitive, expected]

theorem HostMethod.boxes_iff (passes : ∀ t ∈ params, t.Passes) :
    List.Forall₂ HostParam.Boxes m.params params ↔
      m.paramTypes = params.map HostType.expected := by
  unfold HostMethod.paramTypes
  generalize m.params = declared
  induction declared generalizing params with
  | nil => cases params <;> simp
  | cons p declared ih =>
      cases params with
      | nil => simp
      | cons t params =>
          obtain ⟨here, later⟩ := List.forall_mem_cons.mp passes
          simp [HostParam.boxes_iff here, ih later]

theorem HostMethod.takes_iff (passes : ∀ t ∈ params, t.Passes) :
    m.Takes function params ↔
      (m.name = function && m.paramTypes = params.map HostType.expected) = true := by
  rw [Bool.and_eq_true, decide_eq_true_eq, decide_eq_true_eq, ← HostMethod.boxes_iff passes]
  exact ⟨fun takes => ⟨takes.name, takes.boxed⟩, fun both => ⟨both.1, both.2⟩⟩

theorem HostMethod.unboxedTwin_iff (passes : ∀ t ∈ params, t.Passes) :
    NativeBinding.unboxedTwin m (params.map HostType.expected) = true ↔
      List.Forall₂ (fun p t => p.Boxes t ∨ p.Unboxes t) m.params params := by
  unfold NativeBinding.unboxedTwin HostMethod.paramTypes
  generalize m.params = declared
  induction declared generalizing params with
  | nil => cases params <;> simp
  | cons p declared ih =>
      cases params with
      | nil => simp
      | cons t params =>
          obtain ⟨here, later⟩ := List.forall_mem_cons.mp passes
          obtain ⟨q, primitive, expected⟩ := here.expected
          have later := ih later
          simp only [Bool.and_eq_true, decide_eq_true_eq] at later
          have boxes : p.Boxes t ↔ p.type = .boxed q := by simp [HostParam.Boxes, primitive]
          have unboxes : p.Unboxes t ↔ p.type = .unboxed q := by
            simp [HostParam.Unboxes, primitive]
          simp only [List.length_cons, List.map_cons, Nat.add_right_cancel_iff, List.zip_cons_cons,
            List.all_cons, Bool.and_eq_true, decide_eq_true_eq, List.forall₂_cons, ← later, expected,
            boxes, unboxes]
          cases p.type <;> simp [and_left_comm]

-- The types of a method that has boxes for all its parameters are not those of one that has not.
theorem HostMethod.takesUnboxed_iff (boxless : ¬m.Takes function params)
    (passes : ∀ t ∈ params, t.Passes) :
    m.TakesUnboxed function params ↔
      (m.name = function && NativeBinding.unboxedTwin m (params.map HostType.expected)) = true := by
  rw [Bool.and_eq_true, decide_eq_true_eq, HostMethod.unboxedTwin_iff passes]
  refine ⟨fun takes => ⟨takes.name, takes.alike⟩, fun ⟨name, alike⟩ => ⟨name, alike, ?_⟩⟩
  by_contra unlisted
  push Not at unlisted
  refine boxless ⟨name, ?_⟩
  rw [List.forall₂_iff_zip] at alike ⊢
  refine ⟨alike.1, fun member => ?_⟩
  exact (alike.2 member).resolve_right (unlisted _ member)

theorem HostMethod.returns_iff {returns : Datatype} (primitive : ∃ p, returns.primitive? = some p) :
    m.Returns returns ↔ m.returns = HostType.expected returns := by
  obtain ⟨q, primitive⟩ := primitive
  unfold HostMethod.Returns HostType.expected
  rw [primitive]
  cases q <;> simp

end Types

namespace NativeRequest

variable {r : NativeRequest} {host : Host}

theorem findMethod_spec {c : HostClass} (passes : ∀ t ∈ r.params, t.Passes)
    (found : host.find? r.className = some c) :
    match NativeBinding.findMethod c r.className r.function (r.params.map HostType.expected) with
    | .ok m => r.Picks host m
    | .error e => ¬Condition.method.Holds r host ∧ Condition.method.Reports r host e := by
  have takes : ∀ m ∈ c.methods,
      (m.name = r.function && m.paramTypes = r.params.map HostType.expected) = true ↔
        m.Takes r.function r.params := fun m _ => (HostMethod.takes_iff passes).symm
  unfold NativeBinding.findMethod HostClass.method?
  cases boxed : c.methods.find? (fun m =>
      m.name = r.function && m.paramTypes = r.params.map HostType.expected) with
  | some m =>
      obtain ⟨before, first⟩ := (find?_eq_some_iff_first takes).mp boxed
      exact ⟨c, before, found, first⟩
  | none =>
      have boxless := (find?_eq_none_iff_first takes).mp boxed
      have violated : ¬Condition.method.Holds r host := by
        rintro ⟨m, c', before, found', first⟩
        rw [found] at found'
        cases found'
        exact boxless m first.mem first.2.1
      have unboxes : ∀ m ∈ c.methods, (m.name = r.function &&
          NativeBinding.unboxedTwin m (r.params.map HostType.expected)) = true ↔
            m.TakesUnboxed r.function r.params :=
        fun m member => (HostMethod.takesUnboxed_iff (boxless m member) passes).symm
      dsimp only
      cases unboxed : c.methods.find? (fun m => m.name = r.function &&
          NativeBinding.unboxedTwin m (r.params.map HostType.expected)) with
      | some m =>
          obtain ⟨before, first⟩ := (find?_eq_some_iff_first unboxes).mp unboxed
          exact ⟨violated, c, found, .inl ⟨before, m, first, rfl⟩⟩
      | none =>
          exact ⟨violated, c, found, .inr ⟨(find?_eq_none_iff_first unboxes).mp unboxed, rfl⟩⟩

-- What binding comes to: the method, or the first condition that is violated.
def Decides (r : NativeRequest) (host : Host) : Except BindError NativeBinding → Prop
  | .ok binding => (∀ c ∈ Condition.inOrder, c.Holds r host) ∧
      ∃ m, r.Picks host m ∧ binding = ⟨r.className, m⟩
  | .error e => ∃ earlier c, FirstIn (¬·.Holds r host) Condition.inOrder earlier c ∧
      c.Reports r host e

-- The condition behind `earlier` is the first that is violated.
theorem decides_error {e : BindError} {later : List Condition} (earlier : List Condition)
    (c : Condition) (order : Condition.inOrder = earlier ++ c :: later)
    (met : ∀ c ∈ earlier, c.Holds r host) (violated : ¬c.Holds r host)
    (reports : c.Reports r host e) : r.Decides host (.error e) :=
  ⟨earlier, c, ⟨⟨later, order⟩, violated, fun c member unmet => unmet (met c member)⟩, reports⟩

-- What is asked of the method that is picked can be told from that method.
theorem forall_picks {m : HostMethod} {P : HostMethod → Prop} (picks : r.Picks host m) :
    (∀ m, r.Picks host m → P m) ↔ P m :=
  ⟨fun all => all m picks, fun holds _ picks' => picks.unique picks' ▸ holds⟩

-- What is left to check once there is a method.
def check (r : NativeRequest) (m : HostMethod) : Except BindError NativeBinding :=
  match NativeBinding.firstIndex (fun (t, p) => Datatype.nullable t && HostParam.nonnull p)
      (r.params.zip m.params) with
  | some (i, _) => .error (.nullableParameterMarkedNonnull i)
  | none =>
      if m.returns = HostType.expected r.returns then
        if r.returns.isVoid || r.returns.nullable || m.returnsNonnull then
          if m.callable then
            if m.isStatic then .ok ⟨r.className, m⟩ else .error (.notStatic m.signature)
          else .error (.notCallable m.signature)
        else .error .returnMustBeNullable
      else .error (.returnTypeMismatch (HostType.expected r.returns) m.returns)

theorem bind_eq (r : NativeRequest) (host : Host) : r.bind host =
    match NativeBinding.firstIndex (fun t => !NativeBinding.isPrimitive t || t.isVoid) r.params with
    | some (i, t) => .error (.nonPrimitiveParameter i t)
    | none =>
        if NativeBinding.isPrimitive r.returns then
          match host.find? r.className with
          | none => .error (.classNotFound r.className)
          | some c => (NativeBinding.findMethod c r.className r.function
              (r.params.map HostType.expected)).bind r.check
        else .error (.nonPrimitiveReturn r.returns) := by
  unfold NativeRequest.bind NativeBinding.bind
  cases NativeBinding.firstIndex (fun t => !NativeBinding.isPrimitive t || t.isVoid) r.params with
  | some => rfl
  | none =>
  cases NativeBinding.isPrimitive r.returns with
  | false => rfl
  | true =>
  cases host.find? r.className with
  | none => rfl
  | some c =>
      refine congrArg (Except.bind _) (funext fun m => ?_)
      unfold check
      generalize found : NativeBinding.firstIndex
        (fun (t, p) => Datatype.nullable t && HostParam.nonnull p) (r.params.zip m.params) = clash
      extract_lets clashes
      have found : NativeBinding.firstIndex clashes (r.params.zip m.params) = clash := found
      rw [found]
      cases clash with
      | some => rfl
      | none => rfl

theorem check_decides {m : HostMethod} (result : Condition.result.Holds r host)
    (picks : r.Picks host m)
    (met : ∀ c ∈ [Condition.parameters, .result, .hostClass, .method], c.Holds r host) :
    r.Decides host (r.check m) := by
  have clashing : ∀ pair ∈ r.params.zip m.params,
      (fun (t, p) => Datatype.nullable t && HostParam.nonnull p) pair = true ↔ Clashes pair :=
    fun pair _ => by simp [Clashes]
  -- Each condition that is met joins those in front of the next one.
  have next : ∀ {earlier : List Condition} {c : Condition}, (∀ c ∈ earlier, c.Holds r host) →
      c.Holds r host → ∀ c' ∈ earlier ++ [c], c'.Holds r host := fun met holds =>
    List.forall_mem_append.mpr ⟨met, List.forall_mem_singleton.mpr holds⟩
  unfold check
  split
  next i pair clash =>
    obtain ⟨before, first, rfl⟩ := firstIndex_eq_some clashing clash
    refine decides_error _ .nullability rfl met ?_ ⟨m, before, pair, picks, first, rfl⟩
    exact fun held => held m picks pair first.mem first.2.1
  next clean =>
  have met := next (c := .nullability) met
    ((forall_picks picks).mpr (firstIndex_eq_none clashing clean))
  split
  case isFalse differs =>
    refine decides_error _ .returnType rfl met ?_ ⟨m, picks, rfl⟩
    exact fun held => differs ((HostMethod.returns_iff result).mp (held m picks))
  case isTrue returns =>
  have met := next (c := .returnType) met
    ((forall_picks picks).mpr ((HostMethod.returns_iff result).mpr returns))
  have marks : (r.returns.isVoid || r.returns.nullable || m.returnsNonnull) = true ↔
      (r.returns.primitive? = some .void ∨ r.returns.nullable = true ∨ m.returnsNonnull = true) := by
    simp [Datatype.isVoid, or_assoc]
  split
  case isFalse unmarked =>
    refine decides_error _ .returnMark rfl met ?_ rfl
    exact fun held => unmarked (marks.mpr (held m picks))
  case isTrue marked =>
  have met := next (c := .returnMark) met ((forall_picks picks).mpr (marks.mp marked))
  split
  case isFalse hidden =>
    refine decides_error _ .callable rfl met ?_ ⟨m, picks, rfl⟩
    exact fun held => hidden (held m picks)
  case isTrue callable =>
  have met := next (c := .callable) met ((forall_picks picks).mpr callable)
  split
  case isFalse bound =>
    refine decides_error _ .isStatic rfl met ?_ ⟨m, picks, rfl⟩
    exact fun held => bound (held m picks)
  case isTrue static =>
  exact ⟨next (c := .isStatic) met ((forall_picks picks).mpr static), m, picks, rfl⟩

theorem bind_decides (r : NativeRequest) (host : Host) : r.Decides host (r.bind host) := by
  have passable : ∀ t ∈ r.params, (!NativeBinding.isPrimitive t || t.isVoid) = true ↔ ¬t.Passes :=
    fun t _ => by rw [Datatype.passes_iff, Bool.not_eq_false]
  rw [bind_eq]
  split
  next i t unfit =>
    obtain ⟨before, first, rfl⟩ := firstIndex_eq_some passable unfit
    refine decides_error [] .parameters rfl nofun ?_ ⟨before, t, first, rfl⟩
    exact fun held => first.2.1 (held t first.mem)
  next fit =>
  have passes : Condition.parameters.Holds r host := fun t member =>
    not_not.mp (firstIndex_eq_none passable fit t member)
  split
  case isFalse composite =>
    refine decides_error [.parameters] .result rfl (by simp [passes]) ?_ rfl
    rintro ⟨p, primitive⟩
    simp [NativeBinding.isPrimitive, primitive] at composite
  case isTrue primitive =>
  have result : Condition.result.Holds r host := Option.isSome_iff_exists.mp primitive
  split
  next missing =>
    refine decides_error [.parameters, .result] .hostClass rfl (by simp [passes, result]) ?_ rfl
    rintro ⟨c, found⟩
    rw [missing] at found
    cases found
  next c found =>
  have hostClass : Condition.hostClass.Holds r host := ⟨c, found⟩
  have spec := findMethod_spec passes found
  cases method : NativeBinding.findMethod c r.className r.function
      (r.params.map HostType.expected) with
  | error e =>
      rw [method] at spec
      exact decides_error [.parameters, .result, .hostClass] .method rfl
        (by simp [passes, result, hostClass]) spec.1 spec.2
  | ok m =>
      rw [method] at spec
      have method : Condition.method.Holds r host := ⟨m, spec⟩
      exact check_decides result spec (by simp [passes, result, hostClass, method])

-- A violated condition has one error.
theorem Condition.Reports.unique {c : Condition} {e e' : BindError} (reports : c.Reports r host e)
    (reports' : c.Reports r host e') : e = e' := by
  cases c with
  | parameters =>
      obtain ⟨before, t, first, rfl⟩ := reports
      obtain ⟨before', t', first', rfl⟩ := reports'
      obtain ⟨rfl, rfl⟩ := first.unique first'
      rfl
  | method =>
      obtain ⟨c, found, cases⟩ := reports
      obtain ⟨c', found', cases'⟩ := reports'
      rw [found] at found'
      cases found'
      rcases cases with ⟨before, m, first, rfl⟩ | ⟨clean, rfl⟩
      · rcases cases' with ⟨before', m', first', rfl⟩ | ⟨clean', rfl⟩
        · rw [(first.unique first').2]
        · exact absurd first.2.1 (clean' m first.mem)
      · rcases cases' with ⟨before', m', first', rfl⟩ | ⟨clean', rfl⟩
        · exact absurd first'.2.1 (clean m' first'.mem)
        · rfl
  | nullability =>
      obtain ⟨m, before, pair, picks, first, rfl⟩ := reports
      obtain ⟨m', before', pair', picks', first', rfl⟩ := reports'
      cases picks.unique picks'
      rw [(first.unique first').1]
  | returnType | callable | isStatic =>
      obtain ⟨m, picks, rfl⟩ := reports
      obtain ⟨m', picks', rfl⟩ := reports'
      rw [picks.unique picks']
  | result | hostClass | returnMark => exact Eq.trans reports (Eq.symm reports')

theorem Decides.unique {outcome outcome' : Except BindError NativeBinding}
    (decides : r.Decides host outcome) (decides' : r.Decides host outcome') :
    outcome = outcome' := by
  cases outcome with
  | ok binding =>
      obtain ⟨met, m, picks, rfl⟩ := decides
      cases outcome' with
      | ok binding' =>
          obtain ⟨_, m', picks', rfl⟩ := decides'
          rw [picks.unique picks']
      | error e' =>
          obtain ⟨earlier, c, first, _⟩ := decides'
          exact absurd (met c first.mem) first.2.1
  | error e =>
      obtain ⟨earlier, c, first, reports⟩ := decides
      cases outcome' with
      | ok binding' =>
          obtain ⟨met, _⟩ := decides'
          exact absurd (met c first.mem) first.2.1
      | error e' =>
          obtain ⟨earlier', c', first', reports'⟩ := decides'
          obtain ⟨_, rfl⟩ := first.unique first'
          rw [reports.unique reports']

theorem bind_eq_iff {outcome : Except BindError NativeBinding} :
    r.bind host = outcome ↔ r.Decides host outcome :=
  ⟨fun same => same ▸ r.bind_decides host, fun decides => (r.bind_decides host).unique decides⟩

-- Unboxed parameters are blamed where no method takes the boxed ones, but one would if some of its
-- parameters were boxed.
theorem bind_unboxed_iff :
    (∃ className method boxed, r.bind host = .error (.unboxedParameter className method boxed)) ↔
      (∀ t ∈ r.params, t.Passes) ∧ (∃ p, r.returns.primitive? = some p) ∧
        ∃ c, host.find? r.className = some c ∧
          (∀ m ∈ c.methods, ¬m.Takes r.function r.params) ∧
          ∃ m ∈ c.methods, m.TakesUnboxed r.function r.params := by
  constructor
  · rintro ⟨className, method, boxed, error⟩
    obtain ⟨earlier, c, ⟨⟨after, order⟩, violated, met⟩, reports⟩ := bind_eq_iff.mp error
    cases c with
    | method =>
        have order : [.parameters, .result, .hostClass] ++ Condition.method ::
            [.nullability, .returnType, .returnMark, .callable, .isStatic] =
            earlier ++ Condition.method :: after := order
        obtain ⟨rfl, _⟩ := (List.append_cons_inj_of_notMem (by simp) (by simp)).mp order
        simp only [List.forall_mem_cons, not_not] at met
        obtain ⟨c, found, ⟨before, m, first, _⟩ | ⟨_, same⟩⟩ := reports
        · refine ⟨met.1, met.2.1, c, found, ?_, m, first.mem, first.2.1⟩
          intro m' member takes
          obtain ⟨before', m'', first'⟩ :=
            exists_firstIn (P := (·.Takes r.function r.params)) member takes
          exact violated ⟨m'', c, before', found, first'⟩
        · cases same
    | parameters => obtain ⟨_, _, _, same⟩ := reports; cases same
    | nullability => obtain ⟨_, _, _, _, _, same⟩ := reports; cases same
    | returnType | callable | isStatic => obtain ⟨_, _, same⟩ := reports; cases same
    | result | hostClass | returnMark => cases reports
  · rintro ⟨passes, result, c, found, boxless, m, member, takes⟩
    obtain ⟨before, m', first⟩ := exists_firstIn (P := (·.TakesUnboxed r.function r.params)) member takes
    refine ⟨_, _, _, bind_eq_iff.mpr (decides_error [.parameters, .result, .hostClass] .method rfl ?_
      ?_ ⟨c, found, .inl ⟨before, m', first, rfl⟩⟩)⟩
    · simp only [List.forall_mem_cons]
      exact ⟨passes, result, ⟨c, found⟩, nofun⟩
    · rintro ⟨picked, c', before', found', first'⟩
      rw [found] at found'
      cases found'
      exact boxless picked first'.mem first'.2.1

end NativeRequest

end MiLanguage
