import MiLanguage.Proofs.Naming.Actions
import Mathlib.Logic.Relation

set_option autoImplicit false

namespace MiLanguage

namespace ScopeStack

variable {s t : ScopeStack} {X O : List Scope} {b : Scope} {name : String} {id : ModuleId}
  {l : LocalVariable} {v : Variable}

-- A variable gets a value, or the function's scope lists a module.
def Stepped (old new : List Scope) : Prop :=
  (∃ name, Changed (Scope.GivesValue name)
    (fun a => a.frame.isFunction = false ∧ a.frame.here name = none) old new) ∨
  ∃ id, Changed (Scope.Uses id) (fun a => a.frame.isFunction = false) old new

theorem Stepped.kinds {old new : List Scope} (stepped : Stepped old new) : kinds new = kinds old := by
  rcases stepped with ⟨name, changed⟩ | ⟨id, changed⟩
  · exact kinds_changed changed fun _ _ gives => gives.function
  · exact kinds_changed changed fun _ _ uses => uses.function.2.trans uses.function.1.symm

theorem kinds_of_steps {old new : List Scope} (steps : Relation.ReflTransGen Stepped old new) :
    kinds new = kinds old := by
  induction steps with
  | refl => rfl
  | tail _ step ih => exact step.kinds.trans ih

/-- What the scopes from `y` outwards have become, when `used` has been put in use further in. -/
structure Beneath (y : Scope) (B : List Scope) (used : List ModuleId) (y' : Scope)
    (B' : List Scope) : Prop where
  function : y'.frame.isFunction = y.frame.isFunction
  apart : y.frame.isFunction = true → B' = B
  steps : Relation.ReflTransGen Stepped B B'
  uses : usedIn (y' :: B') =
    if inFunction (y :: B) then used.foldl addOnce (usedIn (y :: B)) else []

theorem usedIn_outside {scopes : List Scope} (outside : inFunction scopes = false) :
    usedIn scopes = [] := congrArg View.uses (viewIn_outside outside)

namespace Beneath

variable {y y' y'' : Scope} {B B' B'' : List Scope} {used used' : List ModuleId}

theorem refl (y : Scope) (B : List Scope) : Beneath y B [] y B := by
  refine ⟨rfl, fun _ => rfl, .refl, ?_⟩
  split
  next => rfl
  next outside => exact usedIn_outside (by simpa using outside)

theorem inFunction (beneath : Beneath y B used y' B') :
    inFunction (y' :: B') = inFunction (y :: B) := by
  rw [inFunction_cons, inFunction_cons, beneath.function, inFunction_eq, inFunction_eq,
    kinds_of_steps beneath.steps]

theorem trans (first : Beneath y B used y' B') (second : Beneath y' B' used' y'' B'') :
    Beneath y B (used ++ used') y'' B'' := by
  refine ⟨second.function.trans first.function, fun function => ?_, first.steps.trans second.steps, ?_⟩
  · exact (second.apart (first.function.trans function)).trans (first.apart function)
  · rw [second.uses, first.inFunction, first.uses]
    split
    next => rw [List.foldl_append]
    next => rfl

theorem of_giveValue {Z : List Scope} (changed : Changed (Scope.GivesValue name)
    (fun a => a.frame.isFunction = false ∧ a.frame.here name = none) (y :: B) Z) :
    ∃ y' B', Z = y' :: B' ∧ Beneath y B [] y' B' := by
  have uses : usedIn Z = if MiLanguage.inFunction (y :: B) then usedIn (y :: B) else [] := by
    split
    next inside => exact congrArg View.uses (changed.givesValue inside).2
    next outside =>
      refine usedIn_outside ?_
      rw [inFunction_eq, kinds_changed changed fun _ _ gives => gives.function, ← inFunction_eq]
      simpa using outside
  cases changed with
  | here found => exact ⟨_, B, rfl, found.function, fun _ => rfl, .refl, uses⟩
  | there passed later =>
      exact ⟨y, _, rfl, rfl, fun function => absurd (function.symm.trans passed.1) nofun,
        .single (.inl ⟨name, later⟩), uses⟩

theorem of_use {Z : List Scope} (inside : MiLanguage.inFunction (y :: B) = true)
    (changed : Changed (Scope.Uses id) (fun a => a.frame.isFunction = false) (y :: B) Z) :
    ∃ y' B', Z = y' :: B' ∧ Beneath y B [id] y' B' := by
  have uses : usedIn Z =
      if MiLanguage.inFunction (y :: B) then [id].foldl addOnce (usedIn (y :: B)) else [] := by
    rw [if_pos inside]
    exact congrArg View.uses (changed.uses inside).2
  cases changed with
  | here found =>
      exact ⟨_, B, rfl, found.function.2.trans found.function.1.symm, fun _ => rfl, .refl, uses⟩
  | there passed later =>
      exact ⟨y, _, rfl, rfl, fun function => absurd (function.symm.trans passed) nofun,
        .single (.inr ⟨id, later⟩), uses⟩

end Beneath

theorem inFunction_append (X Y : List Scope) :
    inFunction (X ++ Y) = (inFunction X || inFunction Y) := List.any_append

theorem inFunction_of_uses {old new : List Scope} {passes : Scope → Prop}
    (changed : Changed (Scope.Uses id) passes old new) : inFunction old = true := by
  induction changed with
  | here found => rw [inFunction_cons, found.function.1, Bool.true_or]
  | there _ _ ih => rw [inFunction_cons, ih, Bool.or_true]

theorem act_beneath (bare : Bare b) (X : List Scope) (y : Scope) (B : List Scope) (action : Action)
    (stays : action = .pop → X ≠ []) :
    ∃ X' y' B', (⟨X ++ y :: B, b⟩ : ScopeStack).act action = ⟨X' ++ y' :: B', b⟩ ∧
      kinds X' = action.next (kinds X) ∧
      Beneath y B (if inFunction X then [] else action.used) y' B' := by
  cases inner : inFunction X with
  | true =>
      obtain ⟨X', kinds, there⟩ := act_inside inner action (y :: B).length
      exact ⟨X', y, B, there _ b rfl, kinds, .refl y B⟩
  | false =>
      cases action with
      | push scope => exact ⟨scope :: X, y, B, rfl, rfl, .refl y B⟩
      | pop =>
          cases X with
          | nil => exact absurd rfl (stays rfl)
          | cons scope X => exact ⟨X, y, B, rfl, rfl, .refl y B⟩
      | declare v =>
          rcases act_declare (s := ⟨X ++ y :: B, b⟩) bare v with
            refused | ⟨scope, outer, opened, block, inside, unknown, changed⟩
          · exact ⟨X, y, B, act_declare_of_none refused, rfl, .refl y B⟩
          · rw [changed]
            cases X with
            | nil =>
                cases opened
                have inside : inFunction (y :: B) = true := inside
                refine ⟨[], _, B, rfl, rfl, y.declare_function _, fun _ => rfl, .refl, ?_⟩
                rw [if_pos inside]
                exact congrArg View.uses (viewIn_declare block inside _)
            | cons x X =>
                cases opened
                exact ⟨_ :: X, y, B, rfl, congrArg (· :: kinds X) (scope.declare_function _),
                  .refl y B⟩
      | giveValue name =>
          cases found : (⟨X ++ y :: B, b⟩ : ScopeStack).lookupLocal? name with
          | none => exact ⟨X, y, B, act_giveValue_of_none found, rfl, .refl y B⟩
          | some l =>
              obtain ⟨opened, changed, here⟩ := act_giveValue bare found
              rw [here]
              rcases changed.split with ⟨X', rfl, within⟩ | ⟨_, Z, rfl, beyond⟩
              · exact ⟨X', y, B, rfl, kinds_changed within fun _ _ gives => gives.function,
                  .refl y B⟩
              · obtain ⟨y', B', rfl, beneath⟩ := Beneath.of_giveValue beyond
                exact ⟨X, y', B', rfl, rfl, beneath⟩
      | use id =>
          have around : inFunction (X ++ y :: B) = inFunction (y :: B) := by
            rw [inFunction_append, inner, Bool.false_or]
          cases inside : inFunction (y :: B) with
          | false =>
              refine ⟨X, y, B, act_use_outside (around.trans inside) id, rfl, rfl, fun _ => rfl, .refl,
                ?_⟩
              rw [inside]
              exact usedIn_outside inside
          | true =>
              obtain ⟨opened, changed, here⟩ := act_use (s := ⟨X ++ y :: B, b⟩)
                (around.trans inside) id
              rw [here]
              rcases changed.split with ⟨X', rfl, within⟩ | ⟨_, Z, rfl, beyond⟩
              · rw [inFunction_of_uses within] at inner
                cases inner
              · obtain ⟨y', B', rfl, beneath⟩ := Beneath.of_use inside beyond
                exact ⟨X, y', B', rfl, rfl, beneath⟩

theorem run_beneath (bare : Bare b) (X : List Scope) (y : Scope) (B : List Scope)
    {actions : List Action} {final : List Bool} (opening : opens (kinds X) actions = some final) :
    ∃ X' y' B', (⟨X ++ y :: B, b⟩ : ScopeStack).run actions = ⟨X' ++ y' :: B', b⟩ ∧
      kinds X' = final ∧ Beneath y B (named (kinds X) actions) y' B' := by
  induction actions generalizing X y B with
  | nil =>
      cases opening
      exact ⟨X, y, B, rfl, rfl, .refl y B⟩
  | cons action actions ih =>
      obtain ⟨stays, later⟩ := opens_cons opening
      obtain ⟨X₁, y₁, B₁, step, next, first⟩ := act_beneath bare X y B action fun isPop empty =>
        stays isPop (by rw [empty]; rfl)
      rw [← next] at later
      obtain ⟨X', y', B', rest, last, second⟩ := ih X₁ y₁ B₁ later
      refine ⟨X', y', B', ?_, last, ?_⟩
      · rw [← rest, ← step]
        rfl
      · have both := first.trans second
        rw [next, inFunction_eq] at both
        exact both

section Once

theorem eraseDups_of_nodup {ids : List ModuleId} (once : ids.Nodup) : ids.eraseDups = ids := by
  induction ids with
  | nil => rfl
  | cons id ids ih =>
      obtain ⟨fresh, once⟩ := List.nodup_cons.mp once
      have others : ids.filter (fun other => !other == id) = ids :=
        List.filter_eq_self.mpr fun other member => by
          simpa using fun same : other = id => fresh (same ▸ member)
      rw [List.eraseDups_cons, others, ih once]

theorem foldl_addOnce {found : List ModuleId} (once : found.Nodup) (ids : List ModuleId) :
    ids.foldl addOnce found = (found ++ ids).eraseDups := by
  induction ids generalizing found with
  | nil => rw [List.append_nil, eraseDups_of_nodup once, List.foldl_nil]
  | cons id ids ih =>
      rw [List.foldl_cons, ih (Scope.nodup_addOnce once id)]
      unfold addOnce
      split
      next known =>
        have dropped : (id :: ids).removeAll found = ids.removeAll found := by
          unfold List.removeAll
          exact List.filter_cons_of_neg (by simpa using known)
        rw [List.eraseDups_append, List.eraseDups_append, dropped]
      next => rw [List.append_assoc, List.singleton_append]

theorem flatMap_uses {scopes : List Scope} (tidy : Tidy scopes) :
    (upTo (·.frame.isFunction) scopes).flatMap (·.frame.uses) = usedIn scopes := by
  induction scopes with
  | nil => rfl
  | cons scope outer ih =>
      obtain ⟨own, around⟩ := tidy
      cases function : scope.frame.isFunction with
      | true => simp [upTo, usedIn, function]
      | false =>
          rw [if_neg (by simp [function])] at own
          have beyond := ih around
          unfold usedIn at beyond ⊢
          rw [List.find?_cons_of_neg (by simp [function]), upTo, if_neg (by simp [function]),
            ← beyond]
          split
          next empty => rw [empty]
          next => rw [List.flatMap_cons, own.1, List.nil_append]

theorem nodup_usedIn {scopes : List Scope} (tidy : Tidy scopes) : (usedIn scopes).Nodup := by
  induction scopes with
  | nil => exact List.nodup_nil
  | cons scope outer ih =>
      obtain ⟨own, around⟩ := tidy
      unfold usedIn
      cases function : scope.frame.isFunction with
      | true =>
          rw [if_pos function] at own
          simpa [function] using own
      | false =>
          rw [List.find?_cons_of_neg (by simp [function])]
          exact ih around

end Once

theorem view_eq (bare : Bare s.base) (tidy : Tidy s.opened) : s.view = viewIn s.opened := by
  have listed : s.uses = ((upTo (·.frame.isFunction) s.all).flatMap (·.frame.uses)).foldl
    addOnce [] := rfl
  have uses : s.uses = usedIn s.opened := by
    rw [listed, ScopeStack.all, upTo_concat bare, flatMap_uses tidy,
      foldl_addOnce List.nodup_nil, List.nil_append, eraseDups_of_nodup (nodup_usedIn tidy)]
  have seen := viewIn_concat bare s.opened
  rw [← seen]
  unfold view
  rw [uses]
  exact congrArg (fun v : View => { viewIn s.all with uses := v.uses }) seen.symm

theorem view_append (inside : inFunction X = true) (O O' : List Scope) (b b' : Scope) :
    (⟨X ++ O, b⟩ : ScopeStack).view = (⟨X ++ O', b'⟩ : ScopeStack).view := by
  have scopes (O : List Scope) (b : Scope) : (⟨X ++ O, b⟩ : ScopeStack).functionScopes =
      upTo (·.frame.isFunction) X := by
    unfold functionScopes ScopeStack.all
    rw [List.append_assoc, upTo_append inside]
  have function (O : List Scope) (b : Scope) : (⟨X ++ O, b⟩ : ScopeStack).functionScope? =
      X.find? (·.frame.isFunction) := by
    unfold functionScope? ScopeStack.all
    rw [List.append_assoc, find?_append_left inside]
  unfold view uses inLoop returnType?
  congr 1
  · funext name
    unfold lookupLocal?
    rw [scopes, scopes]
  · rw [scopes, scopes]
  · rw [scopes, scopes]
  · rw [function, function]

-- The scope at this place, counted from the innermost, is one of the current function's.
def Sighted (scopes : List Scope) (place : Nat) : Prop :=
  (∃ scope ∈ scopes.drop place, scope.frame.isFunction = true) ∧
    ∀ scope ∈ scopes.take place, scope.frame.isFunction = false

-- The variable that is declared under a name in the scope at a place.
def declaredAt (s : ScopeStack) (place : Nat) (name : String) : Option LocalVariable :=
  s.all[place]?.bind (·.frame.here name)

/-- The stack tells what lexical scoping tells. -/
structure Lexical (s : ScopeStack) : Prop where
  locals : ∀ name l, s.lookupLocal? name = some l ↔
    ∃ place, Sighted s.all place ∧ s.declaredAt place name = some l
  once : ∀ name place other, Sighted s.all place → Sighted s.all other →
    (s.declaredAt place name).isSome → (s.declaredAt other name).isSome → place = other
  outside : inFunction s.all = false → s.view = .nowhere
  declared : ∀ v, (s.declareLocal? v).isSome ↔
    s.current.frame.isBlock = true ∧ inFunction s.all = true ∧ s.lookupLocal? v.name = none
  declare : ∀ v, if (s.declareLocal? v).isSome
    then (s.act (.declare v)).view = s.view.declare v.name ⟨v, s.functionHeight⟩
    else s.act (.declare v) = s
  giveValue : ∀ name, (s.act (.giveValue name)).view = s.view.giveValue name
  use : ∀ id, if inFunction s.all then (s.act (.use id)).view = s.view.use id
    else s.act (.use id) = s
  usesOnce : s.uses.Nodup
  function : ∀ scope, (Action.push scope).Fresh → scope.frame.isFunction = true →
    (s.push scope).view =
      { View.nowhere with returnType := scope.frame.block?.bind Block.returnType }
  inner : ∀ scope, (Action.push scope).Fresh → scope.frame.isFunction = false →
    (s.push scope).view = if inFunction s.all
      then { s.view with inLoop := scope.frame.isLoop || s.inLoop } else .nowhere

section Places

variable {scope : Scope} {outer scopes : List Scope}

theorem sighted_zero : Sighted scopes 0 ↔ inFunction scopes = true := by
  simp [Sighted, inFunction]

theorem sighted_succ {place : Nat} : Sighted (scope :: outer) (place + 1) ↔
    scope.frame.isFunction = false ∧ Sighted outer place := by
  unfold Sighted
  rw [List.drop_succ_cons, List.take_succ_cons, List.forall_mem_cons]
  exact ⟨fun ⟨around, own, others⟩ => ⟨own, around, others⟩,
    fun ⟨own, around, others⟩ => ⟨around, own, others⟩⟩

theorem inFunction_of_sighted {place : Nat} (sighted : Sighted scopes place) :
    inFunction scopes = true := by
  obtain ⟨scope, member, function⟩ := sighted.1
  exact List.any_eq_true.mpr ⟨scope, List.mem_of_mem_drop member, function⟩

theorem lookupIn_of_sighted (tidy : Tidy scopes) {place : Nat} (sighted : Sighted scopes place)
    (declared : scopes[place]?.bind (·.frame.here name) = some l) :
    lookupIn scopes name = some l := by
  induction scopes generalizing place with
  | nil => cases declared
  | cons scope outer ih =>
      obtain ⟨own, around⟩ := tidy
      have inside := inFunction_of_sighted sighted
      cases place with
      | zero =>
          have here : scope.frame.here name = some l := declared
          cases function : scope.frame.isFunction with
          | true =>
              rw [lookupIn_function function]
              exact here
          | false =>
              rw [inFunction_cons, function, Bool.false_or] at inside
              rw [lookupIn_block function inside, here]
              rfl
      | succ place =>
          obtain ⟨function, beyond⟩ := sighted_succ.mp sighted
          have found := ih around beyond declared
          rw [if_neg (by simp [function])] at own
          have missing : scope.frame.here name = none := by
            by_contra known
            rw [own.2 name (Option.isSome_iff_ne_none.mpr known)] at found
            cases found
          rw [lookupIn_block function (inFunction_of_sighted beyond), missing, found]
          rfl

theorem sighted_of_lookupIn (found : lookupIn scopes name = some l) :
    ∃ place, Sighted scopes place ∧ scopes[place]?.bind (·.frame.here name) = some l := by
  induction scopes with
  | nil => cases found
  | cons scope outer ih =>
      have inside : inFunction (scope :: outer) = true := by
        by_contra outside
        rw [lookupIn_outside (Bool.eq_false_iff.mpr outside)] at found
        cases found
      cases function : scope.frame.isFunction with
      | true =>
          rw [lookupIn_function function] at found
          exact ⟨0, sighted_zero.mpr inside, found⟩
      | false =>
          have around := inside
          rw [inFunction_cons, function, Bool.false_or] at around
          rw [lookupIn_block function around] at found
          cases here : scope.frame.here name with
          | some l' =>
              rw [here] at found
              exact ⟨0, sighted_zero.mpr inside, here.trans found⟩
          | none =>
              rw [here, Option.none_or] at found
              obtain ⟨place, sighted, declared⟩ := ih found
              exact ⟨place + 1, sighted_succ.mpr ⟨function, sighted⟩, declared⟩

theorem eq_of_sighted (tidy : Tidy scopes) {place other : Nat} (sighted : Sighted scopes place)
    (sighted' : Sighted scopes other)
    (declared : (scopes[place]?.bind (·.frame.here name)).isSome)
    (declared' : (scopes[other]?.bind (·.frame.here name)).isSome) : place = other := by
  induction scopes generalizing place other with
  | nil => cases declared
  | cons scope outer ih =>
      obtain ⟨own, around⟩ := tidy
      -- A name that stands for something further out is not declared once more in front.
      have apart {further : Nat} (sighted : Sighted (scope :: outer) (further + 1))
          (declared : (outer[further]?.bind (·.frame.here name)).isSome)
          (here : (scope.frame.here name).isSome) : False := by
        obtain ⟨function, beyond⟩ := sighted_succ.mp sighted
        rw [if_neg (by simp [function])] at own
        obtain ⟨l, known⟩ := Option.isSome_iff_exists.mp declared
        have found := lookupIn_of_sighted around beyond known
        rw [own.2 name here] at found
        cases found
      cases place with
      | zero =>
          cases other with
          | zero => rfl
          | succ other => exact (apart sighted' declared' declared).elim
      | succ place =>
          cases other with
          | zero => exact (apart sighted declared declared').elim
          | succ other =>
              rw [ih around (sighted_succ.mp sighted).2 (sighted_succ.mp sighted').2 declared
                declared']

end Places

theorem tidy_concat (bare : Bare b) {X : List Scope} (tidy : Tidy X) : Tidy (X ++ [b]) := by
  induction X with
  | nil =>
      have empty : b.frame.block? = none := by
        unfold Bare at bare
        simpa [Frame.isBlock] using bare
      refine ⟨?_, trivial⟩
      rw [if_neg (by simp [bare.function])]
      unfold Frame.uses Frame.here
      rw [empty]
      exact ⟨rfl, nofun⟩
  | cons scope outer ih =>
      obtain ⟨own, around⟩ := tidy
      refine ⟨?_, ih around⟩
      split
      next function =>
        rw [if_pos function] at own
        exact own
      next inner =>
        rw [if_neg inner] at own
        refine ⟨own.1, fun name known => ?_⟩
        show (viewIn (outer ++ [b])).locals name = none
        rw [viewIn_concat bare]
        exact own.2 name known

theorem declareLocal?_isSome (bare : Bare s.base) (v : Variable) :
    (s.declareLocal? v).isSome = true ↔ s.current.frame.isBlock = true ∧
      inFunction s.all = true ∧ s.lookupLocal? v.name = none := by
  rw [ScopeStack.all, inFunction_concat bare]
  unfold declareLocal?
  rw [functionScope?_isNone bare]
  split
  next refused =>
    simp only [Bool.or_eq_true, Bool.not_eq_true', Option.isSome_none, Bool.false_eq_true,
      false_iff, not_and] at refused ⊢
    intro block inside
    rcases refused with (known | outside) | other
    · exact fun unknown => by rw [unknown] at known; cases known
    · rw [inside] at outside; cases outside
    · rw [block] at other; cases other
  next declarable =>
    simp only [Bool.or_eq_true, not_or, Bool.not_eq_true, Bool.not_eq_false'] at declarable
    obtain ⟨⟨unknown, inside⟩, block⟩ := declarable
    exact ⟨fun _ => ⟨block, inside, by simpa using unknown⟩, fun _ => rfl⟩

theorem lexical (bare : Bare s.base) (tidy : Tidy s.opened) : s.Lexical := by
  have all := tidy_concat bare tidy
  have seen := view_eq bare tidy
  have around : inFunction s.all = inFunction s.opened := inFunction_concat bare s.opened
  have after (action : Action) (fresh : action.Fresh) :
      (s.act action).view = viewIn (s.act action).opened :=
    view_eq (act_base bare action ▸ bare) (tidy_act bare tidy fresh)
  refine ⟨fun name l => ⟨sighted_of_lookupIn, fun ⟨_, sighted, declared⟩ =>
      lookupIn_of_sighted all sighted declared⟩,
    fun name place other => eq_of_sighted all, fun outside => ?_, declareLocal?_isSome bare,
    fun v => ?_, fun name => ?_, fun id => ?_, ?_, fun scope fresh function => ?_,
    fun scope fresh inner => ?_⟩
  · rw [seen]
    exact viewIn_outside (around.symm.trans outside)
  · split
    next accepted =>
      rw [after (.declare v) trivial, seen]
      rcases act_declare bare v with refused | ⟨scope, outer, opened, block, inside, _, changed⟩
      · rw [refused] at accepted
        cases accepted
      · rw [changed, opened]
        rw [opened] at inside
        exact viewIn_declare block inside _
    next refused => exact act_declare_of_none (Option.not_isSome_iff_eq_none.mp refused)
  · rw [after (.giveValue name) trivial, seen]
    cases found : s.lookupLocal? name with
    | none =>
        rw [act_giveValue_of_none found]
        rw [lookupLocal?_opened bare] at found
        exact (View.giveValue_of_none found).symm
    | some l =>
        obtain ⟨opened, changed, here⟩ := act_giveValue bare found
        rw [here]
        refine (changed.givesValue ?_).2
        by_contra outside
        rw [lookupLocal?_opened bare, lookupIn_outside (Bool.eq_false_iff.mpr outside)] at found
        cases found
  · rw [around]
    split
    next inside =>
      obtain ⟨opened, changed, here⟩ := act_use inside id
      rw [after (.use id) trivial, seen, here]
      exact (changed.uses inside).2
    next outside => exact act_use_outside (Bool.eq_false_iff.mpr outside) id
  · have uses : s.uses = usedIn s.opened := congrArg View.uses seen
    rw [uses]
    exact nodup_usedIn tidy
  · obtain ⟨uses, here⟩ := empty_of_fresh fresh
    have pushed : (s.push scope).view = viewIn (scope :: s.opened) := after (.push scope) fresh
    rw [pushed, viewIn_function function]
    unfold Scope.own
    rw [uses, here]
    rfl
  · obtain ⟨_, here⟩ := empty_of_fresh fresh
    have pushed : (s.push scope).view = viewIn (scope :: s.opened) := after (.push scope) fresh
    have loop : s.inLoop = (viewIn s.opened).inLoop := congrArg View.inLoop seen
    rw [pushed, around]
    split
    next inside =>
      rw [viewIn_inner inner inside, seen, loop]
      unfold Scope.within
      rw [here]
      simp only [Option.none_or]
    next outside =>
      exact viewIn_outside (by rw [inFunction_cons, inner, Bool.eq_false_iff.mpr outside]; rfl)

/-- The same is in sight, but that variables may have got values. -/
structure Resumed (v w : View) : Prop where
  locals : ∀ name, w.locals name = v.locals name ∨
    w.locals name = (v.locals name).map LocalVariable.withValue
  inLoop : w.inLoop = v.inLoop
  returnType : w.returnType = v.returnType

theorem Resumed.refl (v : View) : Resumed v v := ⟨fun _ => .inl rfl, rfl, rfl⟩

theorem Resumed.trans {u v w : View} (first : Resumed u v) (second : Resumed v w) :
    Resumed u w := by
  refine ⟨fun name => ?_, second.inLoop.trans first.inLoop,
    second.returnType.trans first.returnType⟩
  rcases second.locals name with same | given
  · rw [same]
    exact first.locals name
  · rcases first.locals name with same' | given'
    · exact .inr (given.trans (by rw [same']))
    · refine .inr (given.trans ?_)
      rw [given', Option.map_map]
      rfl

theorem resumed_giveValue (v : View) (name : String) : Resumed v (v.giveValue name) := by
  refine ⟨fun other => ?_, rfl, rfl⟩
  by_cases same : other = name
  · exact .inr (by rw [same]; exact if_pos rfl)
  · exact .inl (if_neg same)

theorem Stepped.resumed {old new : List Scope} (stepped : Stepped old new) :
    Resumed (viewIn old) (viewIn new) := by
  cases inside : inFunction old with
  | false =>
      have outside : inFunction new = false := by
        rw [inFunction_eq, stepped.kinds, ← inFunction_eq, inside]
      rw [viewIn_outside inside, viewIn_outside outside]
      exact .refl _
  | true =>
      rcases stepped with ⟨name, changed⟩ | ⟨id, changed⟩
      · rw [(changed.givesValue inside).2]
        exact resumed_giveValue _ name
      · rw [(changed.uses inside).2]
        exact ⟨fun _ => .inl rfl, rfl, rfl⟩

theorem resumed_of_steps {old new : List Scope} (steps : Relation.ReflTransGen Stepped old new) :
    Resumed (viewIn old) (viewIn new) := by
  induction steps with
  | refl => exact .refl _
  | tail _ step ih => exact ih.trans step.resumed

section Balanced

variable {scope : Scope} {actions : List Action} (bare : Bare s.base) (tidy : Tidy s.opened)
  (opening : (Action.push scope).Fresh) (fresh : ∀ action ∈ actions, action.Fresh)

include bare tidy opening fresh

theorem exists_closed (closed : opens [] actions = some []) :
    ∃ y B, (s.push scope).run actions = ⟨y :: B, s.base⟩ ∧ Tidy (y :: B) ∧
      Beneath scope s.opened (named [] actions) y B := by
  have pushed : Tidy (s.push scope).opened := tidy_act bare tidy opening
  have inside := tidy_run (s := s.push scope) bare pushed fresh
  obtain ⟨X, y, B, ran, here, beneath⟩ := run_beneath bare [] scope s.opened closed
  cases X with
  | cons => cases here
  | nil =>
      have ran : (s.push scope).run actions = ⟨y :: B, s.base⟩ := ran
      rw [ran] at inside
      exact ⟨y, B, ran, inside, beneath⟩

theorem block_resumed (inner : scope.frame.isFunction = false)
    (closed : opens [] actions = some []) :
    let inside := (s.push scope).run actions
    let after := inside.act .pop
    after.depth = s.depth ∧ Resumed s.view after.view ∧ after.uses = inside.uses ∧
      inside.uses = if inFunction s.all then (s.uses ++ named [] actions).eraseDups else [] := by
  obtain ⟨y, B, ran, tidy', beneath⟩ := exists_closed bare tidy opening fresh closed
  intro inside after
  have inside_eq : inside = ⟨y :: B, s.base⟩ := ran
  have after_eq : after = ⟨B, s.base⟩ := congrArg (act · .pop) inside_eq
  have seen : s.view = viewIn s.opened := view_eq bare tidy
  have insideView : inside.view = viewIn (y :: B) := by
    rw [inside_eq]
    exact view_eq (s := ⟨y :: B, s.base⟩) bare tidy'
  have afterView : after.view = viewIn B := by
    rw [after_eq]
    exact view_eq (s := ⟨B, s.base⟩) bare tidy'.2
  have skipped : y.frame.isFunction = false := beneath.function.trans inner
  have skip {x : Scope} {X : List Scope} (function : x.frame.isFunction = false) :
      usedIn (x :: X) = usedIn X := by
    unfold usedIn
    rw [List.find?_cons_of_neg (by simp [function])]
  refine ⟨?_, ?_, ?_, ?_⟩
  · have lengths := congrArg List.length (kinds_of_steps beneath.steps)
    simp only [kinds, List.length_map] at lengths
    rw [after_eq]
    exact congrArg (· + 1) lengths
  · rw [seen, afterView]
    exact resumed_of_steps beneath.steps
  · have insideUses := congrArg View.uses insideView
    have afterUses := congrArg View.uses afterView
    exact afterUses.trans ((skip skipped).symm.trans insideUses.symm)
  · have insideUses : inside.uses = usedIn (y :: B) := congrArg View.uses insideView
    have uses : s.uses = usedIn s.opened := congrArg View.uses seen
    rw [insideUses, beneath.uses, skip inner, uses, ScopeStack.all, inFunction_concat bare,
      inFunction_cons, inner, Bool.false_or, foldl_addOnce (nodup_usedIn tidy)]

theorem function_restored (function : scope.frame.isFunction = true)
    (closed : opens [] actions = some []) :
    let inside := (s.push scope).run actions
    inside.act .pop = s ∧ inside.uses = (named [] actions).eraseDups := by
  obtain ⟨y, B, ran, tidy', beneath⟩ := exists_closed bare tidy opening fresh closed
  intro inside
  have inside_eq : inside = ⟨y :: B, s.base⟩ := ran
  refine ⟨?_, ?_⟩
  · rw [inside_eq, beneath.apart function]
    rfl
  · have insideUses : inside.uses = usedIn (y :: B) := by
      rw [inside_eq]
      exact congrArg View.uses (view_eq (s := ⟨y :: B, s.base⟩) bare tidy')
    have unused : usedIn (scope :: s.opened) = [] := by
      have own : (viewIn (scope :: s.opened)).uses = scope.frame.uses := by
        rw [viewIn_function function]
        rfl
      exact own.trans (empty_of_fresh opening).1
    rw [insideUses, beneath.uses, unused, inFunction_cons, function, Bool.true_or, if_pos rfl,
      foldl_addOnce List.nodup_nil, List.nil_append]

end Balanced

-- Inside a function everything is as it is with any other scopes around it, if these are as many.
theorem function_alone {scope : Scope} {actions : List Action} {final : List Bool}
    (function : scope.frame.isFunction = true) (opening : opens [] actions = some final)
    {s other : ScopeStack} (same : other.depth = s.depth) :
    ((other.push scope).run actions).view = ((s.push scope).run actions).view := by
  have here : kinds [scope] = [] ++ [true] := congrArg ([·]) function
  obtain ⟨X, last, ran⟩ := run_inside here opening s.opened.length
  have inside : inFunction X = true := by
    rw [inFunction_eq, last, List.contains_iff_mem]
    simp
  have mine : (s.push scope).run actions = ⟨X ++ s.opened, s.base⟩ := ran s.opened s.base rfl
  have others : (other.push scope).run actions = ⟨X ++ other.opened, other.base⟩ :=
    ran other.opened other.base (Nat.succ.inj same)
  rw [mine, others]
  exact view_append inside _ _ _ _

/-- However the scopes have been opened, closed and filled, they work as lexical scopes: what is
in sight is what the blocks out to the nearest function declare, a block leaves no more than values
and modules in use behind, and a function leaves nothing and sees nothing of what is around it. -/
theorem scopes_lexical (root : ModuleId) (node : Node) {before : List Action}
    (fresh : ∀ action ∈ before, action.Fresh) :
    let s := (start root node).run before
    s.base = { frame := .parent root, node } ∧ (s.depth = 1 → s.act .pop = s) ∧ s.Lexical ∧
    ∀ scope actions, (Action.push scope).Fresh → (∀ action ∈ actions, action.Fresh) →
      let inside := (s.push scope).run actions
      let after := inside.act .pop
      (scope.frame.isFunction = false → opens [] actions = some [] →
        after.depth = s.depth ∧ Resumed s.view after.view ∧ after.uses = inside.uses ∧
          inside.uses =
            if inFunction s.all then (s.uses ++ named [] actions).eraseDups else []) ∧
      (scope.frame.isFunction = true → opens [] actions = some [] →
        after = s ∧ inside.uses = (named [] actions).eraseDups) ∧
      (scope.frame.isFunction = true → ∀ final, opens [] actions = some final →
        ∀ other : ScopeStack, other.depth = s.depth →
          ((other.push scope).run actions).view = inside.view) := by
  intro s
  have bottom : Bare (start root node).base := rfl
  have base : s.base = (start root node).base := run_base bottom before
  have bare : Bare s.base := base ▸ bottom
  have tidy : Tidy s.opened := tidy_run bottom trivial fresh
  refine ⟨base, fun alone => ?_, lexical bare tidy, fun scope actions opening fresh => ?_⟩
  · have unpopped := (pop?_eq_none_iff s).mpr alone
    exact congrArg (fun found : Option (Scope × ScopeStack) => (found.map Prod.snd).getD s) unpopped
  · exact ⟨block_resumed bare tidy opening fresh, function_restored bare tidy opening fresh,
      fun function final opening other same => function_alone function opening same⟩

def emptyScope (kind : BlockKind) : Scope :=
  { frame := .block kind {}, node := .new .parent 0 }

def unset (name : String) : Variable :=
  { name, type := .primitive .int, modifiers := .empty, origin := ⟨ModuleTree.root, 0⟩,
    initialized := false }

def bodyWithVariable : List Action :=
  [.push (emptyScope .function), .declare (unset "a"), .use ⟨1⟩]

-- A branch that has its own variable, gives one around it a value and has a function inside.
def branchActions : List Action :=
  [.declare (unset "b"), .use ⟨2⟩, .push (emptyScope .function), .declare (unset "a"), .use ⟨3⟩, .pop,
    .giveValue "a", .use ⟨1⟩]

theorem branch_lexical :
    (∀ action ∈ bodyWithVariable, action.Fresh) ∧ (∀ action ∈ branchActions, action.Fresh) ∧
    opens [] branchActions = some [] ∧
    let s := (start ModuleTree.root (.new .parent 0)).run bodyWithVariable
    let inside := (s.push (emptyScope .branch)).run branchActions
    let after := inside.act .pop
    Resumed s.view after.view ∧ after.uses = [⟨1⟩, ⟨2⟩] ∧
      (inside.lookupLocal? "b").isSome ∧ after.lookupLocal? "b" = none ∧
      (s.lookupLocal? "a").map (·.declaration.initialized) = some false ∧
      (after.lookupLocal? "a").map (·.declaration.initialized) = some true := by
  have empty (kind : BlockKind) : (Action.push (emptyScope kind)).Fresh := by
    rintro b ⟨⟩
    exact ⟨rfl, rfl⟩
  have fresh : ∀ action ∈ bodyWithVariable, action.Fresh := by
    simp only [bodyWithVariable, List.forall_mem_cons]
    exact ⟨empty .function, trivial, trivial, List.forall_mem_nil _⟩
  have fresh' : ∀ action ∈ branchActions, action.Fresh := by
    simp only [branchActions, List.forall_mem_cons]
    exact ⟨trivial, trivial, empty .function, trivial, trivial, trivial, trivial, trivial,
      List.forall_mem_nil _⟩
  have closed : opens [] branchActions = some [] := rfl
  obtain ⟨_, _, _, later⟩ := scopes_lexical ModuleTree.root (.new .parent 0) fresh
  obtain ⟨left, _, _⟩ := later (emptyScope .branch) branchActions (empty .branch) fresh'
  obtain ⟨_, resumed, _, _⟩ := left rfl closed
  refine ⟨fresh, fresh', closed, resumed, ?_, ?_, ?_, ?_, ?_⟩ <;> rfl

end ScopeStack

end MiLanguage
