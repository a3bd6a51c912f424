import MiLanguage.Proofs.Naming.Views

set_option autoImplicit false

namespace MiLanguage

namespace ScopeStack

/-- What is done to the scopes in the course of an analysis. -/
inductive Action where
  | push (scope : Scope)
  | pop
  | declare (v : Variable)
  | giveValue (name : String)
  | use (id : ModuleId)

-- A block is opened without variables and modules in use.
def Action.Fresh : Action → Prop
  | push scope => ∀ b, scope.frame.block? = some b → b.locals = .empty ∧ b.uses = []
  | _ => True

-- What is refused leaves the scopes as they are.
def act (s : ScopeStack) : Action → ScopeStack
  | .push scope => s.push scope
  | .pop => (s.pop?.map Prod.snd).getD s
  | .declare v => (s.declareLocal? v).getD s
  | .giveValue name => s.modifyLocal name LocalVariable.withValue
  | .use id => (s.addUse? id).getD s

def run (s : ScopeStack) (actions : List Action) : ScopeStack := actions.foldl act s

-- For each scope that is opened, whether it is a function's.
def Action.next : Action → List Bool → List Bool
  | push scope, opened => scope.frame.isFunction :: opened
  | pop, opened => opened.tail
  | _, opened => opened

def Action.used : Action → List ModuleId
  | use id => [id]
  | _ => []

-- The scopes that are open after some actions, besides those that have been before. There is no
-- answer if the actions close any of these.
def opens : List Bool → List Action → Option (List Bool)
  | opened, [] => some opened
  | [], .pop :: _ => none
  | opened, action :: rest => opens (action.next opened) rest

-- The modules that some actions put in use, without those in functions that they open.
def named : List Bool → List Action → List ModuleId
  | _, [] => []
  | opened, action :: rest =>
      (if opened.contains true then [] else action.used) ++ named (action.next opened) rest

end ScopeStack

namespace ScopeStack

variable {s t : ScopeStack} {X O : List Scope} {b : Scope} {name : String} {id : ModuleId}
  {l : LocalVariable} {v : Variable}

-- The scope at the bottom holds no statements.
def Bare (b : Scope) : Prop := b.frame.isBlock = false

theorem Bare.function (bare : Bare b) : b.frame.isFunction = false := by
  unfold Bare at bare
  cases frame : b.frame with
  | block => rw [frame] at bare; cases bare
  | _ => rfl

theorem inFunction_concat (bare : Bare b) (X : List Scope) :
    inFunction (X ++ [b]) = inFunction X := by
  simp [inFunction, bare.function]

theorem viewIn_concat (bare : Bare b) (X : List Scope) : viewIn (X ++ [b]) = viewIn X := by
  cases inside : inFunction X with
  | true => exact viewIn_append inside [b]
  | false => rw [viewIn_outside ((inFunction_concat bare X).trans inside), viewIn_outside inside]

theorem upTo_concat (bare : Bare b) (X : List Scope) :
    upTo (·.frame.isFunction) (X ++ [b]) = upTo (·.frame.isFunction) X := by
  cases inside : inFunction X with
  | true => exact upTo_append inside [b]
  | false => rw [upTo_of_none ((inFunction_concat bare X).trans inside), upTo_of_none inside]

theorem lookupLocal?_opened (bare : Bare s.base) : s.lookupLocal? = lookupIn s.opened :=
  congrArg View.locals (viewIn_concat bare s.opened)

theorem functionScope?_isNone (bare : Bare s.base) :
    s.functionScope?.isNone = !inFunction s.opened := by
  rw [← inFunction_concat bare]
  have found : s.functionScope?.isSome = inFunction s.all := by
    rw [Bool.eq_iff_iff, inFunction, List.any_eq_true]
    exact List.find?_isSome
  rw [← Option.not_isSome, found]
  rfl

theorem act_giveValue_of_some (found : lookupIn X name = some l) :
    ∃ X', Changed (Scope.GivesValue name)
        (fun a => a.frame.isFunction = false ∧ a.frame.here name = none) X X' ∧
      ∀ O b, (⟨X ++ O, b⟩ : ScopeStack).act (.giveValue name) = ⟨X' ++ O, b⟩ := by
  obtain ⟨X', first, changed⟩ := exists_giveValue found
  refine ⟨X', changed, fun O b => ?_⟩
  have inside : inFunction X = true := by
    by_contra outside
    rw [lookupIn_outside (Bool.not_eq_true _ ▸ outside)] at found
    cases found
  have known : (⟨X ++ O, b⟩ : ScopeStack).lookupLocal? name = some l := by
    rw [← found]
    show (viewIn (X ++ O ++ [b])).locals name = (viewIn X).locals name
    rw [List.append_assoc, viewIn_append inside]
  have changes : (⟨X ++ O, b⟩ : ScopeStack).modifyInnermost (Scope.giveValue? name) =
      some ⟨X' ++ O, b⟩ := by
    unfold modifyInnermost
    rw [modifyFirst_append first]
    rfl
  show ScopeStack.modifyLocal _ name _ = _
  unfold modifyLocal
  rw [known]
  exact congrArg (fun found : Option ScopeStack => found.getD ⟨X ++ O, b⟩) changes

theorem act_giveValue_of_none (unknown : s.lookupLocal? name = none) :
    s.act (.giveValue name) = s := by
  show s.modifyLocal name _ = s
  unfold modifyLocal
  rw [unknown]

theorem act_use_inside (inside : inFunction X = true) (id : ModuleId) :
    ∃ X', Changed (Scope.Uses id) (fun a => a.frame.isFunction = false) X X' ∧
      ∀ O b, (⟨X ++ O, b⟩ : ScopeStack).act (.use id) = ⟨X' ++ O, b⟩ := by
  obtain ⟨X', first, changed⟩ := exists_use inside id
  refine ⟨X', changed, fun O b => ?_⟩
  have changes : (⟨X ++ O, b⟩ : ScopeStack).modifyInnermost (Scope.use? id) = some ⟨X' ++ O, b⟩ := by
    unfold modifyInnermost
    rw [modifyFirst_append first]
    rfl
  exact congrArg (fun found : Option ScopeStack => found.getD ⟨X ++ O, b⟩) changes

theorem act_use_outside (outside : inFunction s.opened = false) (id : ModuleId) :
    s.act (.use id) = s := by
  have refused : s.modifyInnermost (Scope.use? id) = none := by
    unfold modifyInnermost
    rw [modifyFirst_eq_none fun scope member => ?_]
    · rfl
    · have function := List.any_eq_false.mp outside scope member
      cases used : scope.use? id with
      | none => rfl
      | some => exact absurd (Scope.uses_of_some used).function.1 function
  exact congrArg (fun found : Option ScopeStack => found.getD s) refused

theorem act_giveValue (bare : Bare s.base) (found : s.lookupLocal? name = some l) :
    ∃ opened, Changed (Scope.GivesValue name)
        (fun a => a.frame.isFunction = false ∧ a.frame.here name = none) s.opened opened ∧
      s.act (.giveValue name) = { s with opened } := by
  rw [lookupLocal?_opened bare] at found
  obtain ⟨opened, changed, there⟩ := act_giveValue_of_some found
  have here := there [] s.base
  rw [List.append_nil, List.append_nil] at here
  exact ⟨opened, changed, here⟩

theorem act_use (inside : inFunction s.opened = true) (id : ModuleId) :
    ∃ opened, Changed (Scope.Uses id) (fun a => a.frame.isFunction = false) s.opened opened ∧
      s.act (.use id) = { s with opened } := by
  obtain ⟨opened, changed, there⟩ := act_use_inside inside id
  have here := there [] s.base
  rw [List.append_nil, List.append_nil] at here
  exact ⟨opened, changed, here⟩

theorem act_declare_of_none (refused : s.declareLocal? v = none) : s.act (.declare v) = s :=
  congrArg (fun found : Option ScopeStack => found.getD s) refused

theorem act_declare (bare : Bare s.base) (v : Variable) :
    s.declareLocal? v = none ∨ ∃ scope outer, s.opened = scope :: outer ∧
      scope.frame.isBlock = true ∧ inFunction s.opened = true ∧ lookupIn s.opened v.name = none ∧
      s.act (.declare v) = { s with opened := scope.declare ⟨v, s.functionHeight⟩ :: outer } := by
  have tried : s.act (.declare v) = (s.declareLocal? v).getD s := rfl
  rw [tried]
  unfold declareLocal?
  rw [lookupLocal?_opened bare, functionScope?_isNone bare]
  split
  next => exact .inl rfl
  next declarable =>
    simp only [Bool.or_eq_true, not_or, Bool.not_eq_true, Bool.not_eq_false'] at declarable
    obtain ⟨⟨unknown, inside⟩, block⟩ := declarable
    cases opened : s.opened with
    | nil =>
        rw [opened] at inside
        cases inside
    | cons scope outer =>
        have current : s.current = scope := by simp [ScopeStack.current, opened]
        rw [current] at block
        rw [opened] at unknown inside
        refine .inr ⟨scope, outer, rfl, block, inside, by simpa using unknown, ?_⟩
        unfold modifyCurrentBlock modifyCurrent
        rw [opened]
        rfl

theorem act_base (bare : Bare s.base) (action : Action) : (s.act action).base = s.base := by
  cases action with
  | push => rfl
  | pop =>
      obtain ⟨opened, base⟩ := s
      cases opened <;> rfl
  | declare v =>
      rcases act_declare bare v with refused | ⟨_, _, _, _, _, _, changed⟩
      · rw [act_declare_of_none refused]
      · rw [changed]
  | giveValue name =>
      cases found : s.lookupLocal? name with
      | none => rw [act_giveValue_of_none found]
      | some l =>
          obtain ⟨_, _, changed⟩ := act_giveValue bare found
          rw [changed]
  | use id =>
      cases inside : inFunction s.opened with
      | false => rw [act_use_outside inside]
      | true =>
          obtain ⟨_, _, changed⟩ := act_use inside id
          rw [changed]

theorem run_base (bare : Bare s.base) (actions : List Action) :
    (s.run actions).base = s.base := by
  induction actions generalizing s with
  | nil => rfl
  | cons action actions ih =>
      have same := act_base bare action
      exact (ih (same ▸ bare)).trans same

theorem empty_of_fresh {scope : Scope} (fresh : (Action.push scope).Fresh) :
    scope.frame.uses = [] ∧ scope.frame.here = fun _ => none := by
  unfold Frame.uses
  cases found : scope.frame.block? with
  | none =>
      refine ⟨rfl, funext fun name => ?_⟩
      unfold Frame.here
      rw [found]
      rfl
  | some b =>
      obtain ⟨locals, uses⟩ := fresh b found
      refine ⟨uses, funext fun name => ?_⟩
      unfold Frame.here
      rw [found, Option.bind_some, locals]
      rfl

theorem tidy_act (bare : Bare s.base) (tidy : Tidy s.opened) {action : Action}
    (fresh : action.Fresh) : Tidy (s.act action).opened := by
  cases action with
  | push scope =>
      obtain ⟨uses, here⟩ := empty_of_fresh fresh
      refine ⟨?_, tidy⟩
      rw [uses]
      split
      next => exact List.nodup_nil
      next =>
        refine ⟨rfl, fun name known => ?_⟩
        rw [here] at known
        cases known
  | pop =>
      obtain ⟨opened, base⟩ := s
      cases opened with
      | nil => exact tidy
      | cons scope outer => exact tidy.2
  | declare v =>
      rcases act_declare bare v with
        refused | ⟨scope, outer, opened, block, inside, unknown, changed⟩
      · rw [act_declare_of_none refused]
        exact tidy
      · rw [changed]
        rw [opened] at tidy inside unknown
        exact tidy.declare block inside unknown
  | giveValue name =>
      cases found : s.lookupLocal? name with
      | none =>
          rw [act_giveValue_of_none found]
          exact tidy
      | some l =>
          obtain ⟨opened, changed, here⟩ := act_giveValue bare found
          rw [here]
          exact tidy.refilled
            (changed.forall₂ Scope.refills_refl fun _ _ gives => gives.refills)
  | use id =>
      cases inside : inFunction s.opened with
      | false =>
          rw [act_use_outside inside]
          exact tidy
      | true =>
          obtain ⟨opened, changed, here⟩ := act_use inside id
          rw [here]
          exact tidy.refilled (changed.forall₂ Scope.refills_refl fun _ _ uses => uses.refills)

theorem tidy_run (bare : Bare s.base) (tidy : Tidy s.opened) {actions : List Action}
    (fresh : ∀ action ∈ actions, action.Fresh) : Tidy (s.run actions).opened := by
  induction actions generalizing s with
  | nil => exact tidy
  | cons action actions ih =>
      obtain ⟨first, others⟩ := List.forall_mem_cons.mp fresh
      exact ih (act_base bare action ▸ bare) (tidy_act bare tidy first) others

-- For each scope whether it is a function's.
def kinds (scopes : List Scope) : List Bool := scopes.map (·.frame.isFunction)

theorem inFunction_eq (scopes : List Scope) : inFunction scopes = (kinds scopes).contains true := by
  rw [Bool.eq_iff_iff, List.contains_iff_mem]
  simp [inFunction, kinds]

theorem kinds_changed {change : Scope → Scope → Prop} {passes : Scope → Prop}
    {old new : List Scope} (changed : Changed change passes old new)
    (function : ∀ a b, change a b → b.frame.isFunction = a.frame.isFunction) :
    kinds new = kinds old := by
  induction changed with
  | here found => exact congrArg (· :: _) (function _ _ found)
  | there _ _ ih => exact congrArg (_ :: ·) ih

theorem declareLocal?_inside {scope : Scope} (inside : inFunction (scope :: X) = true)
    (v : Variable) (O : List Scope) (b : Scope) :
    (⟨scope :: X ++ O, b⟩ : ScopeStack).declareLocal? v =
      if (lookupIn (scope :: X) v.name).isSome || !scope.frame.isBlock then none
      else some ⟨scope.declare ⟨v, (scope :: X).length + O.length + 1 -
        (upTo (·.frame.isFunction) (scope :: X)).length⟩ :: X ++ O, b⟩ := by
  have all : (⟨scope :: X ++ O, b⟩ : ScopeStack).all = (scope :: X) ++ (O ++ [b]) :=
    List.append_assoc _ _ _
  have known : (⟨scope :: X ++ O, b⟩ : ScopeStack).lookupLocal? v.name =
      lookupIn (scope :: X) v.name := by
    show lookupIn (ScopeStack.all _) v.name = _
    rw [all]
    exact congrFun (congrArg View.locals (viewIn_append inside _)) v.name
  have around : (⟨scope :: X ++ O, b⟩ : ScopeStack).functionScope?.isNone = false := by
    unfold functionScope?
    rw [all, find?_append_left inside, Option.isNone_eq_false_iff]
    exact List.find?_isSome.mpr (List.any_eq_true.mp inside)
  have height : (⟨scope :: X ++ O, b⟩ : ScopeStack).functionHeight =
      (scope :: X).length + O.length + 1 -
        (upTo (·.frame.isFunction) (scope :: X)).length := by
    unfold functionHeight functionScopes
    rw [all, upTo_append inside, depth, List.length_append]
  unfold declareLocal?
  rw [known, around, height, Bool.or_false]
  rfl

-- What is done inside a function has no effect around it, and depends on nothing there but the
-- number of the scopes.
theorem act_inside (inside : inFunction X = true) (action : Action) (n : Nat) :
    ∃ X', kinds X' = action.next (kinds X) ∧ ∀ O b, O.length = n →
      (⟨X ++ O, b⟩ : ScopeStack).act action = ⟨X' ++ O, b⟩ := by
  cases action with
  | push scope => exact ⟨scope :: X, rfl, fun _ _ _ => rfl⟩
  | pop =>
      cases X with
      | nil => cases inside
      | cons scope X => exact ⟨X, rfl, fun _ _ _ => rfl⟩
  | declare v =>
      cases X with
      | nil => cases inside
      | cons scope X =>
          have tried (O : List Scope) (b : Scope) :
              (⟨scope :: X ++ O, b⟩ : ScopeStack).act (.declare v) = _ :=
            congrArg (fun found : Option ScopeStack => found.getD ⟨scope :: X ++ O, b⟩)
              (declareLocal?_inside inside v O b)
          split at tried
          next => exact ⟨scope :: X, rfl, fun O b _ => tried O b⟩
          next =>
            refine ⟨scope.declare ⟨v, (scope :: X).length + n + 1 -
              (upTo (·.frame.isFunction) (scope :: X)).length⟩ :: X, ?_, fun O b same => ?_⟩
            · exact congrArg (· :: kinds X) (scope.declare_function _)
            · rw [tried O b, same]
              rfl
  | giveValue name =>
      cases found : lookupIn X name with
      | some l =>
          obtain ⟨X', changed, there⟩ := act_giveValue_of_some found
          exact ⟨X', kinds_changed changed fun _ _ gives => gives.function, fun O b _ => there O b⟩
      | none =>
          refine ⟨X, rfl, fun O b _ => act_giveValue_of_none ?_⟩
          show (viewIn (X ++ O ++ [b])).locals name = none
          rw [List.append_assoc, viewIn_append inside]
          exact found
  | use id =>
      obtain ⟨X', changed, there⟩ := act_use_inside inside id
      exact ⟨X', kinds_changed changed fun _ _ uses => uses.function.2.trans uses.function.1.symm,
        fun O b _ => there O b⟩

theorem opens_cons {opened final : List Bool} {action : Action} {actions : List Action}
    (opening : opens opened (action :: actions) = some final) :
    (action = .pop → opened ≠ []) ∧ opens (action.next opened) actions = some final := by
  cases action with
  | pop =>
      cases opened with
      | nil => cases opening
      | cons => exact ⟨nofun, opening⟩
  | _ => exact ⟨nofun, by cases opened <;> exact opening⟩

theorem next_append {opened : List Bool} {action : Action} (stays : action = .pop → opened ≠ [])
    (outer : List Bool) : action.next (opened ++ outer) = action.next opened ++ outer := by
  cases action with
  | pop =>
      cases opened with
      | nil => exact absurd rfl (stays rfl)
      | cons => rfl
  | _ => rfl

theorem run_inside {opened final : List Bool} (here : kinds X = opened ++ [true])
    {actions : List Action} (opening : opens opened actions = some final) (n : Nat) :
    ∃ X', kinds X' = final ++ [true] ∧ ∀ O b, O.length = n →
      (⟨X ++ O, b⟩ : ScopeStack).run actions = ⟨X' ++ O, b⟩ := by
  induction actions generalizing X opened with
  | nil =>
      cases opening
      exact ⟨X, here, fun _ _ _ => rfl⟩
  | cons action actions ih =>
      obtain ⟨stays, later⟩ := opens_cons opening
      have inside : inFunction X = true := by
        rw [inFunction_eq, here, List.contains_iff_mem]
        simp
      obtain ⟨X₁, first, step⟩ := act_inside inside action n
      rw [here, next_append stays] at first
      obtain ⟨X', last, rest⟩ := ih first later
      refine ⟨X', last, fun O b same => ?_⟩
      rw [← rest O b same, ← step O b same]
      rfl

end ScopeStack

end MiLanguage
