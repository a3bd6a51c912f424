import Mathlib.Data.List.Forall2
import MiLanguage.Proofs.Naming.Actions
import MiLanguage.Proofs.Passes.Lockstep
import MiLanguage.Proofs.Statement.Accepts
import MiLanguage.Proofs.Writes.Journey

set_option autoImplicit false

namespace MiLanguage

/-- A variable of a program. -/
inductive Target where
  | inBlock (d : Definition)
  | field (id : ModuleId) (owner name : String)
  | global (id : ModuleId) (name : String)

/-- A place where a variable gets a value, and that variable. -/
structure Write where
  store : Store
  target : Target

section Latest

variable {locals more : List Definition} {name : String} {d : Definition}

@[simp] theorem latest?_nil (name : String) : latest? [] name = none := rfl

theorem latest?_append (locals more : List Definition) (name : String) :
    latest? (locals ++ more) name = (latest? more name).or (latest? locals name) := by
  rw [latest?, List.reverse_append, List.find?_append]
  rfl

theorem latest?_concat (locals : List Definition) (d : Definition) (name : String) :
    latest? (locals ++ [d]) name =
      if d.node.title = some name then some d else latest? locals name := by
  rw [latest?_append]
  unfold latest?
  by_cases same : d.node.title = some name <;> simp [same]

theorem mem_of_latest? (found : latest? locals name = some d) :
    d ∈ locals ∧ d.node.title = some name :=
  ⟨List.mem_reverse.mp (List.mem_of_find?_eq_some found), by simpa using List.find?_some found⟩

end Latest

-- One of the `writes` gives that variable a value.
def Given (writes : List Write) (target : Target) : Prop := ∃ w ∈ writes, w.target = target

-- It is noted of a variable that it has a value once it starts with one or is given one.
def Variable.Noted (writes : List Write) (target : Target) (valued : Prop) (v : Variable) : Prop :=
  v.initialized = true ↔ valued ∨ Given writes target

/-- Where a scope holds a variable, the tree has its definition, with the same words in front. -/
structure Counted (writes : List Write) (l : LocalVariable) (d : Definition) : Prop where
  words : d.node.modifierWords = l.declaration.modifiers.toList
  noted : l.declaration.Noted writes (.inBlock d) (d.node.kind ≠ .varDefinition)

-- The way through what has been read of the nodes that are open, the innermost first.
def travel : List Node → Journey
  | [] => {}
  | n :: outer => ((travel outer).enter n).along n.children

/-- A scope and the node that its statements go to. -/
structure Scope.Tallied (writes : List Write) (scope : Scope) (outer : List Scope) (n : Node)
    (around : List Node) : Prop where
  function : scope.frame.isFunction = n.kind.isFunction
  block : scope.frame.isBlock = true → inFunction (scope :: outer) = true
  base : outer = [] → scope.frame.isModule = true
  own : ∃ own, (travel (n :: around)).locals = ((travel around).enter n).locals ++ own ∧
    (∀ d ∈ own, (travel around).defined ≤ d.ordinal) ∧
    ∀ name, Option.Rel (Counted writes) (scope.frame.here name) (latest? own name)

/-- The local variables are those of the tree, and have values as it shows. -/
inductive Tallied (writes : List Write) : List Scope → List Node → Prop
  | nil : Tallied writes [] []
  | cons {scope : Scope} {outer : List Scope} {n : Node} {around : List Node} :
      scope.Tallied writes outer n around → Tallied writes outer around →
      Tallied writes (scope :: outer) (n :: around)

section Travel

variable {n : Node} {around : List Node}

theorem travel_withChildren (other : n.kind ≠ .varSetValue)
    (titled : n.kind = .createModule ∨ n.kind = .createClass → n.title?.isSome = true)
    (new : List Node) : travel (n.withChildren new :: around) = (travel (n :: around)).along new := by
  show ((travel around).enter (n.withChildren new)).along (n.children ++ new) = _
  rw [Journey.enter_withChildren _ other titled, Journey.along_append]
  rfl

theorem sound_travel (nodes : List Node) : (travel nodes).Sound := by
  induction nodes with
  | nil => exact ⟨by simp [travel], by simp [travel]⟩
  | cons n outer ih => exact (ih.enter n).along n.children

theorem onward_travel (n : Node) (outer : List Node) :
    (travel outer).Onward (travel (n :: outer)) :=
  ((travel outer).onward_enter n).trans (Journey.onward_along _ _)

end Travel

/-- The same kind of scope, with the same variables. -/
structure Scope.Still (a b : Scope) : Prop where
  title : b.frame.title = a.frame.title
  here : b.frame.here = a.frame.here

theorem Scope.still_refl (scope : Scope) : scope.Still scope := ⟨rfl, rfl⟩

theorem Frame.congr_title {a b : Frame} (title : b.title = a.title) :
    b.isFunction = a.isFunction ∧ b.isBlock = a.isBlock ∧ b.isModule = a.isModule := by
  cases a <;> cases b <;> simp_all [Frame.title, Frame.isFunction, Frame.blockKind?, Frame.isBlock,
    Frame.block?, Frame.isModule]

section Tallied

variable {writes added : List Write} {w : Write} {scope scope' : Scope}
  {outer outer' old new : List Scope} {n n' : Node} {around nodes : List Node} {name : String}
  {d : Definition} {l : LocalVariable}

theorem rel_imp {α β : Type} {R S : α → β → Prop} {a : Option α} {b : Option β}
    (related : Option.Rel R a b) (each : ∀ x y, a = some x → b = some y → R x y → S x y) :
    Option.Rel S a b := by
  cases related with
  | none => exact .none
  | some related => exact .some (each _ _ rfl rfl related)

theorem Variable.Noted.more {target : Target} {valued : Prop} {v : Variable}
    (noted : v.Noted writes target valued) (other : ∀ w ∈ added, w.target ≠ target) :
    v.Noted (writes ++ added) target valued := by
  refine Iff.trans noted (or_congr_right ⟨?_, ?_⟩)
  · rintro ⟨w, member, same⟩
    exact ⟨w, List.mem_append_left _ member, same⟩
  · rintro ⟨w, member, same⟩
    rcases List.mem_append.mp member with member | member
    · exact ⟨w, member, same⟩
    · exact absurd same (other w member)

theorem Variable.noted_given {target : Target} (valued : Prop) {v : Variable}
    (same : w.target = target) (given : v.initialized = true) :
    v.Noted (writes ++ [w]) target valued :=
  ⟨fun _ => .inr ⟨w, by simp, same⟩, fun _ => given⟩

theorem Counted.more (counted : Counted writes l d)
    (other : ∀ w ∈ added, w.target ≠ .inBlock d) : Counted (writes ++ added) l d :=
  ⟨counted.words, counted.noted.more other⟩

theorem Counted.withValue (counted : Counted writes l d) (target : w.target = .inBlock d) :
    Counted (writes ++ [w]) l.withValue d :=
  ⟨counted.words, Variable.noted_given _ target rfl⟩

theorem Tallied.more (tallied : Tallied writes old nodes)
    (other : ∀ w ∈ added, ∀ d, w.target = .inBlock d → (travel nodes).defined ≤ d.ordinal) :
    Tallied (writes ++ added) old nodes := by
  induction tallied with
  | nil => exact .nil
  | @cons scope outer n around top _ ih =>
      refine .cons ?_ (ih fun w member d same => ?_)
      · obtain ⟨own, locals, later, counted⟩ := top.own
        refine ⟨top.function, top.block, top.base, own, locals, later, fun name => ?_⟩
        refine rel_imp (counted name) fun l d _ found counted => counted.more fun w member same => ?_
        have early := (sound_travel (n :: around)).locals d (by
          rw [locals]
          exact List.mem_append_right _ (mem_of_latest? found).1)
        have late := other w member d same
        omega
      · exact Nat.le_trans (onward_travel n around).defined (other w member d same)

theorem Tallied.more_of_member (tallied : Tallied writes old nodes)
    (other : ∀ w ∈ added, ∀ d, w.target ≠ .inBlock d) : Tallied (writes ++ added) old nodes :=
  tallied.more fun w member d same => absurd same (other w member d)

theorem Scope.Tallied.reset (tallied : scope.Tallied writes outer n around) :
    ((travel around).enter n).locals =
      if scope.frame.isFunction then [] else (travel around).locals := by
  rw [tallied.function]
  rfl

theorem Tallied.lookup (tallied : Tallied writes old nodes) (name : String) :
    Option.Rel (Counted writes) (lookupIn old name) (latest? (travel nodes).locals name) := by
  induction tallied with
  | nil => exact .none
  | @cons scope outer n around top _ ih =>
      obtain ⟨own, locals, _, counted⟩ := top.own
      have here := counted name
      rw [locals, latest?_append, top.reset]
      cases function : scope.frame.isFunction with
      | true =>
          rw [lookupIn_function function, if_pos rfl, latest?_nil, Option.or_none]
          exact here
      | false =>
          rw [if_neg nofun]
          cases inside : inFunction outer with
          | true =>
              rw [lookupIn_block function inside]
              generalize scope.frame.here name = known, latest? own name = shown at here
              cases here with
              | none => exact ih
              | some here => exact .some here
          | false =>
              have outside : inFunction (scope :: outer) = false := by
                rw [inFunction_cons, function, inside]
                rfl
              have bare : scope.frame.here name = none := by
                cases frame : scope.frame with
                | block =>
                    have inside := top.block (by rw [frame]; rfl)
                    rw [outside] at inside
                    cases inside
                | _ => rfl
              rw [bare] at here
              rw [lookupIn_outside inside] at ih
              rw [lookupIn_outside outside]
              generalize latest? own name = shown at here
              cases here
              exact ih

theorem Tallied.giveValue (tallied : Tallied writes old nodes)
    (changed : Changed (Scope.GivesValue name)
      (fun a => a.frame.isFunction = false ∧ a.frame.here name = none) old new)
    (found : latest? (travel nodes).locals name = some d) (target : w.target = .inBlock d) :
    Tallied (writes ++ [w]) new nodes := by
  have others : ∀ {other : String} {e : Definition} {own : List Definition},
      latest? own other = some e → other ≠ name → ∀ u ∈ [w], u.target ≠ .inBlock e := by
    intro other e own shown different u member same
    rw [List.mem_singleton.mp member, target] at same
    cases same
    have titles := (mem_of_latest? shown).2.symm.trans (mem_of_latest? found).2
    exact different (Option.some.inj titles)
  induction changed generalizing nodes with
  | @here a b outer gives =>
      cases tallied with
      | @cons _ _ n around top rest =>
          obtain ⟨own, locals, later, counted⟩ := top.own
          have here := counted name
          have same : latest? own name = some d := by
            rw [locals, latest?_append] at found
            obtain ⟨_, _, _, known, _⟩ := gives
            generalize a.frame.here name = held, latest? own name = shown at here found known
            cases here with
            | none => cases known
            | some => exact found
          refine .cons ⟨?_, ?_, ?_, own, locals, later, fun other => ?_⟩ (rest.more ?_)
          · exact gives.function.trans top.function
          · intro _
            rw [inFunction_cons, gives.function]
            refine top.block ?_
            obtain ⟨kind, block, frame, _⟩ := gives
            rw [frame]
            rfl
          · intro unnamed
            have isModule := top.base unnamed
            obtain ⟨kind, block, frame, _⟩ := gives
            rw [frame] at isModule
            cases isModule
          · rw [gives.here]
            dsimp only
            split
            next equal =>
              subst equal
              rw [same] at here ⊢
              generalize a.frame.here other = held at here
              cases here with
              | some here => exact .some (here.withValue target)
            next different =>
              exact rel_imp (counted other) fun _ _ _ shown counted =>
                counted.more (others shown different)
          · intro u member e equal
            rw [List.mem_singleton.mp member, target] at equal
            cases equal
            exact later d (mem_of_latest? same).1
  | @there a outer outer' passed changed ih =>
      cases tallied with
      | @cons _ _ n around top rest =>
          obtain ⟨own, locals, later, counted⟩ := top.own
          have undeclared : latest? own name = Option.none := by
            have here := counted name
            rw [passed.2] at here
            generalize latest? own name = shown at here
            cases here
            rfl
          have below : latest? (travel around).locals name = some d := by
            rw [locals, latest?_append, undeclared, Option.none_or, top.reset, if_neg (by simp [passed.1])]
              at found
            exact found
          have rest := ih rest below
          refine .cons ⟨top.function, ?_, ?_, own, locals, later, fun other => ?_⟩ rest
          · intro block
            rw [inFunction_cons, inFunction_congr (changed.forall₂ (fun _ => rfl) fun _ _ gives =>
              gives.function)]
            exact top.block block
          · rintro rfl
            cases changed
          · refine rel_imp (counted other) fun _ _ _ shown counted => counted.more (others shown ?_)
            rintro rfl
            rw [undeclared] at shown
            cases shown

theorem Tallied.lookup_isSome (tallied : Tallied writes old nodes)
    (found : latest? (travel nodes).locals name = some d) :
    ∃ l, lookupIn old name = some l ∧ Counted writes l d := by
  have related := tallied.lookup name
  rw [found] at related
  generalize held : lookupIn old name = known at related
  cases related with
  | some counted => exact ⟨_, rfl, counted⟩

theorem Tallied.latest_isSome (tallied : Tallied writes old nodes)
    (held : lookupIn old name = some l) :
    ∃ d, latest? (travel nodes).locals name = some d ∧ Counted writes l d := by
  have related := tallied.lookup name
  rw [held] at related
  generalize shown : latest? _ name = found at related
  cases related with
  | some counted => exact ⟨_, rfl, counted⟩

theorem Tallied.latest_none (tallied : Tallied writes old nodes) (unknown : lookupIn old name = none) :
    latest? (travel nodes).locals name = none := by
  have related := tallied.lookup name
  rw [unknown] at related
  generalize latest? _ name = shown at related
  cases related
  rfl

theorem Tallied.isModule {s : ScopeStack} (tallied : Tallied writes s.all nodes) :
    s.base.frame.isModule = true := by
  suffices last : ∀ {front scopes : List Scope} {nodes : List Node}, Tallied writes scopes nodes →
      scopes = front ++ [s.base] → s.base.frame.isModule = true from last tallied rfl
  intro front scopes nodes tallied
  induction tallied generalizing front with
  | nil => simp
  | @cons scope outer n around top _ ih =>
      intro same
      cases front with
      | nil =>
          cases same
          exact top.base rfl
      | cons _ front => exact ih (List.cons.inj same).2

theorem Tallied.bare {s : ScopeStack} (tallied : Tallied writes s.all nodes) :
    ScopeStack.Bare s.base :=
  isBlock_of_isModule tallied.isModule

theorem Changed.append {change : Scope → Scope → Prop} {passes : Scope → Prop}
    (changed : Changed change passes old new) (below : List Scope) :
    Changed change passes (old ++ below) (new ++ below) := by
  induction changed with
  | here found => exact .here found
  | there passed _ ih => exact .there passed ih

theorem ScopeStack.changed_modifyLocal {s : ScopeStack} (bare : Bare s.base)
    (found : lookupIn s.all name = some l) :
    Changed (Scope.GivesValue name) (fun a => a.frame.isFunction = false ∧ a.frame.here name = none)
      s.all (s.modifyLocal name LocalVariable.withValue).all := by
  have inside : lookupIn s.opened name = some l := by
    rw [← found]
    exact (congrFun (congrArg View.locals (viewIn_concat bare s.opened)) name).symm
  obtain ⟨opened, changed, act⟩ := act_giveValue_of_some inside
  have same := act [] s.base
  rw [List.append_nil, List.append_nil] at same
  have all : (s.modifyLocal name LocalVariable.withValue).all = opened ++ [s.base] :=
    congrArg ScopeStack.all same
  rw [all]
  exact changed.append [s.base]

theorem Scope.Tallied.still (tallied : scope.Tallied writes outer n around)
    (still : scope.Still scope') (outers : List.Forall₂ Scope.Still outer outer') :
    scope'.Tallied writes outer' n around := by
  obtain ⟨function, block, isModule⟩ := Frame.congr_title still.title
  refine ⟨function.trans tallied.function, fun inner => ?_, fun last => ?_, ?_⟩
  · have around := inFunction_congr (outers.imp fun _ _ still => (Frame.congr_title still.title).1)
    rw [inFunction_cons, function, around]
    exact tallied.block (block.symm.trans inner)
  · subst last
    cases outers
    exact isModule.trans (tallied.base rfl)
  · rw [still.here]
    exact tallied.own

theorem Tallied.still (tallied : Tallied writes old nodes)
    (still : List.Forall₂ Scope.Still old new) : Tallied writes new nodes := by
  induction tallied generalizing new with
  | nil =>
      cases still
      exact .nil
  | cons top _ ih =>
      cases still with
      | cons head tail => exact .cons (top.still head tail) (ih tail)

theorem Scope.Tallied.grow (tallied : scope.Tallied writes outer n around) (kind : n'.kind = n.kind)
    (same : (travel (n' :: around)).locals = (travel (n :: around)).locals) :
    scope.Tallied writes outer n' around := by
  refine ⟨by rw [kind]; exact tallied.function, tallied.block, tallied.base, ?_⟩
  have entered : ((travel around).enter n').locals = ((travel around).enter n).locals := by
    unfold Journey.enter
    rw [kind]
  rw [same, entered]
  exact tallied.own

theorem rel_declared {held held' : String → Option LocalVariable} {own : List Definition}
    (counted : ∀ name, Option.Rel (Counted writes) (held name) (latest? own name))
    (titled : d.node.title = some name) (here : Counted writes l d)
    (declared : ∀ other, held' other = if other = name then some l else held other)
    (other : String) : Option.Rel (Counted writes) (held' other) (latest? (own ++ [d]) other) := by
  rw [declared, latest?_concat, titled]
  by_cases same : other = name
  · rw [if_pos same, if_pos (by rw [same])]
    exact .some here
  · rw [if_neg same, if_neg fun equal => same (Option.some.inj equal).symm]
    exact counted other

theorem Scope.Tallied.declares (tallied : scope.Tallied writes outer n around)
    (title : scope'.frame.title = scope.frame.title)
    (declared : ∀ other, scope'.frame.here other =
      if other = name then some l else scope.frame.here other)
    (titled : d.node.title = some name) (here : Counted writes l d) (kind : n'.kind = n.kind)
    (locals : (travel (n' :: around)).locals = (travel (n :: around)).locals ++ [d])
    (later : (travel around).defined ≤ d.ordinal) : scope'.Tallied writes outer n' around := by
  obtain ⟨function, block, isModule⟩ := Frame.congr_title title
  obtain ⟨own, own_locals, own_later, counted⟩ := tallied.own
  refine ⟨?_, fun inner => ?_, fun last => isModule.trans (tallied.base last), own ++ [d], ?_, ?_,
    rel_declared counted titled here declared⟩
  · rw [kind, function]
    exact tallied.function
  · rw [inFunction_cons, function]
    exact tallied.block (block.symm.trans inner)
  · have entered : ((travel around).enter n').locals = ((travel around).enter n).locals := by
      unfold Journey.enter
      rw [kind]
    rw [locals, own_locals, entered, List.append_assoc]
  · intro e member
    rcases List.mem_append.mp member with member | member
    · exact own_later e member
    · rw [List.mem_singleton.mp member]
      exact later

theorem Tallied.opens (tallied : Tallied writes old nodes)
    (function : scope.frame.isFunction = n.kind.isFunction)
    (block : scope.frame.isBlock = true → inFunction (scope :: old) = true) (deep : old ≠ [])
    (fresh : ∀ name, scope.frame.here name = none)
    (same : (travel (n :: nodes)).locals = ((travel nodes).enter n).locals) :
    Tallied writes (scope :: old) (n :: nodes) := by
  refine .cons ⟨function, block, fun last => absurd last deep, [], by rw [same, List.append_nil],
    nofun, fun name => ?_⟩ tallied
  rw [fresh name]
  exact .none

end Tallied

end MiLanguage
