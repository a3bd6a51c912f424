import MiLanguage.Proofs.Naming.Growing
import MiLanguage.Proofs.Writes.Tally

set_option autoImplicit false

namespace MiLanguage

-- The node is the step that a loop over a range implies: its operator stands for an arrow.
def Node.StepsRange (tokens : List Token) (n : Node) : Prop :=
  ∃ arrow ∈ tokens, arrow.kind = .arrow ∧
    (n.child? .operator).bind Node.token = some (.synthetic .increment "++" arrow)

namespace ModuleTree

variable {t : ModuleTree}

-- What is declared of a field or a global.
def member? (t : ModuleTree) : Target → Option Variable
  | .inBlock _ => none
  | .field id owner name => (t.class? id owner).bind (·.fields.find? name)
  | .global id name => (t.get id).members.globals.find? name

def declaredWith (t : ModuleTree) (m : Modifier) : Target → Bool
  | .inBlock d => d.node.modifierWords.contains m
  | target => (t.member? target).any (·.modifiers.contains m)

-- A variable that is defined with a value, or a parameter.
def startsValued (t : ModuleTree) : Target → Bool
  | .inBlock d => d.node.kind ≠ .varDefinition
  | target => (t.member? target).any (·.value.isSome)

theorem declared_of_member {target : Target} {v : Variable} (found : t.member? target = some v) :
    (∀ m, t.declaredWith m target = v.modifiers.contains m) ∧
      t.startsValued target = v.value.isSome := by
  cases target with
  | inBlock => cases found
  | field | global =>
      unfold declaredWith startsValued
      simp only [found]
      exact ⟨fun _ => rfl, rfl⟩

theorem member?_field {id : ModuleId} {owner name : String} {c : ClassDeclaration} {v : Variable}
    (there : t.class? id owner = some c) (found : c.fields.find? name = some v) :
    t.member? (.field id owner name) = some v :=
  Option.bind_eq_some_iff.mpr ⟨c, there, found⟩

theorem member?_global {id : ModuleId} {name : String} {v : Variable}
    (found : (t.get id).members.globals.find? name = some v) :
    t.member? (.global id name) = some v :=
  found

/-- The variable that a value goes to: the one defined last under the name or, where there is none, a
field of the class around or a global, by its full name. -/
inductive Targets (t : ModuleTree) (store : Store) : Target → Prop
  | inBlock {name : String} {d : Definition} :
      store.node.title = some name → latest? store.locals name = some d → Targets t store (.inBlock d)
  | field {id : ModuleId} {owner name : String} {c : ClassDeclaration} {v : Variable} :
      (let home := t.qualify id owner; store.node.title = some s!"{home}.{name}") →
      (let home := t.qualify id owner; latest? store.locals s!"{home}.{name}" = none) →
      store.sight.owner = some c.label → t.pathSegments id = store.sight.path →
      t.class? id owner = some c → c.fields.find? name = some v →
      Targets t store (.field id owner name)
  | global {id : ModuleId} {name : String} {v : Variable} :
      store.node.title = some (t.qualify id name) →
      (t.Named → latest? store.locals (t.qualify id name) = none) →
      (t.get id).members.globals.find? name = some v → Targets t store (.global id name)

end ModuleTree

/-- When a variable may get a value that `earlier` writes may have given one to. The step of a range
is checked for nothing but `const`. -/
structure Write.Allowed (t : ModuleTree) (tokens : List Token) (earlier : List Write) (w : Write) :
    Prop where
  constant : t.declaredWith .const w.target = false
  once : t.declaredWith .mut w.target = false → ¬w.store.node.StepsRange tokens →
    t.startsValued w.target = false ∧ ¬Given earlier w.target

/-- Each of the writes goes to a variable that it may go to. -/
structure Lawful (t : ModuleTree) (tokens : List Token) (writes : List Write) : Prop where
  targets : ∀ w ∈ writes, t.Targets w.store w.target
  allowed : ∀ earlier w later, writes = earlier ++ w :: later → w.Allowed t tokens earlier

section Lawful

variable {t : ModuleTree} {tokens : List Token} {writes : List Write} {w : Write}

theorem Lawful.concat (lawful : Lawful t tokens writes) (targets : t.Targets w.store w.target)
    (allowed : w.Allowed t tokens writes) : Lawful t tokens (writes ++ [w]) where
  targets u member := by
    rcases List.mem_append.mp member with member | member
    · exact lawful.targets u member
    · rw [List.mem_singleton.mp member]
      exact targets
  allowed earlier u later whole := by
    rcases List.eq_nil_or_concat' later with rfl | ⟨front, last, rfl⟩
    · obtain ⟨rfl, same⟩ := List.append_inj' whole rfl
      cases same
      exact allowed
    · rw [← List.cons_append, ← List.append_assoc] at whole
      exact lawful.allowed earlier u front (List.append_inj' whole rfl).1

end Lawful

def Scope.renewClass? (f : ClassDeclaration → ClassDeclaration) (scope : Scope) : Option Scope :=
  match scope.frame with
  | .class id c => some { scope with frame := .class id (f c) }
  | _ => none

namespace ScopeStack

-- A class frame becomes that of a changed class.
def RenewsClass (f : ClassDeclaration → ClassDeclaration) (a b : Scope) : Prop :=
  ∃ id c, a.frame = .class id c ∧ b = { a with frame := .class id (f c) }

theorem exists_renewsClass {X : List Scope} {id : ModuleId} {c : ClassDeclaration}
    (found : X.findSome? (·.frame.class?) = some (id, c)) (f : ClassDeclaration → ClassDeclaration) :
    ∃ X', modifyFirst (Scope.renewClass? f) X = some X' ∧
      Changed (RenewsClass f) (fun _ => True) X X' ∧
      X'.findSome? (·.frame.class?) = some (id, f c) := by
  induction X with
  | nil => cases found
  | cons scope X ih =>
      unfold modifyFirst
      cases frame : scope.frame with
      | «class» id' c' =>
          rw [List.findSome?_cons, frame] at found
          cases found
          refine ⟨{ scope with frame := .class id (f c) } :: X, ?_, .here ⟨id, c, frame, rfl⟩, rfl⟩
          rw [Scope.renewClass?, frame]
      | _ =>
          rw [List.findSome?_cons, frame] at found
          obtain ⟨X', later, changed, around⟩ := ih found
          refine ⟨scope :: X', ?_, .there trivial changed, ?_⟩
          · rw [Scope.renewClass?, frame, later]
            rfl
          · rw [List.findSome?_cons, frame]
            exact around

theorem changed_modifyClass? {s : ScopeStack} {id : ModuleId} {c : ClassDeclaration}
    (isModule : s.base.frame.isModule = true) (around : s.class? = some (id, c))
    (f : ClassDeclaration → ClassDeclaration) :
    ∃ new, s.modifyClass? f = some new ∧ Changed (RenewsClass f) (fun _ => True) s.all new.all ∧
      new.class? = some (id, f c) := by
  have bare : s.base.frame.class? = none := by
    cases frame : s.base.frame <;> first | rfl | (rw [frame] at isModule; cases isModule)
  have concat : ∀ X : List Scope, (X ++ [s.base]).findSome? (·.frame.class?) =
      X.findSome? (·.frame.class?) := by
    intro X
    rw [List.findSome?_append, List.findSome?_cons, bare]
    simp
  have inside : s.opened.findSome? (·.frame.class?) = some (id, c) := (concat _).symm.trans around
  obtain ⟨opened, made, changed, around'⟩ := exists_renewsClass inside f
  refine ⟨{ s with opened }, ?_, changed.append [s.base], (concat _).trans around'⟩
  show (modifyFirst (Scope.renewClass? f) s.opened).map _ = _
  rw [made]
  rfl

end ScopeStack

namespace Environment

variable {env after : Environment} {t : ModuleTree} {tokens : List Token} {writes : List Write}
  {nodes : List Node} {n : Node} {implied : Bool}

/-- Which variables have values is as the writes so far show it. -/
structure Notes (env : Environment) (writes : List Write) (nodes : List Node) : Prop where
  locals : Tallied writes env.scopes.all nodes
  fields : ∀ id c, env.scopes.class? = some (id, c) → ∀ name v, c.fields.find? name = some v →
    v.Noted writes (.field id c.name name) (v.value.isSome = true)
  globals : ∀ id name v, (env.modules.get id).members.globals.find? name = some v →
    v.Noted writes (.global id name) (v.value.isSome = true)

theorem class?_of_frames {scopes scopes' : ScopeStack}
    (frames : List.Forall₂ (fun a b : Scope => b.frame.class? = a.frame.class?) scopes.all scopes'.all) :
    scopes'.class? = scopes.class? := by
  unfold ScopeStack.class?
  generalize scopes.all = old, scopes'.all = new at frames
  induction frames with
  | nil => rfl
  | cons head _ ih => rw [List.findSome?_cons, List.findSome?_cons, head, ih]

theorem Notes.givesLocal {name : String} {d : Definition} {w : Write}
    (notes : env.Notes writes nodes) (found : latest? (travel nodes).locals name = some d)
    (target : w.target = .inBlock d) :
    ({ env with scopes := env.scopes.modifyLocal name LocalVariable.withValue } : Environment).Notes
      (writes ++ [w]) nodes := by
  obtain ⟨l, held, _⟩ := notes.locals.lookup_isSome found
  have changed := ScopeStack.changed_modifyLocal notes.locals.bare held
  have others : ∀ u ∈ [w], ∀ other, (∀ e, other ≠ .inBlock e) → u.target ≠ other := by
    intro u member other distinct same
    rw [List.mem_singleton.mp member, target] at same
    exact distinct d same.symm
  have classes : (env.scopes.modifyLocal name LocalVariable.withValue).class? = env.scopes.class? :=
    class?_of_frames (changed.forall₂ (fun _ => rfl) fun _ _ gives => by
      obtain ⟨_, _, frame, _, rfl⟩ := gives
      rw [frame]
      rfl)
  refine ⟨notes.locals.giveValue changed found target, ?_, ?_⟩
  · intro id c around field v known
    rw [show _ = env.scopes.class? from classes] at around
    exact (notes.fields id c around field v known).more fun u member =>
      others u member _ fun _ => nofun
  · exact fun id global v known => (notes.globals id global v known).more fun u member =>
      others u member _ fun _ => nofun

theorem Notes.givesGlobal {id : ModuleId} {name : String} {w : Write}
    (notes : env.Notes writes nodes) (target : w.target = .global id name) :
    ({ env with
      modules := env.modules.modifyVariable id name ({ · with initialized := true }) } :
        Environment).Notes (writes ++ [w]) nodes := by
  have others : ∀ u ∈ [w], ∀ other, other ≠ .global id name → u.target ≠ other := by
    intro u member other distinct same
    rw [List.mem_singleton.mp member, target] at same
    exact distinct same.symm
  refine ⟨notes.locals.more_of_member fun u member d => others u member _ nofun, ?_, ?_⟩
  · exact fun id c around field v known => (notes.fields id c around field v known).more fun u member =>
      others u member _ nofun
  · intro id' other v known
    rw [ModuleTree.modifyVariable, ModuleTree.members_modifyMembers] at known
    split at known
    next here =>
      obtain ⟨rfl, _⟩ := here
      rw [SymbolTable.find?_modify] at known
      split at known
      next same =>
        obtain ⟨v, there, rfl⟩ := Option.map_eq_some_iff.mp known
        exact Variable.noted_given _ (by rw [target, same]) rfl
      next distinct =>
        refine (notes.globals id' other v known).more fun u member => others u member _ ?_
        intro same
        cases same
        exact distinct rfl
    next outside =>
      refine (notes.globals id' other v known).more fun u member => others u member _ ?_
      intro same
      cases same
      exact outside ⟨rfl, ModuleTree.inside_of_global known⟩

theorem Notes.givesField {id : ModuleId} {c : ClassDeclaration} {name : String} {w : Write}
    (notes : env.Notes writes nodes) (around : env.scopes.class? = some (id, c))
    (target : w.target = .field id c.name name) :
    ∃ scopes, env.scopes.modifyClass? (fun c =>
        { c with fields := c.fields.modify name ({ · with initialized := true }) }) = some scopes ∧
      ({ env with scopes } : Environment).Notes (writes ++ [w]) nodes := by
  have others : ∀ u ∈ [w], ∀ other, other ≠ .field id c.name name → u.target ≠ other := by
    intro u member other distinct same
    rw [List.mem_singleton.mp member, target] at same
    exact distinct same.symm
  obtain ⟨scopes, made, changed, around'⟩ := ScopeStack.changed_modifyClass? notes.locals.isModule
    around fun c => { c with fields := c.fields.modify name ({ · with initialized := true }) }
  refine ⟨scopes, made, ?_, ?_, ?_⟩
  · refine (notes.locals.more_of_member fun u member d => others u member _ nofun).still ?_
    refine changed.forall₂ Scope.still_refl ?_
    rintro a b ⟨id, c, frame, rfl⟩
    exact ⟨by rw [frame]; rfl, by rw [frame]; rfl⟩
  · intro id' c' same other v known
    rw [show scopes.class? = _ from around'] at same
    cases same
    rw [SymbolTable.find?_modify] at known
    split at known
    next same =>
      obtain ⟨v, there, rfl⟩ := Option.map_eq_some_iff.mp known
      exact Variable.noted_given _ (by rw [target, same]) rfl
    next distinct =>
      refine (notes.fields id c around other v known).more fun u member => others u member _ ?_
      intro same
      cases same
      exact distinct rfl
  · exact fun id global v known => (notes.globals id global v known).more fun u member =>
      others u member _ nofun

/-- A variable in sight, with what is noted of it. -/
inductive Resolves (env : Environment) (place : Token) : ResolvedVariable → Prop
  | inBlock {l : LocalVariable} :
      env.scopes.lookupLocal? place.lexeme = some l →
      Resolves env place ⟨place.lexeme, place.lexeme, l.declaration.type, l.declaration.modifiers,
        l.declaration.initialized, .inBlock⟩
  | field {id : ModuleId} {c : ClassDeclaration} {v : Variable} :
      env.scopes.class? = some (id, c) → c.fields.find? place.lexeme = some v →
      Resolves env place
        ⟨place.lexeme, (let home := env.modules.qualify id c.name; s!"{home}.{place.lexeme}"), v.type,
          v.modifiers, v.initialized, .inClass⟩
  | global {id : ModuleId} {v : Variable} :
      (isDotted place.lexeme = false → env.scopes.lookupLocal? place.lexeme = none) →
      env.lookup Members.globals place.lexeme = .ok (id, v) →
      Resolves env place ⟨shortName place.lexeme, env.modules.qualify id (shortName place.lexeme),
        v.type, v.modifiers, v.initialized, .inModule id⟩

theorem resolveVariable_resolves {place : Token} {v : ResolvedVariable}
    (read : env.resolveVariable place = .ok v) : env.Resolves place v := by
  unfold resolveVariable at read
  dsimp only at read
  split at read
  next found near =>
    cases read
    split at near
    next => cases near
    next =>
      simp only [Option.orElse_eq_orElse, Option.orElse_eq_or, Option.or_eq_some_iff] at near
      rcases near with near | ⟨_, near⟩
      · obtain ⟨l, there, rfl⟩ := Option.map_eq_some_iff.mp near
        exact .inBlock there
      · unfold fieldVariable? at near
        simp only [Option.bind_eq_bind, Option.bind_eq_some_iff, Option.some.injEq] at near
        obtain ⟨⟨id, c⟩, around, field, found, rfl⟩ := near
        exact .field around found
  next near =>
    simp only [Checked.bind_eq_ok] at read
    obtain ⟨⟨id, w⟩, found, _, _, same⟩ := read
    cases same
    refine .global (fun plain => ?_) (lookupOrBlame_eq_ok found)
    rw [if_neg (by simp [plain])] at near
    have both : env.scopes.lookupLocal? place.lexeme = none ∧
        env.fieldVariable? place.lexeme = none := by simpa [localVariable?] using near
    exact both.1

section Assigns

variable {v : ResolvedVariable}

theorem allowed_of_canAssign {w : Write} (constant : v.modifiers.isConst = false)
    (assignable : w.store.node.StepsRange tokens ∨ v.canAssign = true)
    (words : ∀ m, t.declaredWith m w.target = v.modifiers.contains m) {valued : Prop}
    (starts : t.startsValued w.target = true → valued)
    (noted : v.initialized = true ↔ valued ∨ Given writes w.target) :
    w.Allowed t tokens writes := by
  refine ⟨(words _).trans constant, fun immutable range => ?_⟩
  have assignable := assignable.resolve_left range
  have immutable : v.modifiers.isMutable = false := (words _).symm.trans immutable
  simp only [ResolvedVariable.canAssign, Modifiers.canAssign, constant, immutable, Bool.not_false,
    Bool.true_and, Bool.false_or, Bool.not_eq_true'] at assignable
  rw [assignable] at noted
  refine ⟨?_, fun given => absurd (noted.mpr (.inr given)) nofun⟩
  by_contra valued
  exact absurd (noted.mpr (.inl (starts (by simpa using valued)))) nofun

theorem Notes.assigns (notes : env.Notes writes nodes) (sees : env.Sees t true (travel nodes).sight)
    (assigns : env.Assigns implied after n) (steps : implied = true → n.StepsRange tokens) :
    ∃ target, (let w : Write := ⟨⟨(travel nodes).sight, (travel nodes).locals, n⟩, target⟩
      t.Targets w.store target ∧ w.Allowed t tokens writes ∧ after.Notes (writes ++ [w]) nodes) ∧
      ∀ id owner name, target = .field id owner name →
        ∃ c, env.scopes.class? = some (id, c) ∧ c.name = owner := by
  obtain @⟨e, v, place, op, line, valueLine, resolved, constant, assignable, _, _⟩ := assigns
  have assignable := assignable.imp_left steps
  cases resolveVariable_resolves resolved with
  | @inBlock l held =>
      obtain ⟨d, found, counted⟩ := notes.locals.latest_isSome held
      refine ⟨.inBlock d, ⟨.inBlock rfl found, ?_, notes.givesLocal found rfl⟩, nofun⟩
      refine allowed_of_canAssign constant assignable (fun m => ?_) (fun valued => ?_) counted.noted
      · show d.node.modifierWords.contains m = _
        rw [counted.words]
        rfl
      · exact of_decide_eq_true valued
  | @field id c v around found =>
      obtain ⟨path, _, d, there, offers, _⟩ := sees.stands.class id c around
      obtain ⟨_, found'⟩ := offers.fields _ _ found
      obtain ⟨words, starts⟩ := ModuleTree.declared_of_member (ModuleTree.member?_field there found')
      have qualified := sees.offers.qualify (sees.inside id c around) c.name
      have gives (store : Store) :=
        notes.givesField (w := ⟨store, .field id c.name place.lexeme⟩) around rfl
      refine ⟨.field id c.name place.lexeme, ⟨.field ?_ ?_ ?_ path there found', ?_, ?_⟩, ?_⟩
      · rw [qualified]
        rfl
      · exact notes.locals.latest_none (sees.stands.unknown (sees.dotted (isDotted_qualified _ _)))
      · exact (sees.owner around).trans (congrArg some offers.label.symm)
      · exact allowed_of_canAssign constant assignable words (fun valued => starts.symm.trans valued)
          (notes.fields id c around _ v found)
      · obtain ⟨scopes, made, given⟩ := gives _
        unfold markInitialized
        dsimp only
        rw [made]
        exact given
      · rintro _ _ _ same
        cases same
        exact ⟨c, around, rfl⟩
  | @global id v hidden found =>
      obtain ⟨here, _⟩ := lookup_eq_ok found
      obtain ⟨_, there⟩ := (sees.offers.members id).globals _ _ here
      obtain ⟨words, starts⟩ := ModuleTree.declared_of_member (ModuleTree.member?_global there)
      have qualified := sees.offers.qualify (ModuleTree.inside_of_global here) (shortName place.lexeme)
      refine ⟨.global id (shortName place.lexeme), ⟨.global ?_ (fun named => ?_) there, ?_,
        notes.givesGlobal rfl⟩, nofun⟩
      · rw [qualified]
        rfl
      · rw [qualified]
        exact notes.locals.latest_none (sees.stands.unknown (sees.hidden_global hidden found named))
      · exact allowed_of_canAssign constant assignable words (fun valued => starts.symm.trans valued)
          (notes.globals id _ v here)

end Assigns

end Environment

end MiLanguage
