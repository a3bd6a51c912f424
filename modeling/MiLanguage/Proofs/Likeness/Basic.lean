import Mathlib.Data.List.Forall2
import MiLanguage.Proofs.Checked
import MiLanguage.Proofs.Naming.Environment
import MiLanguage.Proofs.Overload

set_option autoImplicit false

namespace MiLanguage

section Results

variable {ε α β γ δ : Type} {exact : Bool} {R : α → β → Prop} {S : γ → δ → Prop}

/-- Two computations come out alike: with results that are related, or both with a fault, which is
the same one if faults have to be `exact`. -/
inductive Alike (exact : Bool) (R : α → β → Prop) : Except ε α → Except ε β → Prop
  | ok {a : α} {b : β} : R a b → Alike exact R (.ok a) (.ok b)
  | error {e f : ε} : (exact = true → f = e) → Alike exact R (.error e) (.error f)

namespace Alike

theorem refl {R : α → α → Prop} (related : ∀ a, R a a) (x : Except ε α) : Alike exact R x x := by
  cases x with
  | ok a => exact .ok (related a)
  | error e => exact .error fun _ => rfl

theorem of_eq {x y : Except ε α} (same : y = x) : Alike exact Eq x y := by
  subst same
  exact .refl (fun _ => rfl) _

theorem bind {x : Except ε α} {y : Except ε β} {f : α → Except ε γ} {g : β → Except ε δ}
    (first : Alike exact R x y) (rest : ∀ a b, R a b → Alike exact S (f a) (g b)) :
    Alike exact S (x >>= f) (y >>= g) := by
  cases first with
  | ok related => exact rest _ _ related
  | error same => exact .error same

-- The first part is the same computation on both sides, or comes out the same.
theorem andThen {x y : Except ε α} {f : α → Except ε γ} {g : α → Except ε δ}
    (first : Alike exact Eq x y) (rest : ∀ a, Alike exact S (f a) (g a)) :
    Alike exact S (x >>= f) (y >>= g) :=
  first.bind fun a _ same => same ▸ rest a

theorem after (x : Except ε α) {f : α → Except ε γ} {g : α → Except ε δ}
    (rest : ∀ a, Alike exact S (f a) (g a)) : Alike exact S (x >>= f) (x >>= g) :=
  andThen (.of_eq rfl) rest

theorem mono {T : α → β → Prop} {x : Except ε α} {y : Except ε β} (alike : Alike exact R x y)
    (weaker : ∀ a b, R a b → T a b) : Alike exact T x y := by
  cases alike with
  | ok related => exact .ok (weaker _ _ related)
  | error same => exact .error same

theorem of_option {a : Option α} {b : Option β} (related : Option.Rel R a b) (e : ε) :
    Alike exact R (a.elim (.error e) .ok) (b.elim (.error e) .ok) := by
  cases related with
  | none => exact .error fun _ => rfl
  | some related => exact .ok related

theorem isOk {x : Except ε α} {y : Except ε β} (alike : Alike exact R x y) : y.isOk = x.isOk := by
  cases alike <;> rfl

end Alike

end Results

namespace Overload

variable {candidates others : List FunctionDefinition}

theorem map_select (candidates : List FunctionDefinition) (args : List Datatype) :
    (select candidates args).map FunctionDefinition.bare =
      select (candidates.map FunctionDefinition.bare) args := by
  rw [select, select, decidingTier_bare]
  generalize decidingTier candidates args = tier
  cases tier with
  | nil => rfl
  | cons first others =>
      cases others with
      | nil => rfl
      | cons => simp [single, Except.map]

-- Neither the order of the candidates nor any body matters to a choice.
theorem select_of_bare_perm
    (perm : (others.map FunctionDefinition.bare).Perm (candidates.map FunctionDefinition.bare))
    (args : List Datatype) :
    (select others args).map FunctionDefinition.bare =
      (select candidates args).map FunctionDefinition.bare := by
  rw [map_select, map_select, select_perm perm]

end Overload

/-- What two analyses of nearly the same program may differ in. Faults are the same if they have to
be `exact`; if not, the modules in use may come in any order and warnings may be missing. Declared
variables, the overloads of a name and constructors are related by the owner they are declared in;
if `marked`, variables may be marked as initialized in one run only.
Nodes may differ in one of the open scopes; where that is in a function, the function is one of
`bodies`, and what is stored as its body may differ. -/
structure Slack where
  exact : Bool
  marked : Bool
  vars : Owner → String → Variable → Variable → Prop
  overloads : Owner → String → List FunctionDefinition → List FunctionDefinition → Prop
  constructors : Owner → FunctionDefinition → FunctionDefinition → Prop
  nodes : Node → Node → Prop
  bodies : BodyOwner → Prop
  logs : DiagnosticLog → DiagnosticLog → Prop
  vars_same {o : Owner} {name : String} {v w : Variable} :
    vars o name v w →
      w = { v with initialized := w.initialized } ∧ w.canAssign = v.canAssign ∧
        (marked = false → w.initialized = v.initialized)
  vars_marked {o : Owner} {name : String} {v w : Variable} :
    vars o name v w →
      vars o name { v with initialized := true } { w with initialized := true }
  overloads_none (o : Owner) (name : String) : overloads o name [] []
  overloads_perm {o : Owner} {name : String} {fs gs : List FunctionDefinition} :
    overloads o name fs gs →
      (gs.map FunctionDefinition.bare).Perm (fs.map FunctionDefinition.bare)
  overloads_filled {o : Owner} {name : String} {types : List Datatype} {m n : Node}
    {fs gs : List FunctionDefinition} :
    overloads o name fs gs → n = m ∨ nodes m n ∧ bodies (.function o name types) →
      overloads o name
        (FunctionTable.modifyFirst (·.paramTypes = types) ({ · with body := .tree m }) fs)
        (FunctionTable.modifyFirst (·.paramTypes = types) ({ · with body := .tree n }) gs)
  constructors_filled {id : ModuleId} {c : String} {m n : Node} {f g : FunctionDefinition} :
    constructors (.inClass id c) f g → n = m ∨ nodes m n ∧ bodies (.constructor id c) →
      constructors (.inClass id c) { f with body := .tree m } { g with body := .tree n }
  nodes_push {m n : Node} (child : Node) : nodes m n → nodes (m.push child) (n.push child)
  nodes_nest {m n : Node} (around : Node) : nodes m n → nodes (around.push m) (around.push n)
  logs_report {l k : DiagnosticLog} (d : Diagnostic) : logs l k → logs (l.report d) (k.report d)
  logs_error {l k : DiagnosticLog} {d e : Diagnostic} :
    exact = false → logs l k → d.severity = .error → e.severity = .error →
      logs (l.report d) (k.report e)
  logs_warning {l k : DiagnosticLog} {d : Diagnostic} :
    exact = false → logs l k → d.severity = .warning → logs (l.report d) k ∧ logs l (k.report d)

/-- What is declared may be the same. -/
structure Slack.Reflexive (σ : Slack) : Prop where
  vars (o : Owner) (name : String) (v : Variable) : σ.vars o name v v
  overloads (o : Owner) (name : String) (fs : List FunctionDefinition) : σ.overloads o name fs fs
  constructors (o : Owner) (f : FunctionDefinition) : σ.constructors o f f

/-- New declarations may be made. -/
structure Slack.Declares (σ : Slack) : Prop where
  vars (o : Owner) (name : String) (v : Variable) : σ.vars o name v v
  overloads {o : Owner} {name : String} {fs gs : List FunctionDefinition} (f : FunctionDefinition) :
    σ.overloads o name fs gs → (∀ g ∈ fs, g.sameSignature f = false) →
      σ.overloads o name (fs ++ [f]) (gs ++ [f])
  constructors (o : Owner) (f : FunctionDefinition) : σ.constructors o f f

variable {σ : Slack} {α : Type}

namespace SymbolTable

variable {R : String → α → α → Prop} {t u : SymbolTable α}

-- The same names stand for related things.
def Like (R : String → α → α → Prop) (t u : SymbolTable α) : Prop :=
  ∀ name, Option.Rel (R name) (t.find? name) (u.find? name)

theorem like_refl (t : SymbolTable α) (related : ∀ name a, t.find? name = some a → R name a a) :
    Like R t t := by
  intro name
  cases found : t.find? name with
  | none => exact .none
  | some a => exact .some (related name a found)

theorem Like.contains (like : Like R t u) (name : String) :
    u.contains name = t.contains name := by
  have related := like name
  unfold SymbolTable.contains
  generalize t.find? name = found, u.find? name = found' at related
  cases related <;> rfl

theorem Like.insert (like : Like R t u) {name : String} {a b : α} (related : R name a b) :
    Like R (t.insert name a) (u.insert name b) := by
  intro other
  rw [find?_insert, find?_insert]
  split
  next same => exact .some (same ▸ related)
  next => exact like other

theorem Like.modify (like : Like R t u) {name : String} {f g : α → α}
    (keeps : ∀ a b, R name a b → R name (f a) (g b)) :
    Like R (t.modify name f) (u.modify name g) := by
  intro other
  rw [find?_modify, find?_modify]
  split
  next same =>
    subst same
    have related := like other
    generalize t.find? other = found, u.find? other = found' at related
    cases related with
    | none => exact .none
    | some related => exact .some (keeps _ _ related)
  next => exact like other

end SymbolTable

-- The overloads of each name are related.
def FunctionTable.Like (σ : Slack) (o : Owner) (t u : FunctionTable) : Prop :=
  ∀ name, σ.overloads o name (t.overloads name) (u.overloads name)

namespace FunctionTable

variable {o : Owner} {t u : FunctionTable}

theorem Like.any_sameSignature (like : t.Like σ o u) (f : FunctionDefinition) (name : String) :
    (u.overloads name).any (·.sameSignature f) = (t.overloads name).any (·.sameSignature f) := by
  have perm := σ.overloads_perm (like name)
  have same (fs : List FunctionDefinition) :
      fs.any (·.sameSignature f) = (fs.map FunctionDefinition.bare).any (·.sameSignature f) := by
    rw [List.any_map]
    rfl
  rw [same (u.overloads name), perm.any_eq, ← same]

theorem Like.add? (like : t.Like σ o u) (declares : σ.Declares) (f : FunctionDefinition) :
    Option.Rel (FunctionTable.Like σ o) (t.add? f) (u.add? f) := by
  cases added : t.add? f with
  | none =>
      have refused : u.add? f = none := by
        unfold FunctionTable.add? at added ⊢
        rw [like.any_sameSignature]
        split at added
        next taken => rw [if_pos taken]
        next => cases added
      rw [refused]
      exact .none
  | some grown =>
      have fresh : (t.overloads f.name).any (·.sameSignature f) = false := by
        unfold FunctionTable.add? at added
        split at added
        next => cases added
        next free => simpa using free
      have added' : u.add? f = some ⟨u.table.insert f.name (u.overloads f.name ++ [f])⟩ := by
        unfold FunctionTable.add?
        rw [like.any_sameSignature, fresh]
        rfl
      rw [added']
      refine .some fun name => ?_
      rw [overloads_add? added, overloads_add? added']
      split
      next same =>
        subst same
        exact declares.overloads f (like f.name) (by simpa using fresh)
      next =>
        rw [List.append_nil, List.append_nil]
        exact like name

theorem Like.filled (like : t.Like σ o u) {name : String} {types : List Datatype} {m n : Node}
    (bodies : n = m ∨ σ.nodes m n ∧ σ.bodies (.function o name types)) :
    (t.modify name types ({ · with body := .tree m })).Like σ o
      (u.modify name types ({ · with body := .tree n })) := by
  intro other
  rw [overloads_modify, overloads_modify]
  split
  next same =>
    subst same
    exact σ.overloads_filled (like other) bodies
  next => exact like other

end FunctionTable

/-- A class as it is and as it is in another run, members included. -/
structure ClassDeclaration.Like (σ : Slack) (o : Owner) (c d : ClassDeclaration) : Prop where
  name : d.name = c.name
  modifiers : d.modifiers = c.modifiers
  origin : d.origin = c.origin
  fields : SymbolTable.Like (σ.vars o) c.fields d.fields
  methods : c.methods.Like σ o d.methods
  constructor : Option.Rel (σ.constructors o) c.constructor d.constructor

theorem ClassDeclaration.like_refl (reflexive : σ.Reflexive) (o : Owner) (c : ClassDeclaration) :
    c.Like σ o c where
  name := rfl
  modifiers := rfl
  origin := rfl
  fields := SymbolTable.like_refl _ fun _ _ _ => reflexive.vars _ _ _
  methods name := reflexive.overloads _ _ _
  constructor := by
    cases c.constructor with
    | none => exact .none
    | some f => exact .some (reflexive.constructors _ _)

structure Members.Like (σ : Slack) (id : ModuleId) (m n : Members) : Prop where
  functions : m.functions.Like σ (.module id) n.functions
  globals : SymbolTable.Like (σ.vars (.module id)) m.globals n.globals
  classes : SymbolTable.Like
    (fun name c d => c.name = name ∧ c.Like σ (.inClass id name) d) m.classes n.classes
  enums : n.enums = m.enums

/-- The same modules, with like declarations in them. -/
structure ModuleTree.Like (σ : Slack) (t u : ModuleTree) : Prop where
  size : u.size = t.size
  names : ∀ id, (u.get id).name = (t.get id).name
  parents : ∀ id, (u.get id).parent = (t.get id).parent
  children : ∀ id, (u.get id).children = (t.get id).children
  members : ∀ id, (t.get id).members.Like σ id (u.get id).members

namespace ModuleTree

variable {t u : ModuleTree} {id : ModuleId}

theorem like_self (reflexive : σ.Reflexive)
    (named : ∀ id name c, (t.get id).members.classes.find? name = some c → c.name = name) :
    t.Like σ t where
  size := rfl
  names _ := rfl
  parents _ := rfl
  children _ := rfl
  members id :=
    ⟨fun _ => reflexive.overloads _ _ _, SymbolTable.like_refl _ fun _ _ _ => reflexive.vars _ _ _,
      SymbolTable.like_refl _ fun name c found =>
        ⟨named id name c found, ClassDeclaration.like_refl reflexive _ _⟩, rfl⟩

theorem like_refl (reflexive : σ.Reflexive) (proper : t.Proper) : t.Like σ t :=
  like_self reflexive fun id name c found => (proper.classes id name c found).1

section Paths

variable (like : t.Like σ u)

include like

theorem Like.chain (bound : Nat) (id : ModuleId) : u.chain bound id = t.chain bound id := by
  induction bound generalizing id with
  | zero => rfl
  | succ bound ih => simp only [ModuleTree.chain, like.parents, ih]

theorem Like.ancestors (id : ModuleId) : u.ancestors id = t.ancestors id := like.chain _ id

theorem Like.isWithin (id ancestor : ModuleId) : u.isWithin id ancestor = t.isWithin id ancestor := by
  rw [ModuleTree.isWithin, like.ancestors, ModuleTree.isWithin]

theorem Like.path (id : ModuleId) : u.path id = t.path id := by
  simp only [ModuleTree.path, ModuleTree.pathSegments, like.ancestors, like.names]

theorem Like.qualify (id : ModuleId) (name : String) : u.qualify id name = t.qualify id name := by
  simp only [ModuleTree.qualify, like.path]

theorem Like.describe (id : ModuleId) : u.describe id = t.describe id := by
  simp only [ModuleTree.describe, like.path]

theorem Like.child? (id : ModuleId) (name : String) : u.child? id name = t.child? id name := by
  simp only [ModuleTree.child?, like.children]

theorem Like.resolvePath (id : ModuleId) (path : String) :
    u.resolvePath id path = t.resolvePath id path := by
  have same : u.child? = t.child? := funext fun id => funext fun name => like.child? id name
  simp only [ModuleTree.resolvePath, ModuleTree.descend, like.ancestors, same]

theorem Like.qualifyFunction (f : FunctionDefinition) :
    u.qualifyFunction f = t.qualifyFunction f := by
  simp only [ModuleTree.qualifyFunction, like.qualify]

theorem Like.nameTaken (id : ModuleId) (name : String) :
    (u.get id).nameTaken name = (t.get id).nameTaken name := by
  have members := like.members id
  simp only [Module.nameTaken, members.globals.contains, members.classes.contains, members.enums,
    like.children]

end Paths

section Change

theorem Like.modifyMembers (like : t.Like σ u) {f g : Members → Members}
    (keeps : ∀ m n : Members, m.Like σ id n → (f m).Like σ id (g n)) :
    (t.modifyMembers id f).Like σ (u.modifyMembers id g) where
  size := by rw [size_modifyMembers, size_modifyMembers, like.size]
  names other := by
    rw [(t.get_modifyMembers id other f).1, (u.get_modifyMembers id other g).1, like.names]
  parents other := by
    rw [(t.get_modifyMembers id other f).2, (u.get_modifyMembers id other g).2, like.parents]
  children other := by
    have kept (v : ModuleTree) (h : Members → Members) :
        ((v.modifyMembers id h).get other).children = (v.get other).children := by
      unfold ModuleTree.modifyMembers
      rw [get_modify_eq]
      split
      next same => rw [same.1]
      next => rfl
    rw [kept, kept, like.children]
  members other := by
    rw [members_modifyMembers, members_modifyMembers, like.size]
    split
    next same =>
      rw [same.1]
      exact keeps _ _ (like.members id)
    next => exact like.members other

theorem Like.modifyVariable (like : t.Like σ u) (name : String) {f g : Variable → Variable}
    (keeps : ∀ v w, σ.vars (.module id) name v w → σ.vars (.module id) name (f v) (g w)) :
    (t.modifyVariable id name f).Like σ (u.modifyVariable id name g) :=
  like.modifyMembers fun _ _ members =>
    ⟨members.functions, members.globals.modify keeps, members.classes, members.enums⟩

theorem Like.modifyClass (like : t.Like σ u) (name : String)
    {f g : ClassDeclaration → ClassDeclaration} (named : ∀ c, (f c).name = c.name)
    (keeps : ∀ c d : ClassDeclaration, c.Like σ (.inClass id name) d →
      (f c).Like σ (.inClass id name) (g d)) :
    (t.modifyClass id name f).Like σ (u.modifyClass id name g) :=
  like.modifyMembers fun _ _ members =>
    ⟨members.functions, members.globals,
      members.classes.modify fun c d related =>
        ⟨(named c).trans related.1, keeps c d related.2⟩, members.enums⟩

theorem Like.modifyFunction (like : t.Like σ u) (name : String) (types : List Datatype)
    {m n : Node} (bodies : n = m ∨ σ.nodes m n ∧ σ.bodies (.function (.module id) name types)) :
    (t.modifyFunction id name types ({ · with body := .tree m })).Like σ
      (u.modifyFunction id name types ({ · with body := .tree n })) :=
  like.modifyMembers fun _ _ members =>
    ⟨members.functions.filled bodies, members.globals, members.classes, members.enums⟩

theorem Like.insertVariable (like : t.Like σ u) {v w : Variable} (same : w.name = v.name)
    (related : σ.vars (.module id) v.name v w) :
    (t.insertVariable id v).Like σ (u.insertVariable id w) := by
  refine like.modifyMembers fun _ _ members => ⟨members.functions, ?_, members.classes, members.enums⟩
  rw [same]
  exact members.globals.insert related

theorem Like.insertClass (like : t.Like σ u) {c d : ClassDeclaration}
    (related : c.Like σ (.inClass id c.name) d) :
    (t.insertClass id c).Like σ (u.insertClass id d) := by
  refine like.modifyMembers fun _ _ members => ⟨members.functions, members.globals, ?_, members.enums⟩
  rw [related.name]
  exact members.classes.insert ⟨rfl, related⟩

theorem Like.insertEnum (like : t.Like σ u) (id : ModuleId) (e : EnumDeclaration) :
    (t.insertEnum id e).Like σ (u.insertEnum id e) :=
  like.modifyMembers fun _ _ members => ⟨members.functions, members.globals, members.classes,
    congrArg (SymbolTable.insert · e.name e) members.enums⟩

theorem Like.addFunction? (like : t.Like σ u) (declares : σ.Declares) (id : ModuleId)
    (f : FunctionDefinition) :
    Option.Rel (ModuleTree.Like σ) (t.addFunction? id f) (u.addFunction? id f) := by
  have added := (like.members id).functions.add? declares f
  unfold ModuleTree.addFunction?
  generalize (t.get id).members.functions.add? f = grown,
    (u.get id).members.functions.add? f = grown' at added
  cases added with
  | none => exact .none
  | some functions =>
      exact .some (like.modifyMembers fun _ _ members =>
        ⟨functions, members.globals, members.classes, members.enums⟩)

-- What a new module and the one around it look like.
theorem get_addChild_fresh {parent : ModuleId} {name : String} (fresh : t.child? parent name = none)
    (id : ModuleId) :
    (t.addChild parent name).2.get id =
      if id = parent ∧ parent.index < t.size + 1 then
        { (if parent.index = t.size then { name, parent := some parent } else t.get parent) with
          children := (if parent.index = t.size then SymbolTable.empty
            else (t.get parent).children).insert name ⟨t.size⟩ }
      else if id.index = t.size then { name, parent := some parent } else t.get id := by
  have appended (id : ModuleId) :
      ModuleTree.get ⟨t.modules ++ [{ name, parent := some parent }]⟩ id =
        if id.index = t.size then { name, parent := some parent } else t.get id := by
    unfold get size
    rcases Nat.lt_trichotomy id.index t.modules.length with less | same | more
    · rw [List.getElem?_append_left less, if_neg (by omega)]
    · simp [same]
    · rw [List.getElem?_eq_none (by simp; omega), List.getElem?_eq_none (by omega),
        if_neg (by omega)]
  have longer : ModuleTree.size ⟨t.modules ++ [{ name, parent := some parent }]⟩ = t.size + 1 := by
    simp [size]
  unfold addChild
  rw [fresh]
  simp only [get_modify_eq, appended, longer]
  split
  · split <;> rfl
  · rfl

theorem Like.addChild (like : t.Like σ u) (parent : ModuleId) (name : String) :
    (u.addChild parent name).1 = (t.addChild parent name).1 ∧
      (t.addChild parent name).2.Like σ (u.addChild parent name).2 := by
  cases found : t.child? parent name with
  | some child =>
      have found' : u.child? parent name = some child := (like.child? parent name).trans found
      rw [addChild_of_found found, addChild_of_found found']
      exact ⟨rfl, like⟩
  | none =>
      have fresh : u.child? parent name = none := (like.child? parent name).trans found
      refine ⟨by rw [addChild_id found, addChild_id fresh, like.size], ?_, ?_, ?_, ?_, ?_⟩
      · rw [size_addChild found, size_addChild fresh, like.size]
      · intro id
        rw [(get_addChild found id).1, (get_addChild fresh id).1, like.size, like.names]
      · intro id
        rw [(get_addChild found id).2, (get_addChild fresh id).2, like.size, like.parents]
      · intro id
        rw [get_addChild_fresh found, get_addChild_fresh fresh, like.size, like.children]
        split
        · rfl
        · split
          · rfl
          · exact like.children id
      · intro id
        rw [members_addChild, members_addChild]
        exact like.members id

end Change

theorem Like.attachBody (like : t.Like σ u) {owner : BodyOwner} {m n : Node}
    (bodies : n = m ∨ σ.nodes m n ∧ σ.bodies owner) :
    (AnalysisState.attachBody t m owner).Like σ (AnalysisState.attachBody u n owner) := by
  cases owner with
  | function o name types =>
      cases o with
      | module id => exact like.modifyFunction name types bodies
      | inClass id c =>
          refine like.modifyClass c (fun _ => rfl) fun _ _ related => ?_
          exact ⟨related.name, related.modifiers, related.origin, related.fields,
            related.methods.filled bodies, related.constructor⟩
  | constructor id c =>
      refine like.modifyClass c (fun _ => rfl) fun c' d related => ?_
      refine ⟨related.name, related.modifiers, related.origin, related.fields, related.methods, ?_⟩
      have both := related.constructor
      generalize c'.constructor = f, d.constructor = g at both
      cases both with
      | none => exact .none
      | some related => exact .some (σ.constructors_filled related bodies)

end ModuleTree

end MiLanguage
