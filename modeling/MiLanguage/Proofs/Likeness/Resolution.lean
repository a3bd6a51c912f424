import Mathlib.Data.List.Perm.Basic
import MiLanguage.Proofs.Likeness.Scopes

set_option autoImplicit false

namespace MiLanguage

variable {σ : Slack} {α : Type}

/-- What the statements before have declared and opened, in two runs. -/
structure Environment.Like (σ : Slack) (env other : Environment) : Prop where
  modules : env.modules.Like σ other.modules
  scopes : env.scopes.Like σ other.scopes
  inLibrary : other.inLibrary = env.inLibrary

namespace Environment

variable {env other : Environment}

section Reading

variable (like : env.Like σ other)

include like

theorem Like.currentModule : other.currentModule = env.currentModule :=
  ScopeStack.currentModule_like like.scopes.scopes

theorem Like.frame : env.frame.Like σ other.frame :=
  (ScopeStack.current_like like.scopes.scopes).frame

theorem Like.originOf (place : Token) : other.originOf place = env.originOf place := by
  rw [Environment.originOf, like.currentModule, Environment.originOf]

theorem Like.requireBlock (place : Token) : other.requireBlock place = env.requireBlock place := by
  rw [Environment.requireBlock, like.frame.isBlock, Environment.requireBlock]

theorem Like.resolveModule (path : String) : other.resolveModule path = env.resolveModule path := by
  rw [Environment.resolveModule, like.currentModule, like.modules.resolvePath,
    Environment.resolveModule]

end Reading

section Lookup

variable {R : ModuleId → String → α → α → Prop} {table : Members → SymbolTable α}

/-- What a lookup finds, in two runs: in the same module, under the same name. -/
inductive FoundLike (R : ModuleId → String → α → α → Prop) (name : String) :
    ModuleId × α → ModuleId × α → Prop
  | intro {id : ModuleId} {a b : α} : R id name a b → FoundLike R name (id, a) (id, b)

-- The modules in use are looked up all together, so their order is of no account.
theorem chosen_like {S : ModuleId × α → ModuleId × α → Prop} {exact : Bool}
    {hits theirs others : List (ModuleId × α)} {x y : Except LookupFailure (ModuleId × α)} :
    List.Forall₂ S hits theirs → others.Perm theirs → (exact = true → others = theirs) →
      (∀ p q, S p q → q.1 = p.1) → Alike exact S x y →
      Alike exact S
        (match hits with
          | [] => x
          | [hit] => .ok hit
          | hits => .error (.ambiguous (hits.map Prod.fst)))
        (match others with
          | [] => y
          | [hit] => .ok hit
          | hits => .error (.ambiguous (hits.map Prod.fst))) := by
  intro same perm ordered fst around
  cases same with
  | nil =>
      cases perm.eq_nil
      exact around
  | @cons p q _ _ first rest =>
      cases rest with
      | nil =>
          cases List.perm_singleton.mp perm
          exact .ok first
      | @cons r s _ _ second later =>
          match others, perm with
          | [], perm => cases perm.symm.eq_nil
          | [_], perm => simp at perm
          | other :: next :: rest, _ =>
              refine .error fun exact => ?_
              cases ordered exact
              have fsts {as bs : List (ModuleId × α)} (related : List.Forall₂ S as bs) :
                  bs.map Prod.fst = as.map Prod.fst := by
                induction related with
                | nil => rfl
                | cons head _ ih => rw [List.map_cons, List.map_cons, fst _ _ head, ih]
              rw [fsts (.cons first (.cons second later))]

theorem Like.lookup (like : env.Like σ other)
    (tables : ∀ id, SymbolTable.Like (R id) (table (env.modules.get id).members)
      (table (other.modules.get id).members)) (name : String) :
    Alike σ.exact (FoundLike R (shortName name)) (env.lookup table name)
      (other.lookup table name) := by
  have get (id : ModuleId) (name : String) : Option.Rel (FoundLike R name)
      (((table (env.modules.get id).members).find? name).map fun found => (id, found))
      (((table (other.modules.get id).members).find? name).map fun found => (id, found)) := by
    have related := tables id name
    generalize (table (env.modules.get id).members).find? name = a,
      (table (other.modules.get id).members).find? name = b at related
    cases related with
    | none => exact .none
    | some related => exact .some ⟨related⟩
  unfold Environment.lookup
  dsimp only
  cases split : splitQualified name with
  | some parts =>
      obtain ⟨path, last⟩ := parts
      obtain ⟨rfl, -⟩ := splitQualified_eq_some split
      simp only [like.resolveModule]
      cases env.resolveModule path with
      | none => exact .error fun _ => rfl
      | some id => exact .of_option (get id _) _
  | none =>
      rw [shortName_of_plain (splitQualified_eq_none split)]
      have same (ids : List ModuleId) : List.Forall₂ Eq ids ids :=
        List.forall₂_same.mpr fun _ _ => rfl
      refine chosen_like (S := FoundLike R name)
        (filterMap_like (same _) fun a b eq => by subst eq; exact get a name)
        ((ScopeStack.uses_perm like.scopes.scopes).filterMap _)
        (fun exact => by rw [(ScopeStack.uses_like like.scopes.scopes).1 exact])
        (fun _ _ found => by cases found; rfl) ?_
      rw [like.currentModule, like.modules.ancestors]
      exact .of_option (findSome?_like (same _) fun a b eq => by subst eq; exact get a name) _

theorem Like.lookupOrBlame (like : env.Like σ other)
    (tables : ∀ id, SymbolTable.Like (R id) (table (env.modules.get id).members)
      (table (other.modules.get id).members)) (what : String) (place : Token) :
    Alike σ.exact (FoundLike R (shortName place.lexeme)) (env.lookupOrBlame table what place)
      (other.lookupOrBlame table what place) := by
  have found := like.lookup tables place.lexeme
  have describes : other.modules.describe = env.modules.describe :=
    funext fun id => like.modules.describe id
  unfold Environment.lookupOrBlame
  generalize env.lookup table place.lexeme = x, other.lookup table place.lexeme = y at found
  cases found with
  | ok found => exact .ok found
  | error same =>
      refine .error fun exact => ?_
      rw [same exact]
      unfold lookupFault
      rw [describes]

end Lookup

section Names

variable (like : env.Like σ other)

include like

theorem Like.globals (id : ModuleId) : SymbolTable.Like (σ.vars (.module id))
    (env.modules.get id).members.globals (other.modules.get id).members.globals :=
  (like.modules.members id).globals

theorem Like.classes (id : ModuleId) : SymbolTable.Like
    (fun name c d => c.name = name ∧ c.Like σ (.inClass id name) d)
    (env.modules.get id).members.classes (other.modules.get id).members.classes :=
  (like.modules.members id).classes

theorem Like.enums (id : ModuleId) : SymbolTable.Like (fun _ => Eq)
    (env.modules.get id).members.enums (other.modules.get id).members.enums := by
  rw [(like.modules.members id).enums]
  exact SymbolTable.like_refl _ fun _ _ _ => rfl

theorem Like.checkAccess (what : String) (modifiers : Modifiers) (origin : Origin) (place : Token) :
    other.checkAccess what modifiers origin place = env.checkAccess what modifiers origin place := by
  simp only [Environment.checkAccess, Environment.accessible, like.modules.isWithin,
    like.currentModule, like.modules.describe]

-- A variable that is found, in two runs.
def VariableLike (σ : Slack) (v w : ResolvedVariable) : Prop :=
  w = { v with initialized := w.initialized } ∧ w.canAssign = v.canAssign ∧
    (σ.marked = false → w.initialized = v.initialized)

theorem Like.localVariable? (name : String) :
    other.localVariable? name = env.localVariable? name := by
  rw [Environment.localVariable?, ScopeStack.lookupLocal?_like like.scopes.scopes,
    Environment.localVariable?]

theorem Like.fieldVariable? (name : String) :
    Option.Rel (VariableLike σ) (env.fieldVariable? name) (other.fieldVariable? name) := by
  have around := ScopeStack.class?_like like.scopes.scopes
  unfold Environment.fieldVariable?
  generalize env.scopes.class? = found, other.scopes.class? = found' at around
  cases around with
  | none => exact .none
  | some around =>
      obtain ⟨alike⟩ := around
      have field := alike.fields name
      simp only [Option.bind_eq_bind, Option.bind_some, like.modules.qualify, alike.name]
      generalize SymbolTable.find? (ClassDeclaration.fields _) name = v at field
      generalize SymbolTable.find? (ClassDeclaration.fields _) name = w at field
      cases field with
      | none => exact .none
      | some related =>
          obtain ⟨same, assign⟩ := σ.vars_same related
          refine .some ⟨?_, assign⟩
          rw [same]

theorem Like.resolveVariable (place : Token) :
    Alike σ.exact (VariableLike σ) (env.resolveVariable place) (other.resolveVariable place) := by
  have near : Option.Rel (VariableLike σ)
      (if isDotted place.lexeme then none
        else env.localVariable? place.lexeme <|> env.fieldVariable? place.lexeme)
      (if isDotted place.lexeme then none
        else other.localVariable? place.lexeme <|> other.fieldVariable? place.lexeme) := by
    split
    · exact .none
    · rw [like.localVariable?]
      cases env.localVariable? place.lexeme with
      | none => exact like.fieldVariable? place.lexeme
      | some v => exact .some ⟨rfl, rfl, fun _ => rfl⟩
  unfold Environment.resolveVariable
  dsimp only
  generalize (if isDotted place.lexeme then none
      else env.localVariable? place.lexeme <|> env.fieldVariable? place.lexeme) = found,
    (if isDotted place.lexeme then none
      else other.localVariable? place.lexeme <|> other.fieldVariable? place.lexeme) = found' at near
  cases near with
  | some same => exact .ok same
  | none =>
      refine (like.lookupOrBlame like.globals _ place).bind ?_
      rintro _ _ ⟨related⟩
      obtain ⟨same, assign⟩ := σ.vars_same related
      refine Alike.andThen (.of_eq ?_) fun _ => .ok ⟨?_, assign⟩
      · rw [like.checkAccess, same]
      · rw [like.modules.qualify, same]

-- Overloads to choose from, in two runs.
def CandidatesLike (fs gs : List FunctionDefinition) : Prop :=
  (gs.map FunctionDefinition.bare).Perm (fs.map FunctionDefinition.bare)

theorem Like.methods (name : String) :
    CandidatesLike ((env.scopes.class?.map fun (_, c) => c.methods.overloads name).getD [])
      ((other.scopes.class?.map fun (_, c) => c.methods.overloads name).getD []) := by
  have around := ScopeStack.class?_like like.scopes.scopes
  generalize env.scopes.class? = found, other.scopes.class? = found' at around
  cases around with
  | none => exact .refl _
  | some around =>
      obtain ⟨alike⟩ := around
      exact σ.overloads_perm (alike.methods name)

theorem Like.callCandidates (name : String) :
    Alike true CandidatesLike (env.callCandidates name) (other.callCandidates name) := by
  have overloads (id : ModuleId) (name : String) :
      CandidatesLike (env.modules.overloads id name) (other.modules.overloads id name) :=
    σ.overloads_perm ((like.modules.members id).functions name)
  have isEmpty {fs gs : List FunctionDefinition} (related : CandidatesLike fs gs) :
      gs.isEmpty = fs.isEmpty := by
    have length := related.length_eq
    rw [List.length_map, List.length_map] at length
    cases fs <;> cases gs <;> simp_all
  unfold Environment.callCandidates
  cases splitQualified name with
  | some parts =>
      obtain ⟨path, last⟩ := parts
      simp only [like.resolveModule]
      cases env.resolveModule path with
      | none => exact .error fun _ => rfl
      | some id =>
          simp only
          have found := overloads id last
          have empty := isEmpty found
          generalize env.modules.overloads id last = fs, other.modules.overloads id last = gs
            at found empty
          cases fs with
          | nil => cases gs with
              | nil => exact .error fun _ => rfl
              | cons => cases empty
          | cons => cases gs with
              | nil => cases empty
              | cons => exact .ok found
  | none =>
      have used : CandidatesLike (env.scopes.uses.flatMap (env.modules.overloads · name))
          (other.scopes.uses.flatMap (other.modules.overloads · name)) := by
        have perm := ScopeStack.uses_perm like.scopes.scopes
        unfold CandidatesLike
        rw [List.map_flatMap, List.map_flatMap]
        exact perm.flatMap fun id _ => overloads id name
      have around : List.Forall₂ CandidatesLike
          ((env.modules.ancestors env.currentModule).map (env.modules.overloads · name))
          ((other.modules.ancestors other.currentModule).map (other.modules.overloads · name)) := by
        rw [like.currentModule, like.modules.ancestors, List.forall₂_map_left_iff,
          List.forall₂_map_right_iff, List.forall₂_same]
        exact fun id _ => overloads id name
      have found := find?_like (.cons (like.methods name) (.cons used around)) (p := (!·.isEmpty))
        (q := (!·.isEmpty)) fun _ _ related => by rw [isEmpty related]
      dsimp only
      rw [like.modules.describe, like.currentModule]
      rw [like.currentModule] at found
      revert found
      generalize List.find? (fun fs : List FunctionDefinition => !fs.isEmpty)
        (_ :: env.scopes.uses.flatMap _ :: _) = fs
      generalize List.find? (fun fs : List FunctionDefinition => !fs.isEmpty) _ = gs
      intro found
      cases found with
      | none => exact .error fun _ => rfl
      | some found => exact .ok found

theorem Like.resolveCall (place : Token) (args : List Datatype) :
    other.resolveCall place args = env.resolveCall place args := by
  have candidates := like.callCandidates place.lexeme
  unfold Environment.resolveCall
  generalize env.callCandidates place.lexeme = fs, other.callCandidates place.lexeme = gs
    at candidates
  cases candidates with
  | error same =>
      cases same rfl
      rfl
  | @ok fs gs related =>
      simp only [Checked.ok_bind]
      have chosen := Overload.select_of_bare_perm related args
      cases selected : Overload.select fs args with
      | ok f =>
          cases selected' : Overload.select gs args with
          | ok g =>
              rw [selected, selected'] at chosen
              have bare : g.bare = f.bare := Except.ok.inj chosen
              obtain ⟨name, type, params, modifiers, owner, file⟩ :=
                FunctionDefinition.bare_inj bare
              have origin : g.origin = f.origin := by
                rw [FunctionDefinition.origin, owner, file, FunctionDefinition.origin]
              have qualified : other.modules.qualifyFunction g = env.modules.qualifyFunction f := by
                rw [like.modules.qualifyFunction, ModuleTree.qualifyFunction,
                  ModuleTree.qualifyFunction, owner, name]
              simp only [like.checkAccess, modifiers, origin, qualified, type]
          | error => rw [selected, selected'] at chosen; cases chosen
      | error e =>
          cases selected' : Overload.select gs args with
          | ok => rw [selected, selected'] at chosen; cases chosen
          | error e' =>
              rw [selected, selected'] at chosen
              cases chosen
              cases e <;> rfl

theorem Like.resolveEnum (place : Token) :
    Alike σ.exact Eq (env.resolveEnum place) (other.resolveEnum place) := by
  refine (like.lookupOrBlame like.enums _ place).bind ?_
  rintro _ _ ⟨rfl⟩
  refine Alike.andThen (.of_eq (like.checkAccess _ _ _ place)) fun _ => .ok ?_
  rw [like.modules.qualify]

theorem Like.ownClass? (name : String) : other.ownClass? name = env.ownClass? name := by
  have around := ScopeStack.class?_like like.scopes.scopes
  unfold Environment.ownClass?
  generalize env.scopes.class? = found, other.scopes.class? = found' at around
  cases around with
  | none => rfl
  | some around =>
      obtain ⟨alike⟩ := around
      simp only [Option.bind_eq_bind, Option.bind_some, like.modules.qualify, alike.name]

theorem Like.resolveClass (place : Token) :
    Alike σ.exact Eq (env.resolveClass place) (other.resolveClass place) := by
  unfold Environment.resolveClass
  rw [like.ownClass?]
  cases env.ownClass? place.lexeme with
  | some name => exact .ok rfl
  | none =>
      refine (like.lookupOrBlame like.classes _ place).bind ?_
      rintro _ _ ⟨-, related⟩
      refine Alike.andThen (.of_eq ?_) fun _ => .ok ?_
      · rw [like.checkAccess, related.modifiers, related.origin]
      · rw [like.modules.qualify]

theorem Like.resolveDatatype (place : Token) (nullable : Bool) :
    Alike σ.exact Eq (env.resolveDatatype place nullable)
      (other.resolveDatatype place nullable) := by
  have anEnum : other.namesEnum place.lexeme = env.namesEnum place.lexeme :=
    (like.lookup like.enums place.lexeme).isOk
  have aClass : other.namesClass place.lexeme = env.namesClass place.lexeme := by
    rw [Environment.namesClass, like.ownClass?, (like.lookup like.classes place.lexeme).isOk,
      Environment.namesClass]
  unfold Environment.resolveDatatype
  rw [anEnum, aClass]
  split
  · exact .ok rfl
  · split
    · exact (like.resolveEnum place).andThen fun _ => .ok rfl
    · split
      · exact (like.resolveClass place).andThen fun _ => .ok rfl
      · exact .error fun _ => rfl
  · exact .error fun _ => rfl

end Names

end Environment

end MiLanguage
