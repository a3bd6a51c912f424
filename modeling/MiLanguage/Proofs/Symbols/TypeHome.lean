import MiLanguage.Proofs.Naming.Environment
import MiLanguage.Proofs.Passes.Agreement
import MiLanguage.Proofs.Symbols.Homes

set_option autoImplicit false

namespace MiLanguage

section Lists

variable {α : Type} {p : α → Bool} {a : α} {l : List α}

-- What is found is the first one, so nothing holds of those before it.
theorem find?_eq_some_iff_takeWhile [DecidableEq α] :
    l.find? p = some a ↔ p a = true ∧ a ∈ l ∧ ∀ b ∈ l.takeWhile (· ≠ a), p b = false := by
  induction l with
  | nil => simp
  | cons b l ih =>
      by_cases same : b = a
      · subst same
        cases holds : p b with
        | true => simp [holds]
        | false =>
            rw [List.find?_cons_of_neg (by simp [holds]), ih]
            simp [holds]
      · cases holds : p b with
        | true => simp [holds, same]
        | false =>
            rw [List.find?_cons_of_neg (by simp [holds]), ih]
            simp [holds, same, Ne.symm same]

theorem eq_singleton_of_nodup (apart : l.Nodup) (member : a ∈ l) (each : ∀ b ∈ l, b = a) :
    l = [a] := by
  have all := List.eq_replicate_of_mem each
  have positive := List.length_pos_of_mem member
  rw [all, List.nodup_replicate] at apart
  rw [all, show l.length = 1 by omega]
  rfl

end Lists

theorem ScopeStack.nodup_uses (s : ScopeStack) : s.uses.Nodup := by
  unfold uses
  generalize s.functionScopes.flatMap _ = ids
  have each : ∀ found : List ModuleId, found.Nodup →
      (ids.foldl (fun found id => if found.contains id then found else found ++ [id]) found).Nodup := by
    induction ids with
    | nil => exact fun found apart => apart
    | cons id ids ih =>
        intro found apart
        rw [List.foldl_cons]
        apply ih
        split
        next => exact apart
        next new =>
          rw [List.nodup_append]
          refine ⟨apart, by simp, fun old there other alone same => new ?_⟩
          rw [List.mem_singleton] at alone
          simpa [← alone, ← same] using there
  exact each [] .nil

namespace Environment

variable {env : Environment} {name : String} {id other : ModuleId} {p q : ModuleId → Bool}

-- The module that a property points at: the one module in use that has it or, where none of those
-- does, the innermost one around.
def locate (env : Environment) (p : ModuleId → Bool) : Except LookupFailure ModuleId :=
  match env.scopes.uses.filter p with
  | [] => ((env.modules.ancestors env.currentModule).find? p).elim (.error .notFound) .ok
  | [id] => .ok id
  | ids => .error (.ambiguous ids)

theorem locate_eq_ok : env.locate p = .ok id ↔ env.scopes.uses.filter p = [id] ∨
    env.scopes.uses.filter p = [] ∧ (env.modules.ancestors env.currentModule).find? p = some id := by
  unfold locate
  split
  next unfound =>
    rw [unfound]
    cases (env.modules.ancestors env.currentModule).find? p <;> simp
  next one => rw [one]; simp
  next ids notNone notOne =>
    constructor
    · nofun
    · rintro (one | ⟨unfound, _⟩)
      · exact absurd one (notOne id)
      · exact absurd unfound notNone

theorem locate_holds (located : env.locate p = .ok id) : p id = true := by
  rcases locate_eq_ok.mp located with one | ⟨_, found⟩
  · exact (List.mem_filter.mp (one ▸ List.mem_singleton_self id)).2
  · exact List.find?_some found

-- Modules in use and modules around are all that is looked at.
theorem locate_congr (uses : ∀ id ∈ env.scopes.uses, p id = q id)
    (around : ∀ id ∈ env.modules.ancestors env.currentModule, p id = q id) :
    env.locate p = env.locate q := by
  unfold locate
  rw [List.filter_congr uses]
  have found : (env.modules.ancestors env.currentModule).find? p =
      (env.modules.ancestors env.currentModule).find? q := by
    rw [← List.head?_filter, ← List.head?_filter, List.filter_congr around]
  rw [found]

theorem lookup_locate {α : Type} (env : Environment) (table : Members → SymbolTable α)
    (plain : isDotted name = false) :
    (env.lookup table name).map Prod.fst =
      env.locate fun id => (table (env.modules.get id).members).contains name := by
  have each : ∀ ids : List ModuleId,
      (ids.filterMap fun id =>
        ((table (env.modules.get id).members).find? name).map fun found => (id, found)).map Prod.fst =
      ids.filter fun id => (table (env.modules.get id).members).contains name := by
    intro ids
    induction ids with
    | nil => rfl
    | cons id ids ih =>
        unfold SymbolTable.contains at ih ⊢
        rw [List.filterMap_cons, List.filter_cons]
        cases (table (env.modules.get id).members).find? name <;> simp [ih]
  have split : splitQualified name = none := by simp [splitQualified, plain]
  unfold lookup locate
  rw [split, ← List.head?_filter, ← each, ← each]
  dsimp only
  rw [← List.head?_filterMap]
  generalize env.scopes.uses.filterMap _ = hits
  generalize (env.modules.ancestors env.currentModule).filterMap _ = near
  cases hits with
  | nil => cases near <;> rfl
  | cons hit hits => cases hits <;> rfl

-- Where scoping looks for a type: for an enum and for a class at once.
def declaresType (env : Environment) (name : String) (id : ModuleId) : Bool :=
  env.modules.names id .class name || env.modules.names id .enum name

def typeHome (env : Environment) (name : String) : Except LookupFailure ModuleId :=
  env.locate (env.declaresType name)

theorem resolveEnum_eq_ok {place : Token} {full : String} {members : List String}
    (plain : isDotted place.lexeme = false) (resolved : env.resolveEnum place = .ok (full, members)) :
    ∃ id, env.locate (env.modules.names · .enum place.lexeme) = .ok id ∧
      full = env.modules.qualify id place.lexeme := by
  simp only [resolveEnum, Checked.bind_eq_ok] at resolved
  obtain ⟨⟨id, e⟩, found, _, _, same⟩ := resolved
  cases same
  have found := lookupOrBlame_eq_ok found
  refine ⟨id, ?_, by rw [shortName_of_plain plain]⟩
  have located := env.lookup_locate Members.enums plain
  rw [found] at located
  exact located.symm

theorem resolveClass_eq_ok {place : Token} {full : String} (plain : isDotted place.lexeme = false)
    (resolved : env.resolveClass place = .ok full) :
    ∃ id, full = env.modules.qualify id place.lexeme ∧
      ((∃ c, env.scopes.class? = some (id, c) ∧ c.name = place.lexeme) ∨
        env.ownClass? place.lexeme = none ∧
          env.locate (env.modules.names · .class place.lexeme) = .ok id) := by
  unfold resolveClass at resolved
  split at resolved
  next own =>
    cases resolved
    obtain ⟨⟨id, c⟩, found, same⟩ := Option.bind_eq_some_iff.mp own
    dsimp only at same
    split at same
    next named =>
      cases same
      exact ⟨id, by rw [named], .inl ⟨c, found, named⟩⟩
    next => cases same
  next other =>
    simp only [Checked.bind_eq_ok] at resolved
    obtain ⟨⟨id, c⟩, found, _, _, same⟩ := resolved
    cases same
    have found := lookupOrBlame_eq_ok found
    refine ⟨id, by rw [shortName_of_plain plain], .inr ⟨other, ?_⟩⟩
    have located := env.lookup_locate Members.classes plain
    rw [found] at located
    exact located.symm

/-- What a plain type name is taken for: an enum if one is found, else the class around, else a class
that is found. -/
inductive Chooses (env : Environment) (name : String) (id : ModuleId) : Prop
  | enum : env.locate (env.modules.names · .enum name) = .ok id → Chooses env name id
  | own {c : ClassDeclaration} :
      (∀ id, env.locate (env.modules.names · .enum name) ≠ .ok id) →
      env.scopes.class? = some (id, c) → c.name = name → Chooses env name id
  | «class» :
      (∀ id, env.locate (env.modules.names · .enum name) ≠ .ok id) →
      env.ownClass? name = none → env.locate (env.modules.names · .class name) = .ok id →
      Chooses env name id

theorem isOk_lookup {α : Type} {table : Members → SymbolTable α} (plain : isDotted name = false) :
    (env.lookup table name).isOk = true ↔
      ∃ id, env.locate (fun id => (table (env.modules.get id).members).contains name) = .ok id := by
  rw [← env.lookup_locate table plain]
  cases env.lookup table name with
  | ok found => simp [Except.map, Except.isOk, Except.toBool]
  | error => simp [Except.map, Except.isOk, Except.toBool]

theorem resolveDatatype_chooses {place : Token} {nullable : Bool} {type : Datatype}
    (kind : place.kind = .identifier) (plain : isDotted place.lexeme = false)
    (resolved : env.resolveDatatype place nullable = .ok type) :
    ∃ id, env.Chooses place.lexeme id ∧
      type = (Datatype.named (env.modules.qualify id place.lexeme)).withNullable nullable := by
  simp only [resolveDatatype, kind] at resolved
  split at resolved
  next isEnum =>
    simp only [Checked.bind_eq_ok] at resolved
    obtain ⟨⟨full, members⟩, read, same⟩ := resolved
    cases same
    obtain ⟨id, located, rfl⟩ := resolveEnum_eq_ok plain read
    exact ⟨id, .enum located, rfl⟩
  next notEnum =>
    have unfound : ∀ id, env.locate (env.modules.names · .enum place.lexeme) ≠ .ok id := fun id located =>
      notEnum ((isOk_lookup plain).mpr ⟨id, located⟩)
    split at resolved
    next =>
      simp only [Checked.bind_eq_ok] at resolved
      obtain ⟨full, read, same⟩ := resolved
      cases same
      obtain ⟨id, rfl, ⟨c, found, named⟩ | ⟨other, located⟩⟩ := resolveClass_eq_ok plain read
      · exact ⟨id, .own unfound found named, rfl⟩
      · exact ⟨id, .class unfound other located, rfl⟩
    next => simp at resolved

/-- Where the type that is chosen is another one than that which scoping finds: an enum is taken past
a class, and the class around past any other, and where several modules in use have an enum of the
name a class is taken. -/
inductive Strays (env : Environment) (name : String) (id : ModuleId) : Prop
  | pastUsed {other : ModuleId} :
      env.modules.names id .enum name = true ∨ (env.ownClass? name).isSome = true →
      other ∈ env.scopes.uses → other ≠ id → env.modules.names other .class name = true →
      Strays env name id
  | pastNearer {other : ModuleId} :
      env.modules.names id .enum name = true ∨ (env.ownClass? name).isSome = true →
      id ∉ env.scopes.uses →
      other ∈ (env.modules.ancestors env.currentModule).takeWhile (· ≠ id) →
      env.modules.names other .class name = true → Strays env name id
  | pastSeveral {first second : ModuleId} :
      env.modules.names id .class name = true → first ∈ env.scopes.uses →
      second ∈ env.scopes.uses → first ≠ second →
      env.modules.names first .enum name = true → env.modules.names second .enum name = true →
      Strays env name id

theorem Strays.not_typeHome (strays : env.Strays name id) : env.typeHome name ≠ .ok id := by
  intro home
  -- Of the modules in use there is the one that is found and no other, or none at all.
  have alone : ∀ {other}, other ∈ env.scopes.uses → env.declaresType name other = true →
      other = id := by
    intro other used declares
    have member := List.mem_filter.mpr ⟨used, declares⟩
    rcases locate_eq_ok.mp home with one | ⟨unfound, _⟩
    · rw [one] at member
      exact List.mem_singleton.mp member
    · rw [unfound] at member
      cases member
  cases strays with
  | pastUsed _ used apart named => exact apart (alone used (by simp [declaresType, named]))
  | pastNearer _ unused nearer named =>
      rcases locate_eq_ok.mp home with one | ⟨_, found⟩
      · exact unused (List.mem_filter.mp (one ▸ List.mem_singleton_self id)).1
      · have passed := (find?_eq_some_iff_takeWhile.mp found).2.2 _ nearer
        simp [declaresType, named] at passed
  | pastSeveral _ first second apart named named' =>
      exact apart ((alone first (by simp [declaresType, named])).trans
        (alone second (by simp [declaresType, named'])).symm)

theorem Housed.home_of_class? (housed : env.Housed) {c : ClassDeclaration}
    (found : env.scopes.class? = some (id, c)) :
    env.modules.names id .class c.name = true ∧
      id ∈ env.modules.ancestors env.currentModule := by
  obtain ⟨scope, member, here⟩ := List.exists_of_findSome?_eq_some found
  have home : scope.frame.home? = some ⟨id, some (.class, c.name)⟩ := by
    cases frame : scope.frame <;> simp [frame, Frame.class?] at here
    obtain ⟨rfl, rfl⟩ := here
    rfl
  have member : (⟨id, some (.class, c.name)⟩ : Home) ∈ env.homes :=
    List.mem_filterMap.mpr ⟨scope, member, home⟩
  exact ⟨housed.declared _ member _ _ rfl, housed.mem_ancestors member⟩

theorem Chooses.declares (chooses : env.Chooses name id) (housed : env.Housed) :
    env.declaresType name id = true := by
  cases chooses with
  | enum located => simp [declaresType, locate_holds located]
  | own _ found named => simp [declaresType, ← named, (housed.home_of_class? found).1]
  | «class» _ _ located => simp [declaresType, locate_holds located]

-- An enum is taken past classes only.
theorem typeHome_of_enum (housed : env.Housed) (straight : ¬env.Strays name id)
    (located : env.locate (env.modules.names · .enum name) = .ok id) : env.typeHome name = .ok id := by
  have named := locate_holds located
  have used : ∀ other ∈ env.scopes.uses,
      env.declaresType name other = env.modules.names other .enum name := by
    intro other used
    have notClass : env.modules.names other .class name = false := by
      rw [Bool.eq_false_iff]
      intro ofClass
      by_cases same : other = id
      · exact housed.apart id name (same ▸ ofClass) named
      · exact straight (.pastUsed (.inl named) used same ofClass)
    simp [declaresType, notClass]
  rw [typeHome, locate_eq_ok, List.filter_congr used]
  rcases locate_eq_ok.mp located with one | ⟨unfound, found⟩
  · exact .inl one
  · obtain ⟨_, around, passed⟩ := find?_eq_some_iff_takeWhile.mp found
    refine .inr ⟨unfound, find?_eq_some_iff_takeWhile.mpr ⟨by simp [declaresType, named], around, ?_⟩⟩
    intro other nearer
    have unused : id ∉ env.scopes.uses := fun used => by
      have member : id ∈ env.scopes.uses.filter (env.modules.names · .enum name) :=
        List.mem_filter.mpr ⟨used, named⟩
      rw [unfound] at member
      cases member
    have notClass : env.modules.names other .class name = false := by
      rw [Bool.eq_false_iff]
      exact fun ofClass => straight (.pastNearer (.inl named) unused nearer ofClass)
    simp [declaresType, notClass, passed other nearer]

-- Where no enum is found, a single one is not in use and none is around.
theorem enums_of_not_located (straight : ¬env.Strays name id)
    (named : env.modules.names id .class name = true)
    (missing : ∀ id, env.locate (env.modules.names · .enum name) ≠ .ok id) :
    (∀ other ∈ env.scopes.uses, env.modules.names other .enum name = false) ∧
      ∀ other ∈ env.modules.ancestors env.currentModule,
        env.modules.names other .enum name = false := by
  have apart := env.scopes.nodup_uses.filter (env.modules.names · .enum name)
  have member : ∀ {other}, other ∈ env.scopes.uses.filter (env.modules.names · .enum name) →
      other ∈ env.scopes.uses ∧ env.modules.names other .enum name = true := List.mem_filter.mp
  cases used : env.scopes.uses.filter (env.modules.names · .enum name) with
  | nil =>
      refine ⟨fun other there => by simpa using List.filter_eq_nil_iff.mp used other there, ?_⟩
      have found : (env.modules.ancestors env.currentModule).find?
          (env.modules.names · .enum name) = none := by
        rw [Option.eq_none_iff_forall_ne_some]
        exact fun id found => missing id (locate_eq_ok.mpr (.inr ⟨used, found⟩))
      exact fun other there => by simpa using List.find?_eq_none.mp found other there
  | cons first later =>
      cases later with
      | nil => exact absurd (locate_eq_ok.mpr (.inl used)) (missing first)
      | cons second later =>
          rw [used] at apart member
          have used := member List.mem_cons_self
          have other := member (List.mem_cons_of_mem _ List.mem_cons_self)
          have differ := (List.nodup_cons.mp apart).1
          have differ : first ≠ second := by
            rintro rfl
            simp at differ
          exact absurd (.pastSeveral named used.1 other.1 differ used.2 other.2) straight

theorem ownClass?_of_class? {c : ClassDeclaration} (found : env.scopes.class? = some (id, c))
    (own : c.name = name) : (env.ownClass? name).isSome = true := by
  simp [ownClass?, found, own]

theorem typeHome_of_own {c : ClassDeclaration} (housed : env.Housed)
    (straight : ¬env.Strays name id)
    (missing : ∀ id, env.locate (env.modules.names · .enum name) ≠ .ok id)
    (found : env.scopes.class? = some (id, c)) (own : c.name = name) :
    env.typeHome name = .ok id := by
  obtain ⟨named, around⟩ := housed.home_of_class? found
  rw [own] at named
  have isOwn := ownClass?_of_class? found own
  obtain ⟨noneUsed, noneAround⟩ := enums_of_not_located straight named missing
  have used : ∀ other ∈ env.scopes.uses, env.declaresType name other = true → other = id := by
    intro other used declares
    by_contra apart
    refine straight (.pastUsed (.inr isOwn) used apart ?_)
    simpa [declaresType, noneUsed other used] using declares
  have here : env.declaresType name id = true := by simp [declaresType, named]
  rw [typeHome, locate_eq_ok]
  by_cases inUse : id ∈ env.scopes.uses
  · left
    refine eq_singleton_of_nodup (env.scopes.nodup_uses.filter _)
      (List.mem_filter.mpr ⟨inUse, here⟩) fun other member => ?_
    obtain ⟨there, declares⟩ := List.mem_filter.mp member
    exact used other there declares
  · right
    refine ⟨?_, ?_⟩
    · rw [List.filter_eq_nil_iff]
      exact fun other there declares => inUse (used other there declares ▸ there)
    · refine find?_eq_some_iff_takeWhile.mpr ⟨here, around, fun other nearer => ?_⟩
      have notClass : env.modules.names other .class name = false := by
        rw [Bool.eq_false_iff]
        exact fun ofClass => straight (.pastNearer (.inr isOwn) inUse nearer ofClass)
      simp [declaresType, notClass, noneAround other ((List.takeWhile_sublist _).subset nearer)]

theorem Chooses.typeHome (chooses : env.Chooses name id) (housed : env.Housed) :
    env.typeHome name = .ok id ↔ ¬env.Strays name id := by
  refine ⟨fun home strays => strays.not_typeHome home, fun straight => ?_⟩
  cases chooses with
  | enum located => exact typeHome_of_enum housed straight located
  | own missing found own => exact typeHome_of_own housed straight missing found own
  | «class» missing _ located =>
      obtain ⟨used, around⟩ := enums_of_not_located straight (locate_holds located) missing
      rw [Environment.typeHome, ← located]
      exact locate_congr (fun other there => by simp [declaresType, used other there])
        (fun other there => by simp [declaresType, around other there])

theorem Chooses.makes (chooses : env.Chooses name id) (housed : env.Housed)
    (plain : isDotted name = false) {home : ModuleId}
    (named : env.modules.names home .class name = true)
    (made : (∃ c, env.scopes.class? = some (home, c) ∧ c.name = name) ∨
      env.ownClass? name = none ∧ env.locate (env.modules.names · .class name) = .ok home) :
    home = id ↔ env.namesEnum name = false := by
  have notEnum : (∀ id, env.locate (env.modules.names · .enum name) ≠ .ok id) →
      env.namesEnum name = false := by
    intro missing
    rw [Bool.eq_false_iff]
    intro isEnum
    obtain ⟨id, located⟩ := (isOk_lookup plain).mp isEnum
    exact missing id located
  cases chooses with
  | enum located =>
      have isEnum : env.namesEnum name = true := (isOk_lookup plain).mpr ⟨id, located⟩
      rw [isEnum]
      constructor
      · rintro rfl
        exact (housed.apart home name named (locate_holds located)).elim
      · nofun
  | own missing found own =>
      refine iff_of_true ?_ (notEnum missing)
      rcases made with ⟨c, there, _⟩ | ⟨other, _⟩
      · rw [found] at there
        cases there
        rfl
      · have isOwn := ownClass?_of_class? found own
        rw [other] at isOwn
        cases isOwn
  | «class» missing other located =>
      refine iff_of_true ?_ (notEnum missing)
      rcases made with ⟨c, found, own⟩ | ⟨_, located'⟩
      · have isOwn := ownClass?_of_class? found own
        rw [other] at isOwn
        cases isOwn
      · rw [located] at located'
        cases located'
        rfl

end Environment

namespace Analysis

/-- The environments that types are looked up in: whatever becomes of one in either pass, thing by
thing, and the scope of a loop's variable. -/
inductive Reached (host : Host) (maxErrors : Nat) (tokens : List Token) :
    Setting → Environment → Prop
  | declarations :
      Reached host maxErrors tokens ⟨.declarations, host⟩
        (declarationsStart host maxErrors tokens).environment
  | bodies :
      Reached host maxErrors tokens ⟨.bodies, host⟩ (bodiesStart host maxErrors tokens).environment
  | shifts {setting : Setting} {env after : Environment} :
      Reached host maxErrors tokens setting env → env.Shifts setting after →
      Reached host maxErrors tokens setting after
  | loopHead {setting : Setting} {env : Environment} (node : Node) :
      Reached host maxErrors tokens setting env →
      Reached host maxErrors tokens setting (env.push (.block .loopHead {}) node)

variable {host : Host} {maxErrors : Nat} {tokens : List Token} {setting : Setting}
  {env : Environment}

theorem Reached.evolves {s t : AnalysisState}
    (reached : Reached host maxErrors tokens s.setting s.environment) (evolves : s.Evolves t) :
    Reached host maxErrors tokens s.setting t.environment :=
  evolves.keeps (fun _ _ shifts holds => holds.shifts shifts) reached

theorem reached_steps (host : Host) (maxErrors : Nat) (tokens : List Token) (count : Nat) :
    Reached host maxErrors tokens ⟨.declarations, host⟩
        ((declarationsStart host maxErrors tokens).steps count).environment ∧
      Reached host maxErrors tokens ⟨.bodies, host⟩
        ((bodiesStart host maxErrors tokens).steps count).environment := by
  have first : Reached host maxErrors tokens (declarationsStart host maxErrors tokens).setting
      (declarationsStart host maxErrors tokens).environment := .declarations
  have second : Reached host maxErrors tokens (bodiesStart host maxErrors tokens).setting
      (bodiesStart host maxErrors tokens).environment := .bodies
  exact ⟨first.evolves (AnalysisState.steps_evolves count _),
    second.evolves (AnalysisState.steps_evolves count _)⟩

theorem Reached.housed (reached : Reached host maxErrors tokens setting env) : env.Housed := by
  have both : env.WellFormed ∧ env.Housed := by
    induction reached with
    | declarations =>
        exact ⟨(symbols_wellFormed host maxErrors tokens 0).1,
          (scopes_housed host maxErrors tokens 0).1⟩
    | bodies =>
        exact ⟨(symbols_wellFormed host maxErrors tokens 0).2.1,
          (scopes_housed host maxErrors tokens 0).2⟩
    | shifts _ shifts ih => exact ⟨ih.1.shifts shifts, ih.2.shifts ih.1 shifts⟩
    | loopHead node _ ih => exact ⟨ih.1.pushBlock _ _ rfl node, ih.2.pushBlock _ _ node⟩
  exact both.2

/-- A plain type name that stands for a type stands for one that scoping finds, unless it strays. Where
it can be made an object of as well, the class that is made and the type are one unless the type is an
enum. -/
theorem resolveDatatype_home (reached : Reached host maxErrors tokens setting env) {place : Token}
    {nullable : Bool} {type : Datatype} (kind : place.kind = .identifier)
    (plain : isDotted place.lexeme = false)
    (resolved : env.resolveDatatype place nullable = .ok type) :
    ∃ id, type = (Datatype.named (env.modules.qualify id place.lexeme)).withNullable nullable ∧
      env.declaresType place.lexeme id = true ∧
      (env.typeHome place.lexeme = .ok id ↔ ¬env.Strays place.lexeme id) ∧
      ∀ full, env.resolveClass place = .ok full →
        ∃ home, full = env.modules.qualify home place.lexeme ∧
          env.modules.names home .class place.lexeme = true ∧
          (home = id ↔ env.namesEnum place.lexeme = false) := by
  have housed := reached.housed
  obtain ⟨id, chooses, rfl⟩ := Environment.resolveDatatype_chooses kind plain resolved
  refine ⟨id, rfl, chooses.declares housed, chooses.typeHome housed, fun full makes => ?_⟩
  obtain ⟨home, rfl, made⟩ := Environment.resolveClass_eq_ok plain makes
  have named : env.modules.names home .class place.lexeme = true := by
    rcases made with ⟨c, found, own⟩ | ⟨_, located⟩
    · exact own ▸ (housed.home_of_class? found).1
    · exact Environment.locate_holds located
  exact ⟨home, rfl, named, chooses.makes housed plain named made⟩

-- The parameter of `f` is of the enum around its module, though the module has a class of the name.
theorem resolveDatatype_home_enum :
    let tokens := (programTokens "module a { enum E { A; } module b { class E { } fn f (E x) { } } }"
      false).toOption.getD []
    let env := ((declarationsStart {} 0 tokens).steps 7).environment
    ∃ place type id, env.resolveDatatype place false = .ok type ∧
      type = (Datatype.named (env.modules.qualify id place.lexeme)).withNullable false ∧
      (env.typeHome place.lexeme = .ok id ↔ ¬env.Strays place.lexeme id) := by
  intro tokens env
  have found : ((tokens[19]?).map fun place =>
      (place.is .identifier, place.lexeme, (env.resolveDatatype place false).isOk)) =
        some (true, "E", true) := by decide +kernel
  obtain ⟨place, _, same⟩ := Option.map_eq_some_iff.mp found
  simp only [Prod.mk.injEq] at same
  obtain ⟨kind, lexeme, isOk⟩ := same
  cases resolved : env.resolveDatatype place false with
  | error => simp [resolved, Except.isOk, Except.toBool] at isOk
  | ok type =>
      have plain : isDotted place.lexeme = false := by
        rw [lexeme]
        decide
      obtain ⟨id, same, _, home, _⟩ := resolveDatatype_home (reached_steps {} 0 tokens 7).1
        (by simpa [Token.is] using kind) plain resolved
      exact ⟨place, type, id, resolved, same, home⟩

/-- A type name passes by the class of the innermost module and is taken for an enum farther out. -/
theorem enumAround_chosen :
    let tokens := (programTokens "module a { enum E { A; } module b { class E { } fn f (E x) { } } }"
      false).toOption.getD []
    let env := ((declarationsStart {} 0 tokens).steps 7).environment
    ((tokens[19]?).map fun place => (env.resolveDatatype place false).toOption) =
      some (some (Datatype.named "a.E")) ∧
      (env.typeHome "E").toOption = some ⟨2⟩ ∧ env.modules.qualify ⟨2⟩ "E" = "a.b.E" := by
  decide +kernel

end Analysis

end MiLanguage
