import MiLanguage.Proofs.ModulePaths
import MiLanguage.Proofs.Outline.Basic
import Mathlib.Data.List.Count

set_option autoImplicit false

namespace MiLanguage

/-- What a declaration puts into a module, without its types and its body. A variable or a function
that belongs to a class has that class as its owner. -/
inductive Entry where
  | variable (owner : Option String) (name : String) (valued : Bool)
  | function (owner : Option String) (name : String)
  | constructor (owner : String)
  | «class» (name : String)
  | enum (name : String) (members : List String)
  deriving DecidableEq, Repr

namespace SymbolTable

variable {α : Type}

def variableEntries (t : SymbolTable Variable) (owner : Option String) : List Entry :=
  t.entries.map fun (name, v) => .variable owner name v.value.isSome

end SymbolTable

-- The names of the functions, each as often as it has overloads.
def FunctionTable.entries (t : FunctionTable) (owner : Option String) : List Entry :=
  t.table.entries.flatMap fun (name, overloads) => overloads.map fun _ => .function owner name

def ClassDeclaration.entries (c : ClassDeclaration) (owner : String) : List Entry :=
  c.fields.variableEntries (some owner) ++ c.methods.entries (some owner) ++
    (c.constructor.map fun _ => .constructor owner).toList

def Members.entries (m : Members) : List Entry :=
  m.globals.variableEntries none ++ m.functions.entries none ++
    m.classes.entries.flatMap (fun (name, c) => .class name :: c.entries name) ++
    m.enums.entries.map fun (name, e) => .enum name e.members

-- What is declared directly in the module at the end of a path.
def ModuleTree.entriesAt (t : ModuleTree) (path : List String) : List Entry :=
  match t.at? path with
  | some id => (t.get id).members.entries
  | none => []

namespace Outline

-- A statement without its modifiers.
def lead (tokens : List Token) : List Token := tokens.dropWhile (·.kind.isModifier)

-- The keyword at the head of a statement and the word behind it.
def title? (tokens : List Token) : Option (Keyword × String) :=
  match lead tokens with
  | head :: name :: _ =>
      match head.kind with
      | .keyword k => some (k, name.lexeme)
      | _ => none
  | _ => none

-- What a statement or the header of a block declares where `owner` is the class around it, classes
-- and enums aside.
def entries (owner : Option String) (tokens : List Token) : List Entry :=
  match lead tokens with
  | head :: name :: rest =>
      match head.kind with
      | .keyword .fn => [.function owner name.lexeme]
      | .keyword .new => owner.toList.map .constructor
      | .keyword _ => []
      | _ => [.variable owner name.lexeme (rest.head?.any (·.is .assign))]
  | _ => []

-- What the body of a class declares.
def classEntries (owner : String) : Outline → List Entry
  | nil => []
  | statement tokens rest => entries (some owner) tokens ++ rest.classEntries owner
  | block header _ _ rest => entries (some owner) header ++ rest.classEntries owner

-- The names in the body of an enum.
def memberNames : Outline → List String
  | nil => []
  | statement tokens rest =>
      (tokens.filter (·.kind = .identifier)).map Token.lexeme ++ rest.memberNames
  | block _ _ _ rest => rest.memberNames

-- What a text inside of the module at `path` declares, each with the path of its own module.
def declared (path : List String) : Outline → List (List String × Entry)
  | nil => []
  | statement tokens rest => (entries none tokens).map (path, ·) ++ rest.declared path
  | block header inner _ rest =>
      (match title? header with
      | some (.module, name) => inner.declared (path ++ [name])
      | some (.class, name) => (.class name :: inner.classEntries name).map (path, ·)
      | some (.enum, name) => [(path, .enum name inner.memberNames)]
      | _ => (entries none header).map (path, ·)) ++ rest.declared path

-- The modules that a text inside of the module at `path` opens.
def modulePaths (path : List String) : Outline → List (List String)
  | nil => []
  | statement _ rest => rest.modulePaths path
  | block header inner _ rest =>
      (match title? header with
      | some (.module, name) => (path ++ [name]) :: inner.modulePaths (path ++ [name])
      | _ => []) ++ rest.modulePaths path

-- The statement does not open a module, a class or an enum.
def Untitled (tokens : List Token) : Prop :=
  ∀ keyword name, title? tokens = some (keyword, name) →
    keyword ≠ .module ∧ keyword ≠ .class ∧ keyword ≠ .enum

-- The definition of a variable goes on behind its name.
def Defined (tokens : List Token) : Prop :=
  ∀ head tail, lead tokens = head :: tail → startsVariable head = true → 2 ≤ tail.length

-- All definitions outside of bodies are.
def Complete : Outline → Prop
  | nil => True
  | statement tokens rest => Defined tokens ∧ rest.Complete
  | block header inner _ rest =>
      (∀ name, title? header = some (.module, name) ∨ title? header = some (.class, name) →
        inner.Complete) ∧ rest.Complete

theorem Untitled.complete {header : List Token} {rest : Outline} (untitled : Untitled header)
    (inner : Outline) (brace : Token) (complete : rest.Complete) :
    (block header inner brace rest).Complete := by
  refine ⟨?_, complete⟩
  rintro name (title | title)
  · exact absurd rfl (untitled _ _ title).1
  · exact absurd rfl (untitled _ _ title).2.1

theorem Untitled.block {header : List Token} (untitled : Untitled header) (path : List String)
    (inner : Outline) (brace : Token) (rest : Outline) :
    (block header inner brace rest).declared path =
        (entries none header).map (path, ·) ++ rest.declared path ∧
      (block header inner brace rest).modulePaths path = rest.modulePaths path := by
  cases title : title? header with
  | none => simp [declared, modulePaths, title]
  | some found =>
      obtain ⟨keyword, name⟩ := found
      obtain ⟨noModule, noClass, noEnum⟩ := untitled keyword name title
      cases keyword <;> first | contradiction | simp [declared, modulePaths, title]

theorem lead_of_read {first head : Token} {tail rest : List Token} {mods : LeadingModifiers}
    (read : LeadingModifiers.read (first :: tail) = .ok (mods, head :: rest)) :
    lead (first :: tail) = head :: rest := by
  obtain ⟨whole, modifiers, plain⟩ := LeadingModifiers.read_append read
  rw [lead, whole, List.dropWhile_append_of_pos modifiers, List.dropWhile_cons_of_neg]
  simp [plain head rfl]

end Outline

namespace SymbolTable

variable {α β : Type} [BEq β] {t : SymbolTable α} {name : String}

-- The entries but the one of a name.
theorem exists_rest (t : SymbolTable α) (name : String) :
    ∃ rest, t.entries.Perm (((t.find? name).map (Prod.mk name)).toList ++ rest) ∧
      ∀ value, (t.insert name value).entries.Perm ((name, value) :: rest) := by
  obtain ⟨entries, sorted⟩ := t
  unfold find? insert
  simp only
  induction entries with
  | nil => exact ⟨[], by simp, fun value => .refl _⟩
  | cons head entries ih =>
      obtain ⟨n, v⟩ := head
      obtain ⟨least, sorted⟩ := List.pairwise_cons.mp sorted
      obtain ⟨rest, whole, inserted⟩ := ih sorted
      by_cases same : name = n
      · subst same
        refine ⟨entries, by simp, fun value => ?_⟩
        simp [insertEntry]
      · by_cases before : name < n
        · have fresh : entries.lookup name = none := by
            rw [List.lookup_eq_none_iff]
            intro entry member
            have after := String.lt_trans before (least entry member)
            exact bne_iff_ne.mpr fun same => String.lt_irrefl _ (same ▸ after)
          refine ⟨(n, v) :: entries, ?_, fun value => ?_⟩
          · simp [lookup_cons, same, fresh]
          · simp [insertEntry, before]
        · refine ⟨(n, v) :: rest, ?_, fun value => ?_⟩
          · rw [lookup_cons, if_neg same]
            exact (whole.cons _).trans List.perm_middle.symm
          · simp only [insertEntry, before, same, if_false]
            exact ((inserted value).cons _).trans (.swap _ _ _)

theorem find?_of_mem {value : α} (member : (name, value) ∈ t.entries) :
    t.find? name = some value := by
  obtain ⟨entries, sorted⟩ := t
  unfold find?
  simp only at member ⊢
  induction entries with
  | nil => cases member
  | cons head entries ih =>
      obtain ⟨least, sorted⟩ := List.pairwise_cons.mp sorted
      rw [lookup_cons]
      rcases List.mem_cons.mp member with rfl | member
      · rw [if_pos rfl]
      · have after := least _ member
        rw [if_neg, ih sorted member]
        rintro rfl
        exact String.lt_irrefl _ after

theorem mem_variableEntries {t : SymbolTable Variable} {owner : Option String} {entry : Entry}
    (member : entry ∈ t.variableEntries owner) :
    ∃ name v, t.find? name = some v ∧ entry = .variable owner name v.value.isSome := by
  obtain ⟨⟨name, v⟩, found, rfl⟩ := List.mem_map.mp member
  exact ⟨name, v, find?_of_mem found, rfl⟩

theorem count_insert (fresh : t.find? name = none) (value : α) (g : String × α → List β) (b : β) :
    ((t.insert name value).entries.flatMap g).count b =
      (t.entries.flatMap g).count b + (g (name, value)).count b := by
  obtain ⟨rest, whole, inserted⟩ := t.exists_rest name
  rw [((inserted value).flatMap_right g).count_eq, (whole.flatMap_right g).count_eq, fresh]
  simp [Nat.add_comm]

theorem count_modify {f : α → α} {g : String × α → List β}
    (keeps : ∀ value b, (g (name, f value)).count b = (g (name, value)).count b) (b : β) :
    ((t.modify name f).entries.flatMap g).count b = (t.entries.flatMap g).count b := by
  obtain ⟨rest, whole, inserted⟩ := t.exists_rest name
  unfold modify
  split
  next value found =>
    rw [((inserted (f value)).flatMap_right g).count_eq, (whole.flatMap_right g).count_eq, found]
    simp [keeps]
  next => rfl

theorem count_variableEntries (t : SymbolTable Variable) (owner : Option String) (v : Variable)
    (fresh : t.find? name = none) (entry : Entry) :
    ((t.insert name v).variableEntries owner).count entry =
      (t.variableEntries owner).count entry +
        [Entry.variable owner name v.value.isSome].count entry := by
  unfold variableEntries
  rw [List.map_eq_flatMap, List.map_eq_flatMap]
  exact count_insert fresh v _ entry

end SymbolTable

theorem FunctionTable.count_add? {t grown : FunctionTable} {f : FunctionDefinition}
    (added : t.add? f = some grown) (owner : Option String) (entry : Entry) :
    (grown.entries owner).count entry =
      (t.entries owner).count entry + [Entry.function owner f.name].count entry := by
  unfold add? at added
  split at added
  next => cases added
  next =>
    cases added
    obtain ⟨rest, whole, inserted⟩ := t.table.exists_rest f.name
    unfold entries
    rw [((inserted _).flatMap_right _).count_eq, (whole.flatMap_right _).count_eq]
    unfold overloads
    cases t.table.find? f.name with
    | none =>
        simp only [Option.getD_none, Option.map_none, Option.toList_none, List.nil_append,
          List.flatMap_cons, List.map_cons, List.map_nil, List.count_append]
        omega
    | some found =>
        simp only [Option.getD_some, Option.map_some, Option.toList_some, List.cons_append,
          List.nil_append, List.flatMap_cons, List.map_append, List.map_cons, List.map_nil,
          List.count_append]
        omega

theorem FunctionTable.mem_entries {t : FunctionTable} {owner : Option String} {entry : Entry}
    (member : entry ∈ t.entries owner) : ∃ name, entry = .function owner name := by
  simp only [entries, List.mem_flatMap, List.mem_map] at member
  obtain ⟨⟨name, _⟩, _, _, _, same⟩ := member
  exact ⟨name, same.symm⟩

theorem ClassDeclaration.mem_entries {c : ClassDeclaration} {owner : String} {entry : Entry}
    (member : entry ∈ c.entries owner) :
    (∃ name v, c.fields.find? name = some v ∧ entry = .variable (some owner) name v.value.isSome) ∨
      (∃ name, entry = .function (some owner) name) ∨ entry = .constructor owner := by
  simp only [entries, List.mem_append] at member
  rcases member with (field | method) | constructor
  · exact .inl (SymbolTable.mem_variableEntries field)
  · exact .inr (.inl (FunctionTable.mem_entries method))
  · simp only [Option.mem_toList, Option.map_eq_some_iff] at constructor
    obtain ⟨_, _, same⟩ := constructor
    exact .inr (.inr same.symm)

namespace Members

variable {m : Members} {name : String} (entry : Entry)

theorem count_insertVariable (v : Variable) (fresh : m.globals.find? name = none) :
    ({ m with globals := m.globals.insert name v }.entries).count entry =
      m.entries.count entry + [Entry.variable none name v.value.isSome].count entry := by
  simp only [entries, List.count_append]
  rw [SymbolTable.count_variableEntries _ _ _ fresh]
  omega

theorem count_addFunction {functions : FunctionTable} {f : FunctionDefinition}
    (added : m.functions.add? f = some functions) :
    ({ m with functions }.entries).count entry =
      m.entries.count entry + [Entry.function none f.name].count entry := by
  simp only [entries, List.count_append]
  rw [FunctionTable.count_add? added]
  omega

theorem count_insertClass (c : ClassDeclaration) (fresh : m.classes.find? name = none) :
    ({ m with classes := m.classes.insert name c }.entries).count entry =
      m.entries.count entry + (Entry.class name :: c.entries name).count entry := by
  simp only [entries, List.count_append]
  rw [SymbolTable.count_insert fresh]
  dsimp only
  omega

theorem count_insertEnum (e : EnumDeclaration) (fresh : m.enums.find? name = none) :
    ({ m with enums := m.enums.insert name e }.entries).count entry =
      m.entries.count entry + [Entry.enum name e.members].count entry := by
  simp only [entries, List.count_append, List.map_eq_flatMap]
  rw [SymbolTable.count_insert fresh]
  dsimp only
  omega

section Member

variable {entry}

theorem mem_entries (member : entry ∈ m.entries) :
    (∃ name v, m.globals.find? name = some v ∧ entry = .variable none name v.value.isSome) ∨
      (∃ name, entry = .function none name) ∨
      (∃ name c, m.classes.find? name = some c ∧ (entry = .class name ∨ entry ∈ c.entries name)) ∨
      ∃ name e, m.enums.find? name = some e ∧ entry = .enum name e.members := by
  simp only [entries, List.mem_append, List.mem_flatMap, List.mem_map, List.mem_cons] at member
  rcases member with ((global | function) | ⟨⟨name, c⟩, found, inside⟩) | ⟨⟨name, e⟩, found, same⟩
  · exact .inl (SymbolTable.mem_variableEntries global)
  · exact .inr (.inl (FunctionTable.mem_entries function))
  · exact .inr (.inr (.inl ⟨name, c, SymbolTable.find?_of_mem found, inside⟩))
  · exact .inr (.inr (.inr ⟨name, e, SymbolTable.find?_of_mem found, same.symm⟩))

theorem mem_variable {valued : Bool} (member : .variable none name valued ∈ m.entries) :
    ∃ v, m.globals.find? name = some v ∧ v.value.isSome = valued := by
  obtain ⟨_, v, found, same⟩ | ⟨_, same⟩ | ⟨_, _, _, same | inside⟩ | ⟨_, _, _, same⟩ :=
    mem_entries member
  · cases same
    exact ⟨v, found, rfl⟩
  · cases same
  · cases same
  · obtain ⟨_, _, _, same⟩ | ⟨_, same⟩ | same := ClassDeclaration.mem_entries inside
    all_goals cases same
  · cases same

theorem mem_field {owner : String} {valued : Bool}
    (member : .variable (some owner) name valued ∈ m.entries) :
    ∃ c v, m.classes.find? owner = some c ∧ c.fields.find? name = some v ∧
      v.value.isSome = valued := by
  obtain ⟨_, _, _, same⟩ | ⟨_, same⟩ | ⟨_, c, found, same | inside⟩ | ⟨_, _, _, same⟩ :=
    mem_entries member
  · cases same
  · cases same
  · cases same
  · obtain ⟨_, v, field, same⟩ | ⟨_, same⟩ | same := ClassDeclaration.mem_entries inside
    · cases same
      exact ⟨c, v, found, field, rfl⟩
    · cases same
    · cases same
  · cases same

theorem mem_class (member : .class name ∈ m.entries) : (m.classes.find? name).isSome = true := by
  obtain ⟨_, _, _, same⟩ | ⟨_, same⟩ | ⟨_, c, found, same | inside⟩ | ⟨_, _, _, same⟩ :=
    mem_entries member
  · cases same
  · cases same
  · cases same
    exact Option.isSome_of_eq_some found
  · obtain ⟨_, _, _, same⟩ | ⟨_, same⟩ | same := ClassDeclaration.mem_entries inside
    all_goals cases same
  · cases same

theorem mem_enum {members : List String} (member : .enum name members ∈ m.entries) :
    (m.enums.find? name).isSome = true := by
  obtain ⟨_, _, _, same⟩ | ⟨_, same⟩ | ⟨_, _, _, same | inside⟩ | ⟨_, e, found, same⟩ :=
    mem_entries member
  · cases same
  · cases same
  · cases same
  · obtain ⟨_, _, _, same⟩ | ⟨_, same⟩ | same := ClassDeclaration.mem_entries inside
    all_goals cases same
  · cases same
    exact Option.isSome_of_eq_some found

end Member

end Members

namespace ModuleTree

variable {t : ModuleTree} {id : ModuleId} {path : List String}

theorem count_entriesAt {f : Members → Members} {added : List Entry} (arena : t.Arena)
    (found : t.at? path = some id)
    (gains : ∀ entry, (f (t.get id).members).entries.count entry =
      (t.get id).members.entries.count entry + added.count entry)
    (sought : List String) (entry : Entry) :
    ((t.modifyMembers id f).entriesAt sought).count entry =
      (t.entriesAt sought).count entry + (added.map (path, ·)).count (sought, entry) := by
  have inside := ((at?_eq_some arena).mp found).1
  have counted : (added.map (path, ·)).count (path, entry) = added.count entry := by
    apply List.count_map_of_injective
    intro a b same
    exact (Prod.mk.inj same).2
  unfold entriesAt
  rw [at?_modifyMembers]
  by_cases here : sought = path
  · rw [here, found, counted]
    simp only
    rw [members_modifyMembers, if_pos ⟨rfl, inside⟩]
    exact gains entry
  · have uncounted : (added.map (path, ·)).count (sought, entry) = 0 := by
      rw [List.count_eq_zero]
      intro member
      obtain ⟨_, _, same⟩ := List.mem_map.mp member
      exact here (Prod.mk.inj same).1.symm
    rw [uncounted]
    cases there : t.at? sought with
    | none => rfl
    | some other =>
        simp only
        rw [members_modifyMembers, if_neg, Nat.add_zero]
        rintro ⟨rfl, _⟩
        rw [(at?_eq_some arena).mp there |>.2.symm, (at?_eq_some arena).mp found |>.2.symm] at here
        exact here rfl

-- A module that is new has nothing in it.
theorem entriesAt_addChild (arena : t.Arena) (found : t.at? path = some id) (name : String)
    (sought : List String) : (t.addChild id name).2.entriesAt sought = t.entriesAt sought := by
  cases known : t.child? id name with
  | some child => rw [addChild_of_found known]
  | none =>
      unfold entriesAt
      rw [at?_addChild arena found]
      by_cases new : sought = path ++ [name]
      · have missing : t.at? sought = none := by
          unfold at? at found ⊢
          rw [new, List.foldlM_append, found]
          simpa using known
        have outside : t.modules[t.size]? = none := List.getElem?_eq_none (Nat.le_refl _)
        have empty : (t.get ⟨t.size⟩).members = {} := by
          rw [get, outside]
          rfl
        rw [if_pos new, missing, addChild_id known]
        simp only [members_addChild, empty]
        rfl
      · rw [if_neg new]
        cases t.at? sought <;> simp [members_addChild]

end ModuleTree

namespace ClassDeclaration

variable {c : ClassDeclaration} {owner : String} (entry : Entry)

theorem count_insertField {name : String} (v : Variable) (fresh : c.fields.find? name = none) :
    ({ c with fields := c.fields.insert name v }.entries owner).count entry =
      (c.entries owner).count entry +
        [Entry.variable (some owner) name v.value.isSome].count entry := by
  simp only [entries, List.count_append]
  rw [SymbolTable.count_variableEntries _ _ _ fresh]
  omega

theorem count_addMethod {methods : FunctionTable} {f : FunctionDefinition}
    (added : c.methods.add? f = some methods) :
    ({ c with methods }.entries owner).count entry =
      (c.entries owner).count entry + [Entry.function (some owner) f.name].count entry := by
  simp only [entries, List.count_append]
  rw [FunctionTable.count_add? added]
  omega

theorem count_addConstructor (f : FunctionDefinition) (unset : c.constructor = none) :
    ({ c with constructor := some f }.entries owner).count entry =
      (c.entries owner).count entry + [Entry.constructor owner].count entry := by
  simp only [entries, List.count_append, unset, Option.map_none, Option.map_some, Option.toList_none,
    Option.toList_some, List.count_nil, Nat.add_zero]

end ClassDeclaration

end MiLanguage
