import MiLanguage.Proofs.FunctionTable
import MiLanguage.Scope

set_option autoImplicit false

namespace MiLanguage

namespace SymbolTable

variable {α : Type}

theorem insertEntry_insertEntry (name : String) (value earlier : α) (entries : List (String × α)) :
    insertEntry name value (insertEntry name earlier entries) = insertEntry name value entries := by
  have irrefl : ¬name < name := String.lt_irrefl name
  induction entries with
  | nil => simp only [insertEntry, irrefl, if_true, if_false]
  | cons head rest ih =>
      obtain ⟨n, v⟩ := head
      by_cases before : name < n
      · simp only [insertEntry, before, irrefl, if_true, if_false]
      · by_cases same : name = n
        · subst same
          simp only [insertEntry, irrefl, if_true, if_false]
        · simp only [insertEntry, before, same, if_false, ih]

theorem insert_insert (t : SymbolTable α) (name : String) (value earlier : α) :
    (t.insert name earlier).insert name value = t.insert name value := by
  unfold insert
  congr 1
  exact insertEntry_insertEntry name value earlier t.entries

end SymbolTable

namespace ModuleTree

def class? (t : ModuleTree) (id : ModuleId) (name : String) : Option ClassDeclaration :=
  (t.get id).members.classes.find? name

def enum? (t : ModuleTree) (id : ModuleId) (name : String) : Option EnumDeclaration :=
  (t.get id).members.enums.find? name

def definition? (t : ModuleTree) : BodyOwner → Option FunctionDefinition
  | .function (.module id) name types => (t.get id).members.functions.find? name types
  | .function (.inClass id c) name types => (t.class? id c).bind (·.methods.find? name types)
  | .constructor id c => (t.class? id c).bind ClassDeclaration.constructor

/-- The functions, methods and constructors in the tree. -/
inductive Holds (t : ModuleTree) : BodyOwner → FunctionDefinition → Prop
  | function {id : ModuleId} {name : String} {d : FunctionDefinition} :
      d ∈ t.overloads id name → Holds t (.function (.module id) name d.paramTypes) d
  | method {id : ModuleId} {c : ClassDeclaration} {className name : String}
      {d : FunctionDefinition} :
      t.class? id className = some c → d ∈ c.methods.overloads name →
      Holds t (.function (.inClass id className) name d.paramTypes) d
  | constructor {id : ModuleId} {c : ClassDeclaration} {className : String}
      {d : FunctionDefinition} :
      t.class? id className = some c → c.constructor = some d →
      Holds t (.constructor id className) d

/-- No two functions of one owner go by the same name and parameter types, and the children of a
module are in the tree. -/
structure Proper (t : ModuleTree) : Prop where
  functions : ∀ id, (t.get id).members.functions.Keyed
  classes : ∀ id name c, t.class? id name = some c → c.name = name ∧ c.methods.Keyed
  root : 0 < t.size
  children : ∀ id name child, t.child? id name = some child → child.index < t.size

variable {t : ModuleTree} {o : BodyOwner} {d : FunctionDefinition}

theorem Holds.definition? (proper : t.Proper) (holds : t.Holds o d) : t.definition? o = some d := by
  cases holds with
  | function member => exact FunctionTable.find?_of_mem (proper.functions _) member
  | method found member =>
      simp only [ModuleTree.definition?, found, Option.bind_some]
      exact FunctionTable.find?_of_mem (proper.classes _ _ _ found).2 member
  | constructor found same => simp [ModuleTree.definition?, found, same]

theorem holds_of_definition? (found : t.definition? o = some d) : t.Holds o d := by
  cases o with
  | function owner name types =>
      cases owner with
      | module id =>
          obtain ⟨member, rfl⟩ := FunctionTable.mem_of_find? found
          exact .function member
      | inClass id className =>
          obtain ⟨c, inTree, found⟩ := Option.bind_eq_some_iff.mp found
          obtain ⟨member, rfl⟩ := FunctionTable.mem_of_find? found
          exact .method inTree member
  | constructor id className =>
      obtain ⟨c, inTree, found⟩ := Option.bind_eq_some_iff.mp found
      exact .constructor inTree found

theorem get_empty (id : ModuleId) :
    (empty.get id).members = {} ∧ (empty.get id).children = .empty := by
  obtain ⟨index⟩ := id
  cases index <;> exact ⟨rfl, rfl⟩

theorem proper_empty : empty.Proper := by
  refine ⟨?_, ?_, by simp [empty, size], ?_⟩
  · intro id
    rw [(get_empty id).1]
    exact FunctionTable.keyed_empty
  · intro id name c found
    unfold class? at found
    rw [(get_empty id).1] at found
    cases found
  · intro id name child found
    unfold child? at found
    rw [(get_empty id).2] at found
    cases found

theorem definition?_empty (o : BodyOwner) : empty.definition? o = none := by
  have classes : ∀ id name, empty.class? id name = none := by
    intro id name
    unfold class?
    rw [(get_empty id).1]
    rfl
  cases o with
  | constructor => simp [ModuleTree.definition?, classes]
  | function owner =>
      cases owner with
      | module => simp [ModuleTree.definition?, get_empty, FunctionTable.find?]
      | inClass => simp [ModuleTree.definition?, classes]

section Modify

variable {id : ModuleId}

theorem get_modify_eq (t : ModuleTree) (id other : ModuleId) (f : Module → Module) :
    (t.modify id f).get other =
      if other = id ∧ id.index < t.size then f (t.get id) else t.get other := by
  by_cases inside : id.index < t.size
  · rw [get_modify t id other f inside]
    simp [inside]
  · have same : t.modify id f = t := by
      unfold modify
      rw [List.modify_eq_self (by simpa [size] using inside)]
    rw [same, if_neg (fun both => inside both.2)]

theorem members_modifyMembers (t : ModuleTree) (id other : ModuleId) (f : Members → Members) :
    ((t.modifyMembers id f).get other).members =
      if other = id ∧ id.index < t.size then f (t.get id).members else (t.get other).members := by
  unfold modifyMembers
  rw [get_modify_eq]
  split <;> rfl

theorem child?_modifyMembers (t : ModuleTree) (id other : ModuleId) (f : Members → Members)
    (name : String) : (t.modifyMembers id f).child? other name = t.child? other name := by
  unfold child? modifyMembers
  rw [get_modify_eq]
  split
  next same => rw [same.1]
  next => rfl

/-- The same functions, classes and enums in every module. -/
structure Alike (old new : ModuleTree) : Prop where
  functions : ∀ id, (new.get id).members.functions = (old.get id).members.functions
  classes : ∀ id name, new.class? id name = old.class? id name
  enums : ∀ id name, new.enum? id name = old.enum? id name

theorem Alike.definition? {new : ModuleTree} (alike : t.Alike new) (o : BodyOwner) :
    new.definition? o = t.definition? o := by
  cases o with
  | function owner => cases owner <;> simp [ModuleTree.definition?, alike.functions, alike.classes]
  | constructor => simp [ModuleTree.definition?, alike.classes]

theorem alike_modifyMembers {f : Members → Members} (functions : ∀ m, (f m).functions = m.functions)
    (classes : ∀ m, (f m).classes = m.classes) (enums : ∀ m, (f m).enums = m.enums) :
    t.Alike (t.modifyMembers id f) := by
  constructor
  · intro other
    rw [members_modifyMembers]
    split
    next same => rw [functions, same.1]
    next => rfl
  · intro other name
    unfold class?
    rw [members_modifyMembers]
    split
    next same => rw [classes, same.1]
    next => rfl
  · intro other name
    unfold enum?
    rw [members_modifyMembers]
    split
    next same => rw [enums, same.1]
    next => rfl

end Modify

-- What is known under `o` once one more function is declared.
def afterAdding (added : Option (BodyOwner × FunctionDefinition)) (o : BodyOwner)
    (before : Option FunctionDefinition) : Option FunctionDefinition :=
  match added with
  | some (o', d) => if o = o' then some d else before
  | none => before

/-- What one statement of the first pass declares: at most one function, and nothing is lost. -/
structure Declares (old new : ModuleTree) (added : Option (BodyOwner × FunctionDefinition)) :
    Prop where
  proper : new.Proper
  size : old.size ≤ new.size
  children : ∀ id name child, old.child? id name = some child → new.child? id name = some child
  classes : ∀ id name, (old.class? id name).isSome = true → (new.class? id name).isSome = true
  enums : ∀ id name, (old.enum? id name).isSome = true → (new.enum? id name).isSome = true
  fresh : ∀ o d, added = some (o, d) → old.definition? o = none
  definitions : ∀ o, new.definition? o =
    afterAdding added o (old.definition? o)

/-- Nothing that is declared is lost or changed. -/
structure Extends (old new : ModuleTree) : Prop where
  children : ∀ id name child, old.child? id name = some child → new.child? id name = some child
  classes : ∀ id name, (old.class? id name).isSome = true → (new.class? id name).isSome = true
  enums : ∀ id name, (old.enum? id name).isSome = true → (new.enum? id name).isSome = true
  definitions : ∀ o d, old.definition? o = some d → new.definition? o = some d

theorem extends_refl (t : ModuleTree) : t.Extends t :=
  ⟨fun _ _ _ found => found, fun _ _ found => found, fun _ _ found => found, fun _ _ found => found⟩

theorem Extends.trans {a b c : ModuleTree} (first : a.Extends b) (second : b.Extends c) :
    a.Extends c :=
  ⟨fun id name child found => second.children id name child (first.children id name child found),
    fun id name found => second.classes id name (first.classes id name found),
    fun id name found => second.enums id name (first.enums id name found),
    fun o d found => second.definitions o d (first.definitions o d found)⟩

theorem Declares.extends {old new : ModuleTree} {added : Option (BodyOwner × FunctionDefinition)}
    (declares : old.Declares new added) : old.Extends new := by
  refine ⟨declares.children, declares.classes, declares.enums, ?_⟩
  intro o d found
  rw [declares.definitions]
  unfold afterAdding
  split
  next o' d' =>
    have fresh := declares.fresh o' d' rfl
    split
    next same =>
      rw [← same, found] at fresh
      cases fresh
    next => exact found
  next => exact found

theorem Declares.cases_some {old new : ModuleTree}
    {added : Option (BodyOwner × FunctionDefinition)} (declares : old.Declares new added)
    (found : new.definition? o = some d) :
    (added = some (o, d) ∧ old.definition? o = none) ∨ old.definition? o = some d := by
  rw [declares.definitions] at found
  unfold afterAdding at found
  split at found
  next o' d' =>
    split at found
    next same =>
      cases found
      cases same
      exact .inl ⟨rfl, declares.fresh _ _ rfl⟩
    next => exact .inr found
  next => exact .inr found

theorem Extends.none_of_none {old new : ModuleTree} (grows : old.Extends new)
    (absent : new.definition? o = none) : old.definition? o = .none := by
  cases found : old.definition? o with
  | none => rfl
  | some d =>
      rw [grows.definitions o d found] at absent
      cases absent

theorem declares_refl (proper : t.Proper) : t.Declares t none :=
  ⟨proper, Nat.le_refl _, fun _ _ _ found => found, fun _ _ found => found, fun _ _ found => found,
    by simp, fun _ => rfl⟩

section Declare

variable {id : ModuleId} {added : Option (BodyOwner × FunctionDefinition)}

theorem class?_modifyMembers (t : ModuleTree) (id other : ModuleId) (f : Members → Members)
    (name : String) :
    (t.modifyMembers id f).class? other name =
      if other = id ∧ id.index < t.size then (f (t.get id).members).classes.find? name
      else t.class? other name := by
  unfold class?
  rw [members_modifyMembers]
  split <;> rfl

theorem enum?_modifyMembers (t : ModuleTree) (id other : ModuleId) (f : Members → Members)
    (name : String) :
    (t.modifyMembers id f).enum? other name =
      if other = id ∧ id.index < t.size then (f (t.get id).members).enums.find? name
      else t.enum? other name := by
  unfold enum?
  rw [members_modifyMembers]
  split <;> rfl

theorem declares_modifyMembers {f : Members → Members} (proper : t.Proper)
    (functions : (f (t.get id).members).functions.Keyed)
    (methods : ∀ name c, (f (t.get id).members).classes.find? name = some c →
      c.name = name ∧ c.methods.Keyed)
    (classes : ∀ name, (t.class? id name).isSome = true →
      ((f (t.get id).members).classes.find? name).isSome = true)
    (enums : ∀ name, (t.enum? id name).isSome = true →
      ((f (t.get id).members).enums.find? name).isSome = true)
    (fresh : ∀ o d, added = some (o, d) → t.definition? o = none)
    (definitions : ∀ o, (t.modifyMembers id f).definition? o =
      afterAdding added o (t.definition? o)) : t.Declares (t.modifyMembers id f) added := by
  refine ⟨⟨?_, ?_, by simpa using proper.root, ?_⟩, by simp, ?_, ?_, ?_, fresh, definitions⟩
  · intro other
    rw [members_modifyMembers]
    split
    next => exact functions
    next => exact proper.functions other
  · intro other name c found
    rw [class?_modifyMembers] at found
    split at found
    next => exact methods name c found
    next => exact proper.classes other name c found
  · intro other name child found
    rw [child?_modifyMembers] at found
    rw [size_modifyMembers]
    exact proper.children other name child found
  · intro other name child found
    rwa [child?_modifyMembers]
  · intro other name found
    rw [class?_modifyMembers]
    split
    next same =>
      rw [same.1] at found
      exact classes name found
    next => exact found
  · intro other name found
    rw [enum?_modifyMembers]
    split
    next same =>
      rw [same.1] at found
      exact enums name found
    next => exact found

theorem modifyMembers_modifyMembers (t : ModuleTree) (id : ModuleId) (f g : Members → Members) :
    (t.modifyMembers id f).modifyMembers id g = t.modifyMembers id fun m => g (f m) := by
  unfold modifyMembers modify
  rw [List.modify_modify_eq]
  rfl

theorem insertClass_insertClass {c earlier : ClassDeclaration} (name : c.name = earlier.name)
    (t : ModuleTree) (id : ModuleId) :
    (t.insertClass id earlier).insertClass id c = t.insertClass id c := by
  unfold insertClass
  rw [modifyMembers_modifyMembers, name]
  simp only [SymbolTable.insert_insert]

theorem insertEnum_insertEnum {e earlier : EnumDeclaration} (name : e.name = earlier.name)
    (t : ModuleTree) (id : ModuleId) :
    (t.insertEnum id earlier).insertEnum id e = t.insertEnum id e := by
  unfold insertEnum
  rw [modifyMembers_modifyMembers, name]
  simp only [SymbolTable.insert_insert]

@[simp] theorem size_insertClass (t : ModuleTree) (id : ModuleId) (c : ClassDeclaration) :
    (t.insertClass id c).size = t.size := size_modifyMembers t id _

@[simp] theorem size_insertEnum (t : ModuleTree) (id : ModuleId) (e : EnumDeclaration) :
    (t.insertEnum id e).size = t.size := size_modifyMembers t id _

theorem declares_insertVariable (proper : t.Proper) (id : ModuleId) (v : Variable) :
    t.Declares (t.insertVariable id v) none := by
  have alike : t.Alike (t.insertVariable id v) :=
    alike_modifyMembers (fun _ => rfl) (fun _ => rfl) (fun _ => rfl)
  exact declares_modifyMembers proper (proper.functions id) (proper.classes id)
    (fun _ found => found) (fun _ found => found) (by simp) alike.definition?

theorem class?_insertClass (inside : id.index < t.size) (c : ClassDeclaration) (other : ModuleId)
    (name : String) :
    (t.insertClass id c).class? other name =
      if other = id ∧ name = c.name then some c else t.class? other name := by
  unfold insertClass
  rw [class?_modifyMembers]
  by_cases same : other = id
  · subst same
    simp [inside, class?]
  · simp [same]

theorem functions_insertClass (t : ModuleTree) (id other : ModuleId) (c : ClassDeclaration) :
    ((t.insertClass id c).get other).members.functions = (t.get other).members.functions := by
  unfold insertClass
  rw [members_modifyMembers]
  split
  next same => rw [same.1]
  next => rfl

-- The functions of one class of the tree are those of `c`.
theorem definition?_insertClass (inside : id.index < t.size) (c : ClassDeclaration)
    (o : BodyOwner) :
    (t.insertClass id c).definition? o =
      match o with
      | .function (.inClass other className) name types =>
          if other = id ∧ className = c.name then c.methods.find? name types else t.definition? o
      | .constructor other className =>
          if other = id ∧ className = c.name then c.constructor else t.definition? o
      | .function (.module _) _ _ => t.definition? o := by
  cases o with
  | function owner name types =>
      cases owner with
      | module other => simp [definition?, functions_insertClass]
      | inClass other className =>
          simp only [definition?, class?_insertClass inside]
          split <;> rfl
  | constructor other className =>
      simp only [definition?, class?_insertClass inside]
      split <;> rfl

theorem declares_insertClass {c : ClassDeclaration} (proper : t.Proper) (keyed : c.methods.Keyed)
    (fresh : ∀ o d, added = some (o, d) → t.definition? o = none)
    (definitions : ∀ o, (t.insertClass id c).definition? o =
      afterAdding added o (t.definition? o)) : t.Declares (t.insertClass id c) added := by
  refine declares_modifyMembers proper (proper.functions id) ?_ ?_ (fun _ found => found) fresh
    definitions
  · intro name d found
    rw [SymbolTable.find?_insert] at found
    split at found
    next same =>
      cases found
      exact ⟨same.symm, keyed⟩
    next => exact proper.classes id name d found
  · intro name found
    rw [SymbolTable.find?_insert]
    split
    next => rfl
    next => exact found

-- A class starts without functions.
theorem declares_insertClass_fresh {c : ClassDeclaration} (proper : t.Proper)
    (inside : id.index < t.size) (absent : t.class? id c.name = none) (methods : c.methods = .empty)
    (constructor : c.constructor = .none) : t.Declares (t.insertClass id c) .none := by
  refine declares_insertClass proper (by rw [methods]; exact FunctionTable.keyed_empty) (by simp) ?_
  intro o
  rw [definition?_insertClass inside]
  cases o with
  | constructor other name =>
      dsimp only
      split
      next same => simp [definition?, afterAdding, same.1, same.2, absent, constructor]
      next => rfl
  | function owner name types =>
      cases owner with
      | module => rfl
      | inClass other className =>
          dsimp only
          split
          next same =>
            simp [definition?, afterAdding, same.1, same.2, absent, methods, FunctionTable.find?]
          next => rfl

-- The functions of a class of the tree are replaced by those of `c`.
theorem definition?_replaceClass {earlier c : ClassDeclaration} (inside : id.index < t.size)
    (found : t.class? id c.name = some earlier)
    (methods : ∀ name types, c.methods.find? name types =
      afterAdding added (.function (.inClass id c.name) name types)
        (earlier.methods.find? name types))
    (constructor : c.constructor = afterAdding added (.constructor id c.name) earlier.constructor)
    (owned : ∀ o d, added = some (o, d) →
      (∃ name types, o = .function (.inClass id c.name) name types) ∨ o = .constructor id c.name)
    (o : BodyOwner) :
    (t.insertClass id c).definition? o = afterAdding added o (t.definition? o) := by
  rw [definition?_insertClass inside]
  have others : (∀ name types, o ≠ .function (.inClass id c.name) name types) →
      o ≠ .constructor id c.name →
      t.definition? o = afterAdding added o (t.definition? o) := by
    intro nonMethod nonConstructor
    cases added with
    | none => rfl
    | some pair =>
        obtain ⟨o', d⟩ := pair
        have differs : o ≠ o' := by
          rintro rfl
          rcases owned o d rfl with ⟨name, types, same⟩ | same
          · exact nonMethod name types same
          · exact nonConstructor same
        simp [afterAdding, differs]
  cases o with
  | constructor other name =>
      dsimp only
      split
      next same =>
        obtain ⟨rfl, rfl⟩ := same
        simpa [definition?, found] using constructor
      next differs => exact others (by simp) (by simpa using differs)
  | function owner name types =>
      cases owner with
      | module => exact others (by simp) (by simp)
      | inClass other className =>
          dsimp only
          split
          next same =>
            obtain ⟨rfl, rfl⟩ := same
            simpa [definition?, found] using methods name types
          next differs =>
            refine others ?_ (by simp)
            intro name' types' same
            simp only [BodyOwner.function.injEq, Owner.inClass.injEq] at same
            exact differs same.1

theorem declares_insertEnum (proper : t.Proper) (id : ModuleId) (e : EnumDeclaration) :
    t.Declares (t.insertEnum id e) none := by
  have definitions : ∀ o, (t.insertEnum id e).definition? o = t.definition? o := by
    have functions : ∀ other,
        ((t.insertEnum id e).get other).members.functions = (t.get other).members.functions := by
      intro other
      unfold insertEnum
      rw [members_modifyMembers]
      split
      next same => rw [same.1]
      next => rfl
    have classes : ∀ other name, (t.insertEnum id e).class? other name = t.class? other name := by
      intro other name
      unfold insertEnum
      rw [class?_modifyMembers]
      split
      next same => rw [same.1]; rfl
      next => rfl
    intro o
    cases o with
    | function owner => cases owner <;> simp [definition?, functions, classes]
    | constructor => simp [definition?, classes]
  refine declares_modifyMembers proper (proper.functions id) (proper.classes id)
    (fun _ found => found) ?_ (by simp) definitions
  intro name found
  rw [SymbolTable.find?_insert]
  split
  next => rfl
  next => exact found

theorem declares_addFunction? {f : FunctionDefinition} {grown : ModuleTree} (proper : t.Proper)
    (inside : id.index < t.size) (added : t.addFunction? id f = some grown) :
    t.Declares grown (some (.function (.module id) f.name f.paramTypes, f)) := by
  obtain ⟨functions, found, rfl⟩ := Option.map_eq_some_iff.mp added
  have keyed := proper.functions id
  refine declares_modifyMembers proper (keyed.add? found) (proper.classes id)
    (fun _ found => found) (fun _ found => found) ?_ ?_
  · intro o d same
    cases same
    exact FunctionTable.find?_eq_none_of_add? keyed found
  · have classes : ∀ other name,
        (t.modifyMembers id fun m => { m with functions }).class? other name =
          t.class? other name := by
      intro other name
      rw [class?_modifyMembers]
      split
      next same => rw [same.1]; rfl
      next => rfl
    intro o
    cases o with
    | constructor => simp [definition?, afterAdding, classes]
    | function owner name types =>
        cases owner with
        | inClass => simp [definition?, afterAdding, classes]
        | module other =>
            simp only [definition?, members_modifyMembers]
            by_cases same : other = id
            · subst same
              simp only [inside, and_self, if_true, FunctionTable.find?_add? keyed found]
              simp [afterAdding]
            · simp [afterAdding, same]

-- A module without anything in it stands where there was none, and none has nothing in it either.
theorem get_append_fresh (t : ModuleTree) (name : String) (parent id : ModuleId) :
    ((⟨t.modules ++ [{ name, parent := some parent }]⟩ : ModuleTree).get id).members =
        (t.get id).members ∧
      ((⟨t.modules ++ [{ name, parent := some parent }]⟩ : ModuleTree).get id).children =
        (t.get id).children := by
  unfold get
  rw [List.getElem?_append]
  split
  next => exact ⟨rfl, rfl⟩
  next outside =>
    have absent : t.modules[id.index]? = none := List.getElem?_eq_none (by omega)
    rw [absent]
    cases id.index - t.modules.length <;> exact ⟨rfl, rfl⟩

theorem members_addChild (t : ModuleTree) (parent : ModuleId) (name : String) (id : ModuleId) :
    ((t.addChild parent name).2.get id).members = (t.get id).members := by
  unfold addChild
  split
  next => rfl
  next =>
    dsimp only
    rw [get_modify_eq]
    split
    next same =>
      rw [same.1]
      exact (get_append_fresh t name parent parent).1
    next => exact (get_append_fresh t name parent id).1

theorem alike_addChild (t : ModuleTree) (parent : ModuleId) (name : String) :
    t.Alike (t.addChild parent name).2 :=
  ⟨fun id => by rw [members_addChild], fun id other => by simp [class?, members_addChild],
    fun id other => by simp [enum?, members_addChild]⟩

theorem child?_addChild {parent : ModuleId} (inside : parent.index < t.size) (name : String)
    (id : ModuleId) (other : String) :
    (t.addChild parent name).2.child? id other =
      if id = parent ∧ other = name then some (t.addChild parent name).1 else t.child? id other := by
  unfold addChild
  split
  next child found =>
    split
    next same => rw [same.1, same.2]; exact found
    next => rfl
  next fresh =>
    have within : parent.index < t.modules.length + 1 := Nat.lt_succ_of_lt inside
    by_cases same : id = parent
    · subst same
      simp [child?, get_modify_eq, size, within, (get_append_fresh t name id id).2]
    · simp [child?, get_modify_eq, size, same, (get_append_fresh t name parent id).2]

theorem declares_addChild {parent : ModuleId} (proper : t.Proper) (inside : parent.index < t.size)
    (name : String) :
    t.Declares (t.addChild parent name).2 none ∧
      (t.addChild parent name).1.index < (t.addChild parent name).2.size := by
  have alike := t.alike_addChild parent name
  have size : t.size ≤ (t.addChild parent name).2.size ∧
      (t.addChild parent name).1.index < (t.addChild parent name).2.size := by
    unfold addChild
    split
    next child found => exact ⟨Nat.le_refl _, proper.children _ _ _ found⟩
    next =>
      dsimp only
      rw [size_modify]
      simp [ModuleTree.size]
  refine ⟨⟨⟨?_, ?_, ?_, ?_⟩, size.1, ?_, ?_, ?_, by simp, alike.definition?⟩, size.2⟩
  · intro id
    rw [alike.functions]
    exact proper.functions id
  · intro id other c found
    rw [alike.classes] at found
    exact proper.classes id other c found
  · exact Nat.lt_of_lt_of_le proper.root size.1
  · intro id other child found
    rw [child?_addChild inside] at found
    split at found
    next =>
      cases found
      exact size.2
    next => exact Nat.lt_of_lt_of_le (proper.children id other child found) size.1
  · intro id other child found
    rw [child?_addChild inside]
    split
    next same =>
      unfold addChild
      rw [same.1, same.2] at found
      rw [found]
    next => exact found
  · intro id other found
    rwa [alike.classes]
  · intro id other found
    rwa [alike.enums]

end Declare

end ModuleTree

end MiLanguage
