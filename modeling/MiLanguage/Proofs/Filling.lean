import MiLanguage.Analysis.State
import MiLanguage.Proofs.Definitions
import MiLanguage.Proofs.Scope

set_option autoImplicit false

namespace MiLanguage

namespace ModuleTree

variable {t : ModuleTree}

/-- The second pass changes nothing about what is declared but the bodies of functions. -/
structure Fills (old new : ModuleTree) : Prop where
  proper : old.Proper → new.Proper
  children : ∀ id name, new.child? id name = old.child? id name
  classes : ∀ id name, (new.class? id name).isSome = (old.class? id name).isSome
  enums : ∀ id name, (new.enum? id name).isSome = (old.enum? id name).isSome
  definitions : ∀ o, new.definition? o = old.definition? o ∨
    ∃ body, new.definition? o = (old.definition? o).map ({ · with body := .tree body })

theorem fills_refl (t : ModuleTree) : t.Fills t :=
  ⟨fun proper => proper, fun _ _ => rfl, fun _ _ => rfl, fun _ _ => rfl, fun _ => .inl rfl⟩

theorem Fills.trans {a b c : ModuleTree} (first : a.Fills b) (second : b.Fills c) : a.Fills c := by
  refine ⟨fun proper => second.proper (first.proper proper), ?_, ?_, ?_, ?_⟩
  · exact fun id name => (second.children id name).trans (first.children id name)
  · exact fun id name => (second.classes id name).trans (first.classes id name)
  · exact fun id name => (second.enums id name).trans (first.enums id name)
  · intro o
    rcases second.definitions o with same | ⟨body, filled⟩
    · rw [same]
      exact first.definitions o
    · refine .inr ⟨body, ?_⟩
      rcases first.definitions o with same | ⟨earlier, same⟩
      · rw [filled, same]
      · rw [filled, same, Option.map_map]
        rfl

theorem fills_modifyVariable (t : ModuleTree) (id : ModuleId) (name : String)
    (f : Variable → Variable) : t.Fills (t.modifyVariable id name f) := by
  have alike : t.Alike (t.modifyVariable id name f) :=
    alike_modifyMembers (fun _ => rfl) (fun _ => rfl) (fun _ => rfl)
  have children : ∀ other name', (t.modifyVariable id name f).child? other name' =
      t.child? other name' := fun other name' => child?_modifyMembers _ _ _ _ _
  refine ⟨?_, children, fun other name => by rw [alike.classes],
    fun other name => by rw [alike.enums], fun o => .inl (alike.definition? o)⟩
  intro proper
  refine ⟨?_, ?_, by simpa [modifyVariable] using proper.root, ?_⟩
  · intro other
    rw [alike.functions]
    exact proper.functions other
  · intro other name c found
    rw [alike.classes] at found
    exact proper.classes other name c found
  · intro other name child found
    rw [children] at found
    simpa [modifyVariable] using proper.children other name child found

theorem Updated.fills {new : ModuleTree} (updated : t.Updated new) :
    t.Fills new ∧ ∀ o, new.definition? o = t.definition? o := by
  induction updated with
  | refl => exact ⟨t.fills_refl, fun _ => rfl⟩
  | @marked id name new _ ih =>
      have alike : new.Alike (new.modifyVariable id name ({ · with initialized := true })) :=
        alike_modifyMembers (fun _ => rfl) (fun _ => rfl) (fun _ => rfl)
      exact ⟨ih.1.trans (new.fills_modifyVariable id name _),
        fun o => (alike.definition? o).trans (ih.2 o)⟩

section Attach

variable {id : ModuleId}

-- There is nothing in a module that does not exist, so it does not matter whether this one does.
theorem members_modifyMembers_of_empty {f : Members → Members} (empty : f {} = {}) (t : ModuleTree)
    (id other : ModuleId) :
    ((t.modifyMembers id f).get other).members =
      if other = id then f (t.get id).members else (t.get other).members := by
  rw [members_modifyMembers]
  by_cases inside : id.index < t.size
  · simp [inside]
  · have nothing : t.modules[id.index]? = none :=
      List.getElem?_eq_none (by simpa [size] using inside)
    have members : (t.get id).members = {} := by
      unfold get
      rw [nothing]
      rfl
    by_cases same : other = id
    · subst same
      simp [inside, members, empty]
    · simp [same]

theorem functions_modifyFunction (t : ModuleTree) (id other : ModuleId) (name : String)
    (types : List Datatype) (g : FunctionDefinition → FunctionDefinition) :
    ((t.modifyFunction id name types g).get other).members.functions =
      if other = id then (t.get id).members.functions.modify name types g
      else (t.get other).members.functions := by
  unfold modifyFunction
  rw [members_modifyMembers_of_empty rfl]
  split <;> rfl

theorem class?_modifyFunction (t : ModuleTree) (id other : ModuleId) (name className : String)
    (types : List Datatype) (g : FunctionDefinition → FunctionDefinition) :
    (t.modifyFunction id name types g).class? other className = t.class? other className := by
  unfold modifyFunction class?
  rw [members_modifyMembers_of_empty rfl]
  split
  next same => rw [same]
  next => rfl

theorem enum?_modifyFunction (t : ModuleTree) (id other : ModuleId) (name enumName : String)
    (types : List Datatype) (g : FunctionDefinition → FunctionDefinition) :
    (t.modifyFunction id name types g).enum? other enumName = t.enum? other enumName := by
  unfold modifyFunction enum?
  rw [members_modifyMembers_of_empty rfl]
  split
  next same => rw [same]
  next => rfl

theorem functions_modifyClass (t : ModuleTree) (id other : ModuleId) (name : String)
    (f : ClassDeclaration → ClassDeclaration) :
    ((t.modifyClass id name f).get other).members.functions =
      (t.get other).members.functions := by
  unfold modifyClass
  rw [members_modifyMembers_of_empty rfl]
  split
  next same => rw [same]
  next => rfl

theorem class?_modifyClass (t : ModuleTree) (id other : ModuleId) (name className : String)
    (f : ClassDeclaration → ClassDeclaration) :
    (t.modifyClass id name f).class? other className =
      if other = id ∧ className = name then (t.class? id name).map f
      else t.class? other className := by
  unfold modifyClass class?
  rw [members_modifyMembers_of_empty rfl]
  by_cases same : other = id
  · subst same
    simp [SymbolTable.find?_modify]
  · simp [same]

theorem enum?_modifyClass (t : ModuleTree) (id other : ModuleId) (name enumName : String)
    (f : ClassDeclaration → ClassDeclaration) :
    (t.modifyClass id name f).enum? other enumName = t.enum? other enumName := by
  unfold modifyClass enum?
  rw [members_modifyMembers_of_empty rfl]
  split
  next same => rw [same]
  next => rfl

theorem definition?_modifyFunction {g : FunctionDefinition → FunctionDefinition}
    (keeps : ∀ f, (g f).paramTypes = f.paramTypes) (t : ModuleTree) (name : String)
    (types : List Datatype) (o : BodyOwner) :
    (t.modifyFunction id name types g).definition? o =
      if o = .function (.module id) name types then (t.definition? o).map g
      else t.definition? o := by
  cases o with
  | constructor => simp [definition?, class?_modifyFunction]
  | function owner name' types' =>
      cases owner with
      | inClass => simp [definition?, class?_modifyFunction]
      | module other =>
          simp only [definition?, functions_modifyFunction]
          by_cases same : other = id
          · subst same
            simp only [if_true, FunctionTable.find?_modify keeps]
            by_cases key : name' = name ∧ types' = types
            · obtain ⟨rfl, rfl⟩ := key
              simp
            · simp [key]
          · simp [same]

theorem definition?_modifyClass {f : ClassDeclaration → ClassDeclaration} (t : ModuleTree)
    (className : String) (o : BodyOwner) :
    (t.modifyClass id className f).definition? o =
      match o with
      | .function (.inClass other name) function types =>
          if other = id ∧ name = className then
            (t.class? id className).bind fun c => (f c).methods.find? function types
          else t.definition? o
      | .constructor other name =>
          if other = id ∧ name = className then
            (t.class? id className).bind fun c => (f c).constructor
          else t.definition? o
      | .function (.module _) _ _ => t.definition? o := by
  cases o with
  | constructor other name =>
      simp only [definition?, class?_modifyClass]
      split
      next => cases t.class? id className <;> rfl
      next => rfl
  | function owner function types =>
      cases owner with
      | module => simp [definition?, functions_modifyClass]
      | inClass other name =>
          simp only [definition?, class?_modifyClass]
          split
          next => cases t.class? id className <;> rfl
          next => rfl

-- A body goes to one declaration, and to none if its owner is not declared.
theorem definition?_attachBody (t : ModuleTree) (body : Node) (owner o : BodyOwner) :
    (AnalysisState.attachBody t body owner).definition? o =
      if o = owner then (t.definition? o).map ({ · with body := .tree body })
      else t.definition? o := by
  have keeps : ∀ f : FunctionDefinition, { f with body := .tree body }.paramTypes = f.paramTypes :=
    fun _ => rfl
  cases owner with
  | constructor id className =>
      simp only [AnalysisState.attachBody, definition?_modifyClass]
      cases o with
      | constructor other name =>
          by_cases same : other = id ∧ name = className
          · obtain ⟨rfl, rfl⟩ := same
            simp only [and_self, if_true, definition?]
            cases t.class? other name <;> rfl
          · simp [same]
      | function owner =>
          cases owner with
          | module => simp
          | inClass other name =>
              by_cases same : other = id ∧ name = className
              · obtain ⟨rfl, rfl⟩ := same
                simp [definition?]
              · simp [same]
  | function owner function types =>
      cases owner with
      | module id =>
          simp only [AnalysisState.attachBody]
          exact definition?_modifyFunction keeps t function types o
      | inClass id className =>
          simp only [AnalysisState.attachBody, definition?_modifyClass]
          cases o with
          | constructor other name =>
              by_cases same : other = id ∧ name = className
              · obtain ⟨rfl, rfl⟩ := same
                simp [definition?]
              · simp [same]
          | function owner other types' =>
              cases owner with
              | module => simp
              | inClass other' name =>
                  by_cases same : other' = id ∧ name = className
                  · obtain ⟨rfl, rfl⟩ := same
                    simp only [and_self, if_true, definition?, FunctionTable.find?_modify keeps]
                    by_cases key : other = function ∧ types' = types
                    · obtain ⟨rfl, rfl⟩ := key
                      cases t.class? other' name <;> simp
                    · simp [key]
                  · simp [same]

theorem fills_modifyFunction {g : FunctionDefinition → FunctionDefinition}
    (named : ∀ f, (g f).name = f.name) (keeps : ∀ f, (g f).paramTypes = f.paramTypes)
    (t : ModuleTree) (name : String) (types : List Datatype)
    (definitions : ∀ o, (t.modifyFunction id name types g).definition? o = t.definition? o ∨
      ∃ body, (t.modifyFunction id name types g).definition? o =
        (t.definition? o).map ({ · with body := .tree body })) :
    t.Fills (t.modifyFunction id name types g) := by
  have children : ∀ other name', (t.modifyFunction id name types g).child? other name' =
      t.child? other name' := fun _ _ => child?_modifyMembers _ _ _ _ _
  refine ⟨?_, children, fun other name' => by rw [class?_modifyFunction],
    fun other name' => by rw [enum?_modifyFunction], definitions⟩
  intro proper
  refine ⟨?_, ?_, by simpa [modifyFunction] using proper.root, ?_⟩
  · intro other
    rw [functions_modifyFunction]
    split
    next => exact (proper.functions id).modify named keeps name types
    next => exact proper.functions other
  · intro other name' c found
    rw [class?_modifyFunction] at found
    exact proper.classes other name' c found
  · intro other name' child found
    rw [children] at found
    simpa [modifyFunction] using proper.children other name' child found

theorem fills_modifyClass {f : ClassDeclaration → ClassDeclaration} (named : ∀ c, (f c).name = c.name)
    (keyed : ∀ c, c.methods.Keyed → (f c).methods.Keyed) (t : ModuleTree) (className : String)
    (definitions : ∀ o, (t.modifyClass id className f).definition? o = t.definition? o ∨
      ∃ body, (t.modifyClass id className f).definition? o =
        (t.definition? o).map ({ · with body := .tree body })) :
    t.Fills (t.modifyClass id className f) := by
  have children : ∀ other name, (t.modifyClass id className f).child? other name =
      t.child? other name := fun _ _ => child?_modifyMembers _ _ _ _ _
  refine ⟨?_, children, ?_, fun other name => by rw [enum?_modifyClass], definitions⟩
  · intro proper
    refine ⟨?_, ?_, by simpa [modifyClass] using proper.root, ?_⟩
    · intro other
      rw [functions_modifyClass]
      exact proper.functions other
    · intro other name c found
      rw [class?_modifyClass] at found
      split at found
      next same =>
        obtain ⟨old, inTree, rfl⟩ := Option.map_eq_some_iff.mp found
        obtain ⟨oldName, oldKeyed⟩ := proper.classes _ _ _ inTree
        exact ⟨by rw [named, oldName, same.2], keyed old oldKeyed⟩
      next => exact proper.classes other name c found
    · intro other name child found
      rw [children] at found
      simpa [modifyClass] using proper.children other name child found
  · intro other name
    rw [class?_modifyClass]
    split
    next same =>
      rw [same.1, same.2]
      cases t.class? id className <;> rfl
    next => rfl

theorem fills_attachBody (t : ModuleTree) (body : Node) (owner : BodyOwner) :
    t.Fills (AnalysisState.attachBody t body owner) := by
  have definitions : ∀ o,
      (AnalysisState.attachBody t body owner).definition? o = t.definition? o ∨
        ∃ tree, (AnalysisState.attachBody t body owner).definition? o =
          (t.definition? o).map ({ · with body := .tree tree }) := by
    intro o
    by_cases same : o = owner
    · exact .inr ⟨body, by rw [definition?_attachBody, if_pos same]⟩
    · exact .inl (by rw [definition?_attachBody, if_neg same])
  cases owner with
  | function owner name types =>
      cases owner with
      | module =>
          simp only [AnalysisState.attachBody] at definitions ⊢
          refine fills_modifyFunction ?_ ?_ t name types definitions
          · exact fun _ => rfl
          · exact fun _ => rfl
      | inClass =>
          simp only [AnalysisState.attachBody] at definitions ⊢
          refine fills_modifyClass ?_ ?_ t _ definitions
          · exact fun _ => rfl
          · intro c keyed
            refine keyed.modify ?_ ?_ name types
            · exact fun _ => rfl
            · exact fun _ => rfl
  | constructor =>
      simp only [AnalysisState.attachBody] at definitions ⊢
      refine fills_modifyClass ?_ ?_ t _ definitions
      · exact fun _ => rfl
      · exact fun _ keyed => keyed

end Attach

end ModuleTree

end MiLanguage
