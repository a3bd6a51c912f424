import MiLanguage.Declaration

set_option autoImplicit false

namespace MiLanguage

namespace FunctionTable

variable {t : FunctionTable} {f : FunctionDefinition} {name : String} {types : List Datatype}

/-- An overload is known by its name and its parameter types. -/
structure Keyed (t : FunctionTable) : Prop where
  named : ∀ name, ∀ f ∈ t.overloads name, f.name = name
  distinct : ∀ name, (t.overloads name).Pairwise fun f g => f.paramTypes ≠ g.paramTypes

theorem keyed_empty : empty.Keyed := ⟨by simp, by simp⟩

theorem find?_of_mem (keyed : t.Keyed) (member : f ∈ t.overloads name) :
    t.find? name f.paramTypes = some f := by
  unfold find?
  have distinct := keyed.distinct name
  generalize t.overloads name = overloads at member distinct
  induction overloads with
  | nil => simp at member
  | cons head rest ih =>
      obtain ⟨apart, rest⟩ := List.pairwise_cons.mp distinct
      rcases List.mem_cons.mp member with rfl | member
      · simp
      · rw [List.find?_cons_of_neg (by simpa using apart f member)]
        exact ih member rest

theorem mem_of_find? (found : t.find? name types = some f) :
    f ∈ t.overloads name ∧ f.paramTypes = types :=
  ⟨List.mem_of_find?_eq_some found, by simpa using List.find?_some found⟩

theorem find?_eq_none_of_add? {grown : FunctionTable} (keyed : t.Keyed)
    (added : t.add? f = some grown) : t.find? f.name f.paramTypes = none := by
  unfold add? at added
  split at added
  next => cases added
  next fresh =>
    refine List.find?_eq_none.mpr ?_
    intro g member same
    refine fresh (List.any_eq_true.mpr ⟨g, member, ?_⟩)
    simpa [FunctionDefinition.sameSignature, keyed.named _ g member] using same

theorem find?_add? {grown : FunctionTable} (keyed : t.Keyed) (added : t.add? f = some grown)
    (name : String) (types : List Datatype) :
    grown.find? name types =
      if name = f.name ∧ types = f.paramTypes then some f else t.find? name types := by
  have fresh := find?_eq_none_of_add? keyed added
  unfold find? at fresh ⊢
  rw [overloads_add? added, List.find?_append]
  by_cases sameName : name = f.name
  · subst sameName
    by_cases sameTypes : types = f.paramTypes
    · subst sameTypes
      simp [fresh]
    · have other : ¬f.paramTypes = types := fun same => sameTypes same.symm
      simp [sameTypes, other]
  · simp [sameName]

theorem Keyed.add? {grown : FunctionTable} (keyed : t.Keyed) (added : t.add? f = some grown) :
    grown.Keyed := by
  have fresh := find?_eq_none_of_add? keyed added
  refine ⟨?_, ?_⟩
  · intro name g member
    rw [overloads_add? added] at member
    rcases List.mem_append.mp member with member | member
    · exact keyed.named name g member
    · split at member
      next same =>
        rw [List.mem_singleton.mp member]
        exact same.symm
      next => simp at member
  · intro name
    rw [overloads_add? added]
    refine List.pairwise_append.mpr ⟨keyed.distinct name, by split <;> simp, ?_⟩
    intro g old other new same
    split at new
    next sameName =>
      subst sameName
      rw [List.mem_singleton.mp new] at same
      have found := find?_of_mem keyed old
      rw [same, fresh] at found
      cases found
    next => simp at new

section Modify

variable {g : FunctionDefinition → FunctionDefinition}

theorem map_modifyFirst {α : Type} {key : FunctionDefinition → α} (keeps : ∀ f, key (g f) = key f)
    (p : FunctionDefinition → Bool) (fs : List FunctionDefinition) :
    (modifyFirst p g fs).map key = fs.map key := by
  induction fs with
  | nil => rfl
  | cons f fs ih =>
      unfold modifyFirst
      split
      next => simp [keeps]
      next => simp [ih]

theorem mem_modifyFirst {p : FunctionDefinition → Bool} {fs : List FunctionDefinition}
    (member : f ∈ modifyFirst p g fs) : ∃ h ∈ fs, f = h ∨ f = g h := by
  induction fs with
  | nil => cases member
  | cons first fs ih =>
      unfold modifyFirst at member
      split at member
      next =>
        rcases List.mem_cons.mp member with rfl | member
        · exact ⟨first, by simp, .inr rfl⟩
        · exact ⟨f, by simp [member], .inl rfl⟩
      next =>
        rcases List.mem_cons.mp member with rfl | member
        · exact ⟨f, by simp, .inl rfl⟩
        · obtain ⟨h, inside, same⟩ := ih member
          exact ⟨h, by simp [inside], same⟩

theorem find?_modifyFirst (keeps : ∀ f, (g f).paramTypes = f.paramTypes) (types other : List Datatype)
    (fs : List FunctionDefinition) :
    (modifyFirst (·.paramTypes = types) g fs).find? (·.paramTypes = other) =
      if other = types then (fs.find? (·.paramTypes = types)).map g
      else fs.find? (·.paramTypes = other) := by
  induction fs with
  | nil => simp [modifyFirst]
  | cons f fs ih =>
      unfold modifyFirst
      by_cases here : f.paramTypes = types
      · by_cases same : other = types
        · simp [here, same, keeps]
        · have differs : ¬types = other := fun equal => same equal.symm
          simp [here, same, keeps, differs]
      · by_cases same : other = types
        · simpa [here, same] using ih
        · by_cases found : f.paramTypes = other
          · simp [same, found]
          · simpa [here, same, found] using ih

theorem overloads_modify (t : FunctionTable) (name other : String) (types : List Datatype) :
    (t.modify name types g).overloads other =
      if other = name then modifyFirst (·.paramTypes = types) g (t.overloads name)
      else t.overloads other := by
  unfold overloads modify
  rw [SymbolTable.find?_modify]
  split
  next => cases t.table.find? name <;> simp [modifyFirst]
  next => rfl

theorem find?_modify (keeps : ∀ f, (g f).paramTypes = f.paramTypes) (t : FunctionTable)
    (name other : String) (types others : List Datatype) :
    (t.modify name types g).find? other others =
      if other = name ∧ others = types then (t.find? name types).map g else t.find? other others := by
  unfold find?
  rw [overloads_modify]
  by_cases same : other = name
  · subst same
    simp only [if_true, true_and]
    exact find?_modifyFirst keeps types others _
  · simp [same]

theorem Keyed.modify (keyed : t.Keyed) (named : ∀ f, (g f).name = f.name)
    (keeps : ∀ f, (g f).paramTypes = f.paramTypes) (name : String) (types : List Datatype) :
    (t.modify name types g).Keyed := by
  have names : ∀ fs : List FunctionDefinition, ∀ wanted, (∀ f ∈ fs, f.name = wanted) →
      ∀ f ∈ modifyFirst (·.paramTypes = types) g fs, f.name = wanted := by
    intro fs wanted all f member
    have inside := List.mem_map_of_mem (f := FunctionDefinition.name) member
    rw [map_modifyFirst named] at inside
    obtain ⟨h, old, same⟩ := List.mem_map.mp inside
    exact same.symm.trans (all h old)
  have apart : ∀ fs gs : List FunctionDefinition,
      gs.map FunctionDefinition.paramTypes = fs.map FunctionDefinition.paramTypes →
      fs.Pairwise (fun f g => f.paramTypes ≠ g.paramTypes) →
      gs.Pairwise (fun f g => f.paramTypes ≠ g.paramTypes) := by
    intro fs gs same distinct
    have mapped := List.pairwise_map.mpr distinct
    rw [← same] at mapped
    exact List.pairwise_map.mp mapped
  refine ⟨?_, ?_⟩
  · intro other
    rw [overloads_modify]
    split
    next same =>
      rw [same]
      exact names _ _ (keyed.named name)
    next => exact keyed.named other
  · intro other
    rw [overloads_modify]
    split
    next => exact apart _ _ (map_modifyFirst keeps _ _) (keyed.distinct name)
    next => exact keyed.distinct other

end Modify

end FunctionTable

end MiLanguage
