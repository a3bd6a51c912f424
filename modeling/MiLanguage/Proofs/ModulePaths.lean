import MiLanguage.Proofs.Definitions
import Mathlib.Data.List.Induction
import Mathlib.Data.List.Nodup

set_option autoImplicit false

namespace MiLanguage

namespace ModuleTree

/-- Every module but the root is what its parent, an earlier module, calls by its name. -/
structure Arena (t : ModuleTree) : Prop where
  root : 0 < t.size
  parents : ∀ id, id.index < t.size → id ≠ ModuleTree.root → ∃ parent,
    (t.get id).parent = some parent ∧ parent.index < id.index ∧
      t.child? parent (t.get id).name = some id
  children : ∀ id name child, t.child? id name = some child →
    child.index < t.size ∧ (t.get child).parent = some id ∧ (t.get child).name = name
  rootless : (t.get ModuleTree.root).parent = none

-- The module at the end of a path from the root.
def at? (t : ModuleTree) (path : List String) : Option ModuleId :=
  path.foldlM t.child? root

/-- The modules of `old` are in `new` under the names they had. -/
structure Grows (old new : ModuleTree) : Prop where
  size : old.size ≤ new.size
  names : ∀ id, id.index < old.size → (new.get id).name = (old.get id).name
  parents : ∀ id, id.index < old.size → (new.get id).parent = (old.get id).parent

variable {t u : ModuleTree} {id parent child : ModuleId} {name : String} {path : List String}

theorem ModuleId.eq_root_iff (id : ModuleId) : id = root ↔ id.index = 0 := by
  obtain ⟨index⟩ := id
  simp [root]

theorem chain_of_le (arena : t.Arena) {bound : Nat} (inside : id.index < t.size)
    (enough : id.index ≤ bound) : t.chain bound id = t.ancestors id := by
  unfold ancestors
  induction bound using Nat.strongRecOn generalizing id with
  | ind bound ih =>
      by_cases top : id = root
      · subst top
        cases bound with
        | zero => rfl
        | succ bound =>
            have rootless : (t.get ⟨0⟩).parent = none := arena.rootless
            simp [chain, root, rootless]
      · obtain ⟨parent, above, less, _⟩ := arena.parents id inside top
        obtain ⟨before, index⟩ : ∃ before, id.index = before + 1 :=
          ⟨id.index - 1, by omega⟩
        obtain ⟨bound', rfl⟩ : ∃ bound', bound = bound' + 1 := ⟨bound - 1, by omega⟩
        rw [index, chain, chain, above]
        simp only
        rw [ih bound' (by omega) (by omega) (by omega)]
        by_cases same : before = bound'
        · rw [same, ih bound' (by omega) (by omega) (by omega)]
        · rw [ih before (by omega) (by omega) (by omega)]

theorem ancestors_root (t : ModuleTree) : t.ancestors root = [root] := by
  simp [ancestors, root, chain]

theorem ancestors_child (arena : t.Arena) (found : t.child? parent name = some child) :
    t.ancestors child = child :: t.ancestors parent := by
  obtain ⟨inside, above, _⟩ := arena.children _ _ _ found
  have inner : child ≠ root := by
    rintro rfl
    rw [arena.rootless] at above
    cases above
  obtain ⟨parent', above', less, _⟩ := arena.parents child inside inner
  rw [above] at above'
  cases above'
  obtain ⟨before, index⟩ : ∃ before, child.index = before + 1 := ⟨child.index - 1, by omega⟩
  rw [ancestors, index, chain, above]
  simp only
  rw [chain_of_le arena (by omega) (by omega)]

theorem pathSegments_root (t : ModuleTree) : t.pathSegments root = [] := by
  simp [pathSegments, ancestors_root]

theorem pathSegments_child (arena : t.Arena) (found : t.child? parent name = some child) :
    t.pathSegments child = t.pathSegments parent ++ [name] := by
  obtain ⟨_, above, named⟩ := arena.children _ _ _ found
  have inner : child ≠ root := by
    rintro rfl
    rw [arena.rootless] at above
    cases above
  unfold pathSegments
  rw [ancestors_child arena found, List.filter_cons_of_pos (by simpa using inner)]
  simp [named]

theorem at?_eq_some (arena : t.Arena) :
    t.at? path = some id ↔ id.index < t.size ∧ t.pathSegments id = path := by
  constructor
  · intro found
    induction path using List.reverseRecOn generalizing id with
    | nil =>
        cases found
        exact ⟨arena.root, t.pathSegments_root⟩
    | append_singleton path name ih =>
        unfold at? at found ih
        rw [List.foldlM_append] at found
        obtain ⟨parent, above, found⟩ := Option.bind_eq_some_iff.mp found
        have found : t.child? parent name = some id := by simpa using found
        rw [pathSegments_child arena found, (ih above).2]
        exact ⟨(arena.children _ _ _ found).1, rfl⟩
  · rintro ⟨inside, rfl⟩
    obtain ⟨index⟩ := id
    induction index using Nat.strongRecOn with
    | ind index ih =>
        by_cases top : (⟨index⟩ : ModuleId) = root
        · rw [top, pathSegments_root]
          rfl
        · obtain ⟨parent, _, less, found⟩ := arena.parents _ inside top
          have above := ih parent.index less (Nat.lt_trans less inside)
          rw [pathSegments_child arena found]
          unfold at? at above ⊢
          rw [List.foldlM_append, above]
          simpa using found

theorem at?_pathSegments (arena : t.Arena) (inside : id.index < t.size) :
    t.at? (t.pathSegments id) = some id :=
  (at?_eq_some arena).mpr ⟨inside, rfl⟩

theorem Grows.refl (t : ModuleTree) : t.Grows t :=
  ⟨Nat.le_refl _, fun _ _ => rfl, fun _ _ => rfl⟩

theorem Grows.trans {a b c : ModuleTree} (first : a.Grows b) (second : b.Grows c) : a.Grows c where
  size := Nat.le_trans first.size second.size
  names id inside :=
    (second.names id (Nat.lt_of_lt_of_le inside first.size)).trans (first.names id inside)
  parents id inside :=
    (second.parents id (Nat.lt_of_lt_of_le inside first.size)).trans (first.parents id inside)

-- A module keeps its path.
theorem Grows.pathSegments (grows : t.Grows u) (arena : t.Arena) (later : u.Arena)
    (inside : id.index < t.size) : u.pathSegments id = t.pathSegments id := by
  obtain ⟨index⟩ := id
  induction index using Nat.strongRecOn with
  | ind index ih =>
      by_cases top : (⟨index⟩ : ModuleId) = root
      · simp only [top, pathSegments_root]
      · obtain ⟨parent, above, less, found⟩ := arena.parents _ inside top
        obtain ⟨parent', above', _, found'⟩ :=
          later.parents _ (Nat.lt_of_lt_of_le inside grows.size) top
        rw [grows.parents _ inside, above] at above'
        cases above'
        rw [pathSegments_child arena found, pathSegments_child later found',
          ih parent.index less (Nat.lt_trans less inside), grows.names _ inside]

theorem Grows.at? (grows : t.Grows u) (arena : t.Arena) (later : u.Arena)
    (found : t.at? path = some id) : u.at? path = some id := by
  obtain ⟨inside, same⟩ := (at?_eq_some arena).mp found
  rw [← grows.pathSegments arena later inside] at same
  exact (at?_eq_some later).mpr ⟨Nat.lt_of_lt_of_le inside grows.size, same⟩

section Members

variable {f : Members → Members}

theorem get_modifyMembers (t : ModuleTree) (id other : ModuleId) (f : Members → Members) :
    ((t.modifyMembers id f).get other).name = (t.get other).name ∧
      ((t.modifyMembers id f).get other).parent = (t.get other).parent := by
  unfold modifyMembers
  rw [get_modify_eq]
  split
  next same => rw [same.1]; exact ⟨rfl, rfl⟩
  next => exact ⟨rfl, rfl⟩

theorem grows_modifyMembers (t : ModuleTree) (id : ModuleId) (f : Members → Members) :
    t.Grows (t.modifyMembers id f) where
  size := by simp
  names other _ := (t.get_modifyMembers id other f).1
  parents other _ := (t.get_modifyMembers id other f).2

theorem Arena.modifyMembers (arena : t.Arena) (id : ModuleId) (f : Members → Members) :
    (t.modifyMembers id f).Arena where
  root := by simpa using arena.root
  parents other inside inner := by
    rw [(t.get_modifyMembers id other f).1, (t.get_modifyMembers id other f).2]
    simp only [child?_modifyMembers]
    exact arena.parents other (by simpa using inside) inner
  children other name child found := by
    rw [child?_modifyMembers] at found
    rw [(t.get_modifyMembers id child f).1, (t.get_modifyMembers id child f).2, size_modifyMembers]
    exact arena.children other name child found
  rootless := by
    rw [(t.get_modifyMembers id ModuleTree.root f).2]
    exact arena.rootless

@[simp] theorem at?_modifyMembers (t : ModuleTree) (id : ModuleId) (f : Members → Members)
    (path : List String) : (t.modifyMembers id f).at? path = t.at? path := by
  unfold at?
  have same : (t.modifyMembers id f).child? = t.child? := by
    funext other name
    exact t.child?_modifyMembers id other f name
  rw [same]

end Members

section Child

variable {name : String}

theorem addChild_of_found (found : t.child? parent name = some child) :
    t.addChild parent name = (child, t) := by
  unfold addChild
  rw [found]

theorem addChild_id (fresh : t.child? parent name = none) :
    (t.addChild parent name).1 = ⟨t.size⟩ := by
  unfold addChild
  rw [fresh]

theorem size_addChild (fresh : t.child? parent name = none) :
    (t.addChild parent name).2.size = t.size + 1 := by
  unfold addChild
  rw [fresh]
  simp only [size_modify]
  simp [size]

theorem get_addChild (fresh : t.child? parent name = none) (id : ModuleId) :
    ((t.addChild parent name).2.get id).name =
        (if id.index = t.size then name else (t.get id).name) ∧
      ((t.addChild parent name).2.get id).parent =
        (if id.index = t.size then some parent else (t.get id).parent) := by
  have appended : ∀ id : ModuleId,
      (ModuleTree.get ⟨t.modules ++ [{ name, parent := some parent }]⟩ id).name =
        (if id.index = t.size then name else (t.get id).name) ∧
      (ModuleTree.get ⟨t.modules ++ [{ name, parent := some parent }]⟩ id).parent =
        (if id.index = t.size then some parent else (t.get id).parent) := by
    intro id
    unfold get size
    rcases Nat.lt_trichotomy id.index t.modules.length with less | same | more
    · rw [List.getElem?_append_left less, if_neg (by omega), if_neg (by omega)]
      exact ⟨rfl, rfl⟩
    · simp [same]
    · rw [List.getElem?_eq_none (by simp; omega), List.getElem?_eq_none (by omega),
        if_neg (by omega), if_neg (by omega)]
      exact ⟨rfl, rfl⟩
  unfold addChild
  rw [fresh]
  simp only [get_modify_eq]
  split
  next same =>
    rw [same.1]
    exact appended parent
  next => exact appended id

theorem grows_addChild (t : ModuleTree) (parent : ModuleId) (name : String) :
    t.Grows (t.addChild parent name).2 := by
  cases found : t.child? parent name with
  | some child =>
      rw [addChild_of_found found]
      exact .refl t
  | none =>
      refine ⟨by rw [size_addChild found]; omega, fun id inside => ?_, fun id inside => ?_⟩
      · rw [(get_addChild found id).1, if_neg (by omega)]
      · rw [(get_addChild found id).2, if_neg (by omega)]

theorem Arena.addChild (arena : t.Arena) (inside : parent.index < t.size) (name : String) :
    (t.addChild parent name).2.Arena := by
  cases found : t.child? parent name with
  | some child =>
      rw [addChild_of_found found]
      exact arena
  | none =>
      have size := size_addChild found
      refine ⟨by rw [size]; omega, ?_, ?_, ?_⟩
      · intro id within inner
        rw [size] at within
        by_cases new : id.index = t.size
        · refine ⟨parent, ?_, by omega, ?_⟩
          · rw [(get_addChild found id).2, if_pos new]
          · rw [(get_addChild found id).1, if_pos new, child?_addChild inside,
              if_pos ⟨rfl, rfl⟩, addChild_id found, ← new]
        · obtain ⟨above, isAbove, less, child⟩ := arena.parents id (by omega) inner
          refine ⟨above, ?_, less, ?_⟩
          · rw [(get_addChild found id).2, if_neg new, isAbove]
          · rw [(get_addChild found id).1, if_neg new, child?_addChild inside, if_neg, child]
            rintro ⟨rfl, same⟩
            rw [same, found] at child
            cases child
      · intro id other child is
        rw [child?_addChild inside] at is
        rw [size, (get_addChild found child).1, (get_addChild found child).2]
        split at is
        next same =>
          rw [addChild_id found] at is
          cases is
          simp [same.1, same.2]
        next =>
          obtain ⟨within, above, named⟩ := arena.children id other child is
          rw [if_neg (by omega), if_neg (by omega)]
          exact ⟨by omega, above, named⟩
      · rw [(get_addChild found ModuleTree.root).2, if_neg (by simp [ModuleTree.root]; omega)]
        exact arena.rootless

theorem addChild_child (inside : parent.index < t.size) (name : String) :
    (t.addChild parent name).2.child? parent name = some (t.addChild parent name).1 := by
  rw [child?_addChild inside, if_pos ⟨rfl, rfl⟩]

theorem at?_addChild (arena : t.Arena) (above : t.at? path = some parent) (name : String)
    (sought : List String) :
    (t.addChild parent name).2.at? sought =
      if sought = path ++ [name] then some (t.addChild parent name).1 else t.at? sought := by
  obtain ⟨inside, same⟩ := (at?_eq_some arena).mp above
  have later := arena.addChild inside name
  have grows := t.grows_addChild parent name
  have isChild := addChild_child (t := t) inside name
  have below : (t.addChild parent name).2.pathSegments (t.addChild parent name).1 =
      path ++ [name] := by
    rw [pathSegments_child later isChild, grows.pathSegments arena later inside, same]
  split
  next is =>
    rw [is]
    exact (at?_eq_some later).mpr ⟨(later.children _ _ _ isChild).1, below⟩
  next other =>
    cases found : t.at? sought with
    | some id => exact grows.at? arena later found
    | none =>
        rw [Option.eq_none_iff_forall_ne_some]
        intro id is
        obtain ⟨within, segments⟩ := (at?_eq_some later).mp is
        cases known : t.child? parent name with
        | some child =>
            rw [addChild_of_found known] at is
            rw [found] at is
            cases is
        | none =>
            rw [size_addChild known] at within
            by_cases new : id.index = t.size
            · have same : id = (t.addChild parent name).1 := by
                rw [addChild_id known, ← new]
              rw [same, below] at segments
              exact other segments.symm
            · have inner : id.index < t.size := by omega
              rw [grows.pathSegments arena later inner] at segments
              rw [(at?_eq_some arena).mpr ⟨inner, segments⟩] at found
              cases found

end Child

theorem arena_empty : empty.Arena := by
  have alone : ∀ id : ModuleId, (empty.get id).parent = none ∧ ∀ name, empty.child? id name = none := by
    rintro ⟨index⟩
    cases index <;> exact ⟨rfl, fun _ => rfl⟩
  refine ⟨by decide, ?_, ?_, (alone _).1⟩
  · intro id inside inner
    have first : id.index = 0 := by
      have one : empty.size = 1 := rfl
      omega
    exact absurd ((ModuleId.eq_root_iff id).mpr first) inner
  · intro id name child found
    rw [(alone id).2 name] at found
    cases found

-- The paths of the modules, in the order in which they have been opened.
def paths (t : ModuleTree) : List (List String) :=
  (List.range t.size).map fun index => t.pathSegments ⟨index⟩

theorem mem_paths (arena : t.Arena) : path ∈ t.paths ↔ (t.at? path).isSome = true := by
  simp only [paths, List.mem_map, List.mem_range, Option.isSome_iff_exists, at?_eq_some arena]
  constructor
  · rintro ⟨index, inside, same⟩
    exact ⟨⟨index⟩, inside, same⟩
  · rintro ⟨⟨index⟩, inside, same⟩
    exact ⟨index, inside, same⟩

-- No two modules have one path.
theorem nodup_paths (arena : t.Arena) : t.paths.Nodup := by
  unfold paths
  apply List.Nodup.map_on _ List.nodup_range
  intro first inside second inside' same
  have within : (⟨first⟩ : ModuleId).index < t.size := by simpa using inside
  have within' : (⟨second⟩ : ModuleId).index < t.size := by simpa using inside'
  have found := at?_pathSegments arena within
  rw [same, at?_pathSegments arena within'] at found
  cases found
  rfl

end ModuleTree

end MiLanguage
