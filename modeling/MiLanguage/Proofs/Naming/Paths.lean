import MiLanguage.Proofs.Naming.Qualified
import MiLanguage.Proofs.Symbols.Homes

set_option autoImplicit false

namespace MiLanguage

theorem dotPieces_dot (cs rest : List Char) :
    dotPieces (cs ++ '.' :: rest) = dotPieces cs ++ dotPieces rest := by
  induction cs with
  | nil => simp [dotPieces]
  | cons c cs ih =>
      by_cases dot : c = '.'
      · simp [dotPieces, dot, ih]
      · obtain ⟨piece, pieces, first⟩ := List.exists_cons_of_ne_nil (dotPieces_ne_nil cs)
        simp [dotPieces, dot, ih, first]

theorem segments_dot (path name : String) :
    segments s!"{path}.{name}" = segments path ++ segments name := by
  have dot : ".".toList = ['.'] := rfl
  simp only [segments, toString, String.toList_append, dot, List.append_assoc,
    List.singleton_append, dotPieces_dot, List.map_append]

-- The names in the path of a module. The path of the root is empty and has none.
def pathNames (path : String) : List String := if path = "" then [] else segments path

namespace ModuleTree

/-- The trees that come about when modules are opened one by one, each in a module that is there and
under a plain name. -/
inductive Opened : ModuleTree → Prop
  | empty : Opened .empty
  | addChild {t : ModuleTree} {parent : ModuleId} {name : String} : Opened t →
      parent.index < t.size → name ≠ "" → isDotted name = false →
      Opened (t.addChild parent name).2

variable {t : ModuleTree} {id other parent : ModuleId} {name : String}

theorem labelled_empty : empty.Labelled where
  arena := arena_empty
  named id inside inner := by
    have first : id.index = 0 := Nat.lt_one_iff.mp inside
    exact absurd ((ModuleId.eq_root_iff id).mpr first) inner
  plain id := by
    obtain ⟨index⟩ := id
    cases index with
    | zero => decide
    | succ index => exact (by decide : isDotted "" = false)

theorem Labelled.addChild (labelled : t.Labelled) (inside : parent.index < t.size)
    (nonempty : name ≠ "") (plain : isDotted name = false) :
    (t.addChild parent name).2.Labelled := by
  cases found : t.child? parent name with
  | some child =>
      rw [addChild_of_found found]
      exact labelled
  | none =>
      refine ⟨labelled.arena.addChild inside name, fun id within inner => ?_, fun id => ?_⟩
      · rw [(get_addChild found id).1]
        split
        next => exact nonempty
        next old =>
          rw [size_addChild found] at within
          exact labelled.named id (by omega) inner
      · rw [(get_addChild found id).1]
        split
        next => exact plain
        next => exact labelled.plain id

theorem Opened.labelled (opened : t.Opened) : t.Labelled := by
  induction opened with
  | empty => exact labelled_empty
  | addChild _ inside nonempty plain ih => exact ih.addChild inside nonempty plain

theorem segments_qualify_append (t : ModuleTree) (id : ModuleId) (name : String) :
    segments (t.qualify id name) = pathNames (t.path id) ++ segments name := by
  unfold qualify pathNames
  dsimp only
  split
  next => rfl
  next => exact segments_dot _ _

namespace Labelled

variable (labelled : t.Labelled)

include labelled

theorem ancestors_eq (inside : id.index < t.size) :
    t.ancestors id = id :: match (t.get id).parent with
      | some parent => t.ancestors parent
      | none => [] := by
  by_cases top : id = root
  · rw [top, labelled.arena.rootless, ancestors_root]
  · obtain ⟨parent, above, _, child⟩ := labelled.arena.parents id inside top
    rw [above]
    exact ancestors_child labelled.arena child

theorem getLast?_ancestors (inside : id.index < t.size) :
    (t.ancestors id).getLast? = some root := by
  obtain ⟨index⟩ := id
  induction index using Nat.strongRecOn with
  | ind index ih =>
      by_cases top : (⟨index⟩ : ModuleId) = root
      · rw [top, ancestors_root]
        rfl
      · obtain ⟨parent, _, less, child⟩ := labelled.arena.parents _ inside top
        have above := ih parent.index less (Nat.lt_trans less inside)
        rw [ancestors_child labelled.arena child, List.getLast?_cons, above]
        rfl

theorem child?_eq_some_iff : t.child? parent name = some id ↔
    id.index < t.size ∧ id ≠ root ∧ (t.get id).parent = some parent ∧ (t.get id).name = name := by
  constructor
  · intro child
    obtain ⟨inside, above, named⟩ := labelled.arena.children _ _ _ child
    refine ⟨inside, ?_, above, named⟩
    rintro rfl
    rw [labelled.arena.rootless] at above
    cases above
  · rintro ⟨inside, inner, above, rfl⟩
    obtain ⟨parent', above', _, child⟩ := labelled.arena.parents id inside inner
    rw [above] at above'
    cases above'
    exact child

theorem eq_of_pathSegments (inside : id.index < t.size) (within : other.index < t.size)
    (same : t.pathSegments id = t.pathSegments other) : id = other := by
  have found := at?_pathSegments labelled.arena inside
  rw [same, at?_pathSegments labelled.arena within] at found
  exact (Option.some.inj found).symm

theorem path_eq_empty_iff (inside : id.index < t.size) : t.path id = "" ↔ id = root := by
  constructor
  · intro empty
    by_contra inner
    exact labelled.named.path_ne labelled.arena inside inner empty
  · rintro rfl
    rw [path, pathSegments_root]
    rfl

theorem segments_path (inside : id.index < t.size) (inner : id ≠ root) :
    segments (t.path id) = t.pathSegments id :=
  segments_joinSegments (labelled.pathSegments_ne_nil inside inner) (labelled.segments_plain id)

theorem pathNames_path (inside : id.index < t.size) :
    pathNames (t.path id) = t.pathSegments id := by
  unfold pathNames
  by_cases top : id = root
  · rw [if_pos ((labelled.path_eq_empty_iff inside).mpr top), top, pathSegments_root]
  · rw [if_neg (mt (labelled.path_eq_empty_iff inside).mp top), labelled.segments_path inside top]

theorem path_inj (inside : id.index < t.size) (within : other.index < t.size) :
    t.path id = t.path other ↔ id = other := by
  constructor
  · intro same
    refine labelled.eq_of_pathSegments inside within ?_
    rw [← labelled.pathNames_path inside, same, labelled.pathNames_path within]
  · rintro rfl
    rfl

theorem qualify_right_inj (inside : id.index < t.size) (within : other.index < t.size)
    (name : String) : t.qualify id name = t.qualify other name ↔ id = other := by
  constructor
  · intro same
    have read := congrArg segments same
    rw [segments_qualify_append, segments_qualify_append,
      labelled.pathNames_path inside, labelled.pathNames_path within] at read
    exact labelled.eq_of_pathSegments inside within (List.append_cancel_right read)
  · rintro rfl
    rfl

theorem descend_eq_some_iff (inside : id.index < t.size) {p : String} :
    t.descend id p = some other ↔
      other.index < t.size ∧ t.pathSegments other = t.pathSegments id ++ segments p := by
  rw [← at?_eq_some labelled.arena]
  have here := at?_pathSegments labelled.arena inside
  unfold at? at here ⊢
  rw [List.foldlM_append, here]
  rfl

theorem descend_path (inside : id.index < t.size) (inner : id ≠ root) :
    t.descend root (t.path id) = some id := by
  have start : root.index < t.size := labelled.arena.root
  rw [labelled.descend_eq_some_iff start, labelled.segments_path inside inner, pathSegments_root]
  exact ⟨inside, rfl⟩

theorem mem_ancestors_of_inner (inside : id.index < t.size) (within : other.index < t.size)
    (leads : t.pathSegments other <+: t.pathSegments id) : other ∈ t.ancestors id := by
  obtain ⟨index⟩ := id
  induction index using Nat.strongRecOn with
  | ind index ih =>
      by_cases top : (⟨index⟩ : ModuleId) = root
      · rw [top, pathSegments_root, ← t.pathSegments_root] at leads
        have empty := List.prefix_nil.mp (t.pathSegments_root ▸ leads)
        rw [top, ancestors_root, List.mem_singleton]
        exact labelled.eq_of_pathSegments within labelled.arena.root
          (empty.trans t.pathSegments_root.symm)
      · obtain ⟨parent, _, less, child⟩ := labelled.arena.parents _ inside top
        rw [ancestors_child labelled.arena child, List.mem_cons]
        rw [pathSegments_child labelled.arena child, List.prefix_concat_iff] at leads
        rcases leads with whole | shorter
        · rw [← pathSegments_child labelled.arena child] at whole
          exact .inl (labelled.eq_of_pathSegments within inside whole)
        · exact .inr (ih parent.index less (Nat.lt_trans less inside) shorter)

theorem isWithin_iff (inside : id.index < t.size) (within : other.index < t.size) :
    t.isWithin id other = true ↔ t.pathSegments other <+: t.pathSegments id := by
  rw [isWithin, List.contains_iff_mem]
  exact ⟨pathSegments_ancestor labelled.arena inside, labelled.mem_ancestors_of_inner inside within⟩

theorem ancestors_descending (inside : id.index < t.size) :
    (t.ancestors id).Pairwise fun inner outer => outer.index < inner.index := by
  obtain ⟨index⟩ := id
  induction index using Nat.strongRecOn with
  | ind index ih =>
      by_cases top : (⟨index⟩ : ModuleId) = root
      · rw [top, ancestors_root]
        exact List.pairwise_singleton _ _
      · obtain ⟨parent, _, less, child⟩ := labelled.arena.parents _ inside top
        have chain := ih parent.index less (Nat.lt_trans less inside)
        rw [ancestors_child labelled.arena child]
        refine List.pairwise_cons.mpr ⟨fun outer member => ?_, chain⟩
        obtain ⟨farther, first⟩ := t.ancestors_eq_cons parent
        rw [first] at member chain
        rcases List.mem_cons.mp member with rfl | beyond
        · exact less
        · exact Nat.lt_trans ((List.pairwise_cons.mp chain).1 outer beyond) less

theorem ancestors_of_split (inside : id.index < t.size) {nearer farther : List ModuleId}
    (chain : t.ancestors id = nearer ++ other :: farther) :
    t.ancestors other = other :: farther := by
  induction nearer generalizing id with
  | nil =>
      obtain ⟨outer, first⟩ := t.ancestors_eq_cons id
      rw [List.nil_append, first, List.cons.injEq] at chain
      obtain ⟨rfl, rfl⟩ := chain
      exact first
  | cons near nearer ih =>
      by_cases top : id = root
      · rw [top, ancestors_root] at chain
        simp at chain
      · obtain ⟨parent, _, less, child⟩ := labelled.arena.parents _ inside top
        rw [ancestors_child labelled.arena child, List.cons_append, List.cons.injEq] at chain
        exact ih (Nat.lt_trans less inside) chain.2

theorem first_ancestor_iff (inside : id.index < t.size) {P : ModuleId → Prop} :
    (∃ nearer farther, t.ancestors id = nearer ++ other :: farther ∧ P other ∧
        ∀ near ∈ nearer, ¬P near) ↔
      other ∈ t.ancestors id ∧ P other ∧
        ∀ m ∈ t.ancestors id, P m → t.isWithin other m = true := by
  constructor
  · rintro ⟨nearer, farther, chain, holds, fails⟩
    refine ⟨by simp [chain], holds, fun m member also => ?_⟩
    rw [chain, List.mem_append] at member
    rcases member with near | beyond
    · exact absurd also (fails m near)
    · rw [isWithin, List.contains_iff_mem, labelled.ancestors_of_split inside chain]
      exact beyond
  · rintro ⟨member, holds, around⟩
    obtain ⟨nearer, farther, chain⟩ := List.append_of_mem member
    refine ⟨nearer, farther, chain, holds, fun near before also => ?_⟩
    have outside := around near (by simp [chain, before]) also
    rw [isWithin, List.contains_iff_mem, labelled.ancestors_of_split inside chain] at outside
    have descending := labelled.ancestors_descending inside
    rw [chain, List.pairwise_append] at descending
    obtain ⟨_, after, across⟩ := descending
    have above := across near before other (by simp)
    rcases List.mem_cons.mp outside with rfl | beyond
    · exact absurd above (Nat.lt_irrefl _)
    · exact absurd ((List.pairwise_cons.mp after).1 near beyond) (Nat.lt_asymm above)

end Labelled

-- To follow `p` from one module leads to the other, as their paths tell it.
def Leads (t : ModuleTree) (start : ModuleId) (p : String) (target : ModuleId) : Prop :=
  target.index < t.size ∧ pathNames (t.path target) = pathNames (t.path start) ++ segments p

theorem Labelled.leads_iff (labelled : t.Labelled) (inside : id.index < t.size) {p : String} :
    t.Leads id p other ↔ t.descend id p = some other := by
  rw [labelled.descend_eq_some_iff inside, Leads, labelled.pathNames_path inside]
  exact and_congr_right fun within => by rw [labelled.pathNames_path within]

theorem Labelled.resolvePath_eq_some_iff (labelled : t.Labelled) (inside : id.index < t.size)
    {p : String} :
    t.resolvePath id p = some other ↔ ∃ around ∈ t.ancestors id, t.Leads around p other ∧
      ∀ m ∈ t.ancestors id, (∃ target, t.Leads m p target) → t.isWithin around m = true := by
  have leads {m : ModuleId} (member : m ∈ t.ancestors id) (target : ModuleId) :
      t.Leads m p target ↔ t.descend m p = some target :=
    labelled.leads_iff (ancestors_inside labelled.arena inside member)
  unfold resolvePath
  rw [List.findSome?_eq_some_iff]
  constructor
  · rintro ⟨nearer, around, farther, chain, found, fails⟩
    have member : around ∈ t.ancestors id := by simp [chain]
    have first := (labelled.first_ancestor_iff inside
      (P := fun m => ∃ target, t.Leads m p target)).mp
      ⟨nearer, farther, chain, ⟨other, (leads member other).mpr found⟩, ?_⟩
    · exact ⟨around, member, (leads member other).mpr found, first.2.2⟩
    · rintro near before ⟨target, led⟩
      rw [leads (by simp [chain, before]), fails near before] at led
      cases led
  · rintro ⟨around, member, led, outermost⟩
    obtain ⟨nearer, farther, chain, _, fails⟩ := (labelled.first_ancestor_iff inside
      (P := fun m => ∃ target, t.Leads m p target)).mpr ⟨member, ⟨other, led⟩, outermost⟩
    refine ⟨nearer, around, farther, chain, (leads member other).mp led, fun near before => ?_⟩
    rw [Option.eq_none_iff_forall_ne_some]
    intro target found
    exact fails near before ⟨target, (leads (by simp [chain, before]) target).mpr found⟩

theorem addChild_addChild (inside : parent.index < t.size) (name : String) :
    (t.addChild parent name).2.addChild parent name = t.addChild parent name :=
  addChild_of_found (addChild_child inside name)

theorem path_addChild (labelled : t.Labelled) (inside : parent.index < t.size) (name : String)
    (known : id.index < t.size) : (t.addChild parent name).2.path id = t.path id := by
  unfold path
  rw [(t.grows_addChild parent name).pathSegments labelled.arena
    (labelled.arena.addChild inside name) known]

/-- The modules are a tree, and a dotted path is as good as the module that it is the path of. -/
structure Faithful (t : ModuleTree) : Prop where
  top : root.index < t.size ∧ (t.get root).parent = none ∧ t.path root = ""
  parents : ∀ id, id.index < t.size → id ≠ root →
    ∃ parent, (t.get id).parent = some parent ∧ parent.index < id.index
  chains : ∀ id, id.index < t.size → (t.ancestors id).getLast? = some root ∧
    t.ancestors id = id :: match (t.get id).parent with
      | some parent => t.ancestors parent
      | none => []
  children : ∀ parent name id, t.child? parent name = some id ↔
    id.index < t.size ∧ id ≠ root ∧ (t.get id).parent = some parent ∧ (t.get id).name = name
  followed : ∀ id, id.index < t.size → id ≠ root → t.descend root (t.path id) = some id
  paths : ∀ id other, id.index < t.size → other.index < t.size →
    (t.path id = t.path other ↔ id = other)
  fullNames : ∀ id other, id.index < t.size → other.index < t.size →
    (∀ name, t.qualify id name = t.qualify other name ↔ id = other) ∧
    ∀ name name', isDotted name = false → isDotted name' = false →
      (t.qualify id name = t.qualify other name' ↔ id = other ∧ name = name')
  within : ∀ id other, id.index < t.size → other.index < t.size →
    (t.isWithin id other = true ↔ pathNames (t.path other) <+: pathNames (t.path id))
  resolved : ∀ start p target, start.index < t.size →
    (t.resolvePath start p = some target ↔ ∃ around ∈ t.ancestors start, t.Leads around p target ∧
      ∀ m ∈ t.ancestors start, (∃ other, t.Leads m p other) → t.isWithin around m = true)

theorem Labelled.faithful (labelled : t.Labelled) : t.Faithful where
  top := ⟨labelled.arena.root, labelled.arena.rootless,
    (labelled.path_eq_empty_iff labelled.arena.root).mpr rfl⟩
  parents id inside inner := by
    obtain ⟨parent, above, less, _⟩ := labelled.arena.parents id inside inner
    exact ⟨parent, above, less⟩
  chains id inside := ⟨labelled.getLast?_ancestors inside, labelled.ancestors_eq inside⟩
  children _ _ _ := labelled.child?_eq_some_iff
  followed _ inside inner := labelled.descend_path inside inner
  paths _ _ inside within := labelled.path_inj inside within
  fullNames _ _ inside within :=
    ⟨labelled.qualify_right_inj inside within,
      fun _ _ plain plain' => labelled.qualify_inj inside within plain plain'⟩
  within id other inside within := by
    rw [labelled.isWithin_iff inside within, labelled.pathNames_path inside,
      labelled.pathNames_path within]
  resolved _ _ _ inside := labelled.resolvePath_eq_some_iff inside

/-- However the modules have been opened, they are a tree whose paths are faithful names. To open
one more changes no path, and to open the same again changes nothing. -/
theorem paths_faithful (opened : t.Opened) : t.Faithful ∧
    ∀ parent name, parent.index < t.size →
      let (child, grown) := t.addChild parent name
      grown.addChild parent name = (child, grown) ∧ grown.child? parent name = some child ∧
        ∀ id, id.index < t.size → grown.path id = t.path id := by
  have labelled := opened.labelled
  refine ⟨labelled.faithful, fun parent name inside => ?_⟩
  exact ⟨addChild_addChild inside name, addChild_child inside name,
    fun _ known => path_addChild labelled inside name known⟩

def fourModules : ModuleTree :=
  ((((empty.addChild root "app").2.addChild ⟨1⟩ "inner").2.addChild root "util").2.addChild
    ⟨1⟩ "helpers").2

theorem fourModules_opened : fourModules.Opened := by
  refine .addChild (.addChild (.addChild (.addChild .empty ?_ ?_ ?_) ?_ ?_ ?_) ?_ ?_ ?_) ?_ ?_ ?_
  all_goals decide

/-- Seen from `app.inner`, `helpers` is `app.helpers`; another module of that name inside
`app.inner` would come first. -/
theorem fourModules_faithful :
    fourModules.Opened ∧ (⟨2⟩ : ModuleId).index < fourModules.size ∧
    fourModules.path ⟨4⟩ = "app.helpers" ∧
    fourModules.descend root (fourModules.path ⟨4⟩) = some ⟨4⟩ ∧
    fourModules.resolvePath ⟨2⟩ "helpers" = some ⟨4⟩ ∧
    (fourModules.addChild ⟨2⟩ "helpers").2.path ⟨4⟩ = "app.helpers" ∧
    (fourModules.addChild ⟨2⟩ "helpers").2.resolvePath ⟨2⟩ "helpers" = some ⟨5⟩ := by
  have four := paths_faithful fourModules_opened
  have named : fourModules.path ⟨4⟩ = "app.helpers" := by decide +kernel
  refine ⟨fourModules_opened, by decide, named, four.1.followed ⟨4⟩ (by decide) (by decide), ?_, ?_,
    ?_⟩
  · decide +kernel
  · exact ((four.2 ⟨2⟩ "helpers" (by decide)).2.2 ⟨4⟩ (by decide)).trans named
  · decide +kernel

end ModuleTree

end MiLanguage
