import MiLanguage.Proofs.Naming.Environment
import MiLanguage.Proofs.Symbols.WellFormed

set_option autoImplicit false

namespace MiLanguage

section Segments

theorem toList_joinSegments_cons (first next : String) (names : List String) :
    (joinSegments (first :: next :: names)).toList =
      first.toList ++ '.' :: (joinSegments (next :: names)).toList := by
  simp only [joinSegments, String.toList_intercalate, List.map_cons]
  rfl

theorem joinSegments_singleton (name : String) : joinSegments [name] = name := by
  simp [joinSegments]

theorem joinSegments_concat {names : List String} (nonempty : names ≠ []) (name : String) :
    joinSegments (names ++ [name]) = s!"{joinSegments names}.{name}" := by
  have dot : ".".toList = ['.'] := rfl
  rw [← String.toList_inj]
  simp only [toString, String.toList_append, dot]
  induction names with
  | nil => exact absurd rfl nonempty
  | cons first names ih =>
      cases names with
      | nil => simp [toList_joinSegments_cons, joinSegments_singleton]
      | cons next names =>
          simp only [List.cons_append] at ih ⊢
          rw [toList_joinSegments_cons, ih (by simp), toList_joinSegments_cons]
          simp

theorem dotPieces_append {cs : List Char} (plain : '.' ∉ cs) (rest : List Char) :
    dotPieces (cs ++ '.' :: rest) = cs :: dotPieces rest := by
  induction cs with
  | nil => simp [dotPieces]
  | cons c cs ih =>
      simp only [List.mem_cons, not_or] at plain
      simp [dotPieces, Ne.symm plain.1, ih plain.2]

theorem not_mem_of_plain {name : String} (plain : isDotted name = false) : '.' ∉ name.toList := by
  simpa [isDotted] using plain

theorem segments_joinSegments {names : List String} (nonempty : names ≠ [])
    (plain : ∀ name ∈ names, isDotted name = false) : segments (joinSegments names) = names := by
  induction names with
  | nil => exact absurd rfl nonempty
  | cons first names ih =>
      have here := not_mem_of_plain (plain first (by simp))
      cases names with
      | nil => simp [segments, joinSegments_singleton, dotPieces_of_not_mem here]
      | cons next names =>
          have later := ih (by simp) fun name member => plain name (by simp [member])
          unfold segments at later ⊢
          rw [toList_joinSegments_cons, dotPieces_append here, List.map_cons, later]
          simp

end Segments

namespace ModuleTree

variable {t : ModuleTree} {id other : ModuleId} {name name' : String}

/-- The modules hang together and have names, none of them with a dot. -/
structure Labelled (t : ModuleTree) : Prop where
  arena : t.Arena
  named : t.Named
  plain : ∀ id, isDotted (t.get id).name = false

namespace Labelled

variable (labelled : t.Labelled)

include labelled

theorem segments_plain (id : ModuleId) : ∀ name ∈ t.pathSegments id, isDotted name = false := by
  intro name member
  obtain ⟨m, _, rfl⟩ := List.mem_map.mp member
  exact labelled.plain m

theorem pathSegments_ne_nil (inside : id.index < t.size) (inner : id ≠ root) :
    t.pathSegments id ≠ [] := by
  obtain ⟨parent, _, _, child⟩ := labelled.arena.parents id inside inner
  rw [pathSegments_child labelled.arena child]
  simp

theorem qualify_eq (inside : id.index < t.size) (name : String) :
    t.qualify id name = joinSegments (t.pathSegments id ++ [name]) := by
  unfold qualify
  by_cases top : id = root
  · rw [top, path, pathSegments_root, List.nil_append, joinSegments_singleton]
    exact if_pos rfl
  · dsimp only
    rw [if_neg (labelled.named.path_ne labelled.arena inside top), path,
      joinSegments_concat (labelled.pathSegments_ne_nil inside top)]

theorem plain_concat (id : ModuleId) (plain : isDotted name = false) :
    ∀ part ∈ t.pathSegments id ++ [name], isDotted part = false := by
  intro part member
  rcases List.mem_append.mp member with member | member
  · exact labelled.segments_plain id part member
  · rw [List.mem_singleton.mp member]
    exact plain

theorem segments_qualify (inside : id.index < t.size) (plain : isDotted name = false) :
    segments (t.qualify id name) = t.pathSegments id ++ [name] := by
  rw [labelled.qualify_eq inside, segments_joinSegments (by simp) (labelled.plain_concat id plain)]

theorem child?_iff_pathSegments (inside : id.index < t.size) (within : other.index < t.size) :
    t.child? id name = some other ↔ t.pathSegments other = t.pathSegments id ++ [name] := by
  refine ⟨pathSegments_child labelled.arena, fun same => ?_⟩
  have found := at?_pathSegments labelled.arena within
  have above := at?_pathSegments labelled.arena inside
  rw [same] at found
  unfold at? at found above
  rw [List.foldlM_append, above] at found
  simpa using found

theorem qualify_inj (inside : id.index < t.size) (inside' : other.index < t.size)
    (plain : isDotted name = false) (plain' : isDotted name' = false) :
    t.qualify id name = t.qualify other name' ↔ id = other ∧ name = name' := by
  constructor
  · intro same
    have segments := congrArg segments same
    rw [labelled.segments_qualify inside plain, labelled.segments_qualify inside' plain'] at segments
    obtain ⟨paths, names⟩ := List.append_inj' segments rfl
    have found := at?_pathSegments labelled.arena inside
    rw [paths, at?_pathSegments labelled.arena inside'] at found
    cases found
    exact ⟨rfl, List.singleton_inj.mp names⟩
  · rintro ⟨rfl, rfl⟩
    rfl

theorem path_eq_qualify_iff (inside : id.index < t.size) (plain : isDotted name = false)
    (within : other.index < t.size) (inner : other ≠ root) :
    t.path other = t.qualify id name ↔ t.child? id name = some other := by
  rw [labelled.child?_iff_pathSegments inside within]
  constructor
  · intro same
    have segments := congrArg segments same
    rwa [labelled.segments_qualify inside plain, path,
      segments_joinSegments (labelled.pathSegments_ne_nil within inner)
        (labelled.segments_plain other)] at segments
  · intro same
    rw [labelled.qualify_eq inside, path, same]

theorem segments_method {f : FunctionDefinition} {className : String}
    (method : f.owner = .inClass id className) (inside : id.index < t.size)
    (plain : isDotted className = false) (plain' : isDotted f.name = false) :
    segments (t.qualifyFunction f) = t.pathSegments id ++ [className] ++ [f.name] := by
  have nonempty : t.pathSegments id ++ [className] ≠ [] := by simp
  have joined := joinSegments_concat nonempty f.name
  rw [← labelled.qualify_eq inside] at joined
  unfold qualifyFunction
  rw [method]
  dsimp only
  rw [← joined]
  apply segments_joinSegments (by simp)
  intro part member
  rcases List.mem_append.mp member with member | member
  · exact labelled.plain_concat id plain part member
  · rw [List.mem_singleton.mp member]
    exact plain'

theorem segments_function {f : FunctionDefinition} (function : f.owner = .module id)
    (inside : id.index < t.size) (plain : isDotted f.name = false) :
    segments (t.qualifyFunction f) = t.pathSegments id ++ [f.name] := by
  unfold qualifyFunction
  rw [function]
  exact labelled.segments_qualify inside plain

theorem qualifyFunction_method {f : FunctionDefinition} {className : String}
    (method : f.owner = .inClass id className) (inside : id.index < t.size)
    (child : t.child? id className = some other) (name : f.name = name') :
    t.qualifyFunction f = t.qualify other name' := by
  have within := (labelled.arena.children _ _ _ child).1
  rw [labelled.qualify_eq within, pathSegments_child labelled.arena child,
    joinSegments_concat (by simp), ← labelled.qualify_eq inside, ← name]
  unfold qualifyFunction
  rw [method]

-- A method and a function of a module share a full name where the module shares the path of the
-- class.
theorem qualifyFunction_eq_iff {f g : FunctionDefinition} {className : String}
    (method : f.owner = .inClass id className) (function : g.owner = .module other)
    (inside : id.index < t.size) (within : other.index < t.size)
    (plain : isDotted className = false) (plain' : isDotted f.name = false)
    (plain'' : isDotted g.name = false) :
    t.qualifyFunction f = t.qualifyFunction g ↔
      f.name = g.name ∧ t.child? id className = some other := by
  constructor
  · intro same
    have segments := congrArg segments same
    rw [labelled.segments_method method inside plain plain',
      labelled.segments_function function within plain''] at segments
    obtain ⟨paths, names⟩ := List.append_inj' segments rfl
    exact ⟨List.singleton_inj.mp names,
      (labelled.child?_iff_pathSegments inside within).mpr paths.symm⟩
  · rintro ⟨names, child⟩
    rw [labelled.qualifyFunction_method method inside child names]
    unfold qualifyFunction
    rw [function]

end Labelled

end ModuleTree

end MiLanguage
