import Mathlib.Data.List.Infix
import MiLanguage.Settings.Discovery

set_option autoImplicit false

namespace MiLanguage

namespace PathName

-- Where steps lead, from a directory whose names are innermost first.
def leads (here : List String) : List PathStep → List String
  | [] => here
  | step :: steps =>
      match step with
      | .gap | .stay => leads here steps
      | .up => leads here.tail steps
      | .into name => leads (name :: here) steps

-- The directory that a path is written from.
def base (path : PathName) (here : List String) : List String :=
  if path.rooted then [] else here

def denotes (path : PathName) (here : List String) : List String :=
  leads (path.base here) path.steps

theorem leads_append (here : List String) (first second : List PathStep) :
    leads here (first ++ second) = leads (leads here first) second := by
  induction first generalizing here with
  | nil => rfl
  | cons step first ih => cases step <;> exact ih _

-- The steps that a name in the directory is put behind.
def stem (path : PathName) : List PathStep :=
  if path.steps.getLast? = some .gap then path.steps.dropLast else path.steps

theorem child_steps (path : PathName) (name : String) :
    (path.child name).steps = path.stem ++ [.into name] := rfl

theorem stem_cases (path : PathName) : path.stem = path.steps ∨ path.steps = path.stem ++ [.gap] := by
  unfold stem
  split
  next gap => exact .inr (List.dropLast_append_getLast? _ gap).symm
  next => exact .inl rfl

theorem stem_sublist (path : PathName) : path.stem.Sublist path.steps := by
  rcases path.stem_cases with same | behind
  · rw [same]
  · rw [behind]
    exact List.sublist_append_left _ _

@[simp] theorem leads_stem (path : PathName) (here : List String) :
    leads here path.stem = leads here path.steps := by
  rcases path.stem_cases with same | behind
  · rw [same]
  · rw [behind, leads_append]
    rfl

theorem denotes_child (path : PathName) (here : List String) (name : String) :
    (path.child name).denotes here = name :: path.denotes here := by
  rw [denotes, child_steps, leads_append, leads_stem]
  rfl

section Lengths

-- Every part of a path takes its bytes and those of a slash.
def bytes : List PathStep → Nat
  | [] => 0
  | step :: steps => step.text.utf8ByteSize + 1 + bytes steps

theorem bytes_append (steps more : List PathStep) :
    bytes (steps ++ more) = bytes steps + bytes more := by
  induction steps with
  | nil => simp [bytes]
  | cons step steps ih => simp only [List.cons_append, bytes, ih, Nat.add_assoc]

theorem bytes_le_of_sublist {steps more : List PathStep} (fewer : steps.Sublist more) :
    bytes steps ≤ bytes more := by
  induction fewer with
  | slnil => exact Nat.le_refl _
  | cons step _ ih => exact Nat.le_trans ih (Nat.le_add_left _ _)
  | cons_cons step _ ih => exact Nat.add_le_add_left ih _

theorem size_joined (steps : List PathStep) (nonempty : steps ≠ []) :
    (String.intercalate "/" (steps.map PathStep.text)).utf8ByteSize + 1 = bytes steps := by
  induction steps with
  | nil => exact absurd rfl nonempty
  | cons step steps ih =>
      cases steps with
      | nil => simp [bytes]
      | cons next steps =>
          have rest := ih (by simp)
          simp only [List.map_cons] at rest ⊢
          rw [String.intercalate_cons_cons]
          simp only [String.utf8ByteSize_append]
          simp only [bytes] at rest ⊢
          have slash : "/".utf8ByteSize = 1 := rfl
          omega

theorem size_child_le {path other : PathName} {name another : String}
    (rooted : other.rooted = path.rooted) (fewer : other.stem.Sublist path.stem)
    (shorter : another.utf8ByteSize ≤ name.utf8ByteSize) :
    (other.child another).text.utf8ByteSize ≤ (path.child name).text.utf8ByteSize := by
  have sizes : bytes (other.stem ++ [.into another]) ≤ bytes (path.stem ++ [.into name]) := by
    have stems := bytes_le_of_sublist fewer
    simp only [bytes_append, bytes, PathStep.text]
    omega
  rw [← size_joined _ (by simp), ← size_joined _ (by simp)] at sizes
  have left : (other.child another).rooted = path.rooted := rooted
  have right : (path.child name).rooted = path.rooted := rfl
  rw [text, text, left, right, child_steps, child_steps, String.utf8ByteSize_append,
    String.utf8ByteSize_append]
  omega

end Lengths

section Parents

theorem dropIdle_suffix (rooted : Bool) (steps : List PathStep) :
    dropIdle rooted steps <:+ steps := by
  induction steps with
  | nil => exact List.suffix_refl _
  | cons step before ih =>
      unfold dropIdle
      split
      · exact ih.trans (List.suffix_cons ..)
      · exact List.suffix_refl _

theorem leads_dropIdle (rooted : Bool) (here : List String) (steps : List PathStep) :
    leads here (dropIdle rooted steps).reverse = leads here steps.reverse := by
  induction steps with
  | nil => rfl
  | cons step before ih =>
      unfold dropIdle
      split
      next idle =>
        rw [ih, List.reverse_cons, leads_append]
        cases step with
        | gap | stay => rfl
        | up | into => cases idle
      next => rfl

theorem mem_parents {path parent : PathName} {steps : List PathStep}
    (member : parent ∈ parents.go path steps) :
    parent.rooted = path.rooted ∧ parent.steps.Sublist steps.reverse := by
  induction steps with
  | nil => cases member
  | cons step before ih =>
      have wider : before.reverse.Sublist (step :: before).reverse := by simp
      unfold parents.go at member
      split at member
      · obtain ⟨rooted, fewer⟩ := ih member
        exact ⟨rooted, fewer.trans wider⟩
      · rcases List.mem_cons.mp member with rfl | member
        · exact ⟨rfl, (List.Sublist.trans (dropIdle_suffix ..).sublist.reverse wider)⟩
        · obtain ⟨rooted, fewer⟩ := ih member
          exact ⟨rooted, fewer.trans wider⟩

-- One slash at the end makes no difference to the parents.
theorem parents_stem (path : PathName) : path.parents = parents.go path path.stem.reverse := by
  rcases path.stem_cases with same | behind
  · rw [same]
    rfl
  · rw [parents, behind]
    simp [parents.go, isIdle]

theorem mem_outward {path directory : PathName} (member : directory ∈ path.outward) :
    directory.rooted = path.rooted ∧ directory.steps.Sublist path.steps ∧
      directory.stem.Sublist path.stem := by
  rcases List.mem_cons.mp member with rfl | member
  · exact ⟨rfl, .refl _, .refl _⟩
  · rw [parents_stem] at member
    obtain ⟨rooted, fewer⟩ := mem_parents member
    rw [List.reverse_reverse] at fewer
    exact ⟨rooted, fewer.trans path.stem_sublist, directory.stem_sublist.trans fewer⟩

end Parents

end PathName

namespace FileTree

variable {tree : FileTree} {here names : List String} {name : String} {steps : List PathStep}

def isFile (tree : FileTree) : Bool := tree.entry.isFile

@[simp] theorem entry_isPresent (tree : FileTree) : tree.entry.isPresent = true := by
  cases tree <;> rfl

theorem at?_append (tree : FileTree) (first second : List String) :
    tree.at? (first ++ second) = (tree.at? first).bind (·.at? second) := by
  induction first generalizing tree with
  | nil => rfl
  | cons name first ih =>
      rw [List.cons_append, at?, at?]
      cases tree.child? name with
      | none => rfl
      | some inside => exact ih inside

-- Only a directory has something in it.
theorem directory_of_inside {first second : List String} {found : FileTree}
    (inside : tree.at? (first ++ name :: second) = some found) :
    ∃ entries, tree.at? first = some (.directory entries) := by
  rw [at?_append] at inside
  obtain ⟨outer, here, inside⟩ := Option.bind_eq_some_iff.mp inside
  cases outer with
  | file => cases inside
  | directory entries => exact ⟨entries, here⟩

-- The names in the tree are none too long for a directory.
def NamesFit (tree : FileTree) : Prop :=
  ∀ names found, tree.at? names = some found → ∀ name ∈ names, name.utf8ByteSize ≤ maxNameBytes

theorem namesFit_file (contents : String) : (FileTree.file contents).NamesFit := by
  intro names found there
  cases names with
  | nil => simp
  | cons => cases there

theorem namesFit_directory {entries : List (String × FileTree)}
    (each : ∀ e ∈ entries, e.1.utf8ByteSize ≤ maxNameBytes ∧ e.2.NamesFit) :
    (FileTree.directory entries).NamesFit := by
  intro names found there
  cases names with
  | nil => simp
  | cons name names =>
      obtain ⟨inside, entry, there⟩ := Option.bind_eq_some_iff.mp there
      obtain ⟨before, after, split, -⟩ := List.lookup_eq_some_iff.mp entry
      obtain ⟨short, fit⟩ := each (name, inside) (by simp [split])
      exact List.forall_mem_cons.mpr ⟨short, fit names found there⟩

end FileTree

namespace PathName

open FileTree

variable {tree : FileTree} {here names : List String} {name : String} {steps : List PathStep}

theorem suffix_leads (down : .up ∉ steps) (here : List String) : here <:+ leads here steps := by
  induction steps generalizing here with
  | nil => exact List.suffix_refl _
  | cons step steps ih =>
      have rest : PathStep.up ∉ steps := fun later => down (List.mem_cons_of_mem _ later)
      cases step with
      | gap | stay => exact ih rest here
      | up => exact absurd List.mem_cons_self down
      | into name => exact (List.suffix_cons ..).trans (ih rest (name :: here))

theorem walk_leads (walked : tree.walk here steps = .ok names) : names = leads here steps := by
  induction steps generalizing here with
  | nil => exact (Except.ok.inj walked).symm
  | cons step steps ih =>
      unfold walk at walked
      split at walked
      next => cases walked
      next => cases walked
      next =>
        cases step with
        | gap | stay => exact ih walked
        | up => exact ih walked
        | into name =>
            simp only at walked
            split at walked
            next => cases walked
            next =>
              split at walked
              next => exact ih walked
              next => cases walked

-- What is in the tree is found by going down to it.
theorem walk_down (fits : tree.NamesFit) (down : .up ∉ steps) {found : FileTree}
    (inside : tree.at? (name :: leads here steps).reverse = some found) :
    tree.walk here (steps ++ [.into name]) = .ok (name :: leads here steps) := by
  have directory (rest : List PathStep) (down : .up ∉ rest) (here : List String)
      (inside : tree.at? (name :: leads here rest).reverse = some found) :
      ∃ entries, tree.at? here.reverse = some (.directory entries) := by
    obtain ⟨below, whole⟩ := suffix_leads down here
    rw [← whole, ← List.cons_append, List.reverse_append, List.reverse_cons] at inside
    cases turned : below.reverse with
    | nil =>
        rw [turned] at inside
        exact directory_of_inside inside
    | cons first others =>
        rw [turned] at inside
        exact directory_of_inside inside
  induction steps generalizing here with
  | nil =>
      obtain ⟨entries, listed⟩ := directory [] (by simp) here inside
      have short := fits _ _ inside name (by simp)
      have inside' : tree.at? (name :: here).reverse = some found := inside
      simp only [List.nil_append, walk, listed]
      rw [if_neg (by omega), if_pos (by rw [inside']; rfl)]
      rfl
  | cons step steps ih =>
      have rest : PathStep.up ∉ steps := fun later => down (List.mem_cons_of_mem _ later)
      obtain ⟨entries, listed⟩ := directory _ down here inside
      rw [List.cons_append, walk.eq_def]
      simp only [listed]
      cases step with
      | gap | stay => exact ih rest inside
      | up => exact absurd List.mem_cons_self down
      | into next =>
          obtain ⟨below, whole⟩ := suffix_leads rest (next :: here)
          obtain ⟨_, there⟩ := directory steps rest (next :: here) inside
          have short := fits _ _ there next (by simp)
          simp only
          rw [if_neg (by omega), if_pos (by rw [there]; rfl)]
          exact ih rest inside

theorem walk_fault {fault : FileFault} (failed : tree.walk here steps = .error fault) :
    (FileEntry.absent fault).isPresent = false := by
  induction steps generalizing here with
  | nil => cases failed
  | cons step steps ih =>
      unfold walk at failed
      split at failed
      next => cases failed; rfl
      next => cases failed; rfl
      next =>
        cases step with
        | gap | stay => exact ih failed
        | up => exact ih failed
        | into name =>
            simp only at failed
            split at failed
            next => cases failed; rfl
            next =>
              split at failed
              next => exact ih failed
              next => cases failed; rfl

theorem view_of_walk {path : PathName} (here : List String) (nonempty : path.isEmpty = false)
    (short : path.text.utf8ByteSize ≤ maxPathBytes) :
    tree.view here path =
      match tree.walk (path.base here) path.steps with
      | .error fault => .absent fault
      | .ok names =>
          match tree.at? names.reverse with
          | none => .absent .notFound
          | some found => found.entry := by
  rw [view, nonempty, if_neg (by simp), if_neg (by omega)]
  rfl

theorem view_child {path : PathName} (here : List String) (fits : tree.NamesFit) (down : .up ∉ path.steps)
    (short : (path.child name).text.utf8ByteSize ≤ maxPathBytes) :
    match tree.at? (name :: path.denotes here).reverse with
    | some found => tree.view here (path.child name) = found.entry
    | none => (tree.view here (path.child name)).isPresent = false := by
  have nonempty : (path.child name).isEmpty = false := by
    simp [isEmpty, child_steps]
  have below : .up ∉ path.stem := fun climbs => down (path.stem_sublist.subset climbs)
  rw [view_of_walk here nonempty short, child_steps, show (path.child name).base = path.base from rfl]
  have target : name :: leads (path.base here) path.stem = name :: path.denotes here := by
    rw [leads_stem, denotes]
  split
  next found inside =>
    rw [← target] at inside
    rw [walk_down fits below inside]
    simp only [inside]
  next nothing =>
    cases reached : tree.walk (path.base here) (path.stem ++ [.into name]) with
    | error fault => exact walk_fault reached
    | ok names =>
        have same := walk_leads reached
        rw [leads_append] at same
        have same : names = name :: path.denotes here := same.trans target
        simp only [same, nothing]
        rfl

end PathName

namespace Settings

open FileTree PathName

variable {tree : FileTree} {here start dir outer : List String}

-- The directory, named innermost first, has settings of its own.
def HasSettings (tree : FileTree) (dir : List String) : Prop :=
  (tree.at? (fileName :: dir).reverse).any FileTree.isFile = true

-- A repository has its root in the directory.
def IsRoot (tree : FileTree) (dir : List String) : Prop :=
  (tree.at? (".git" :: dir).reverse).isSome = true

instance (tree : FileTree) (dir : List String) : Decidable (HasSettings tree dir) :=
  inferInstanceAs (Decidable (_ = true))

instance (tree : FileTree) (dir : List String) : Decidable (IsRoot tree dir) :=
  inferInstanceAs (Decidable (_ = true))

/-- The settings in `dir` are the nearest to `start`: it is that directory or one around it, has
settings, and on the way there is neither a settings file nor the root of a repository. -/
structure Governs (tree : FileTree) (start dir : List String) : Prop where
  around : dir <:+ start
  settings : HasSettings tree dir
  nearest : ∀ d, dir <:+ d → d <:+ start → d ≠ dir → ¬HasSettings tree d ∧ ¬IsRoot tree d

-- The search, on the tree itself.
def search (tree : FileTree) : List (List String) → Option (List String)
  | [] => none
  | dir :: others =>
      if HasSettings tree dir then some dir
      else if IsRoot tree dir then none
      else search tree others

-- To look twice at a directory changes nothing.
theorem search_twice (tree : FileTree) (dir : List String) (others : List (List String)) :
    search tree (dir :: dir :: others) = search tree (dir :: others) := by
  simp only [search]
  split
  next => rfl
  next => split <;> rfl

theorem search_congr (dir : List String) {others others' : List (List String)}
    (same : search tree others = search tree others') :
    search tree (dir :: others) = search tree (dir :: others') := by
  simp only [search, same]

-- The paths that can be looked at: none of them is too long.
def Short (path : PathName) : Prop :=
  (path.child fileName).text.utf8ByteSize ≤ maxPathBytes

instance (path : PathName) : Decidable (Short path) := inferInstanceAs (Decidable (_ ≤ _))

theorem seen {directory : PathName} (here : List String) (fits : tree.NamesFit) (down : .up ∉ directory.steps)
    (short : Short directory) :
    ((tree.view here (directory.child fileName)).isFile = true ↔
        HasSettings tree (directory.denotes here)) ∧
      ((tree.view here (directory.child ".git")).isPresent = true ↔
        IsRoot tree (directory.denotes here)) := by
  have absent {entry : FileEntry} (absent : entry.isPresent = false) : entry.isFile = false := by
    cases entry with
    | text | directory => cases absent
    | absent fault => cases fault <;> first | rfl | cases absent
  have shorter : (directory.child ".git").text.utf8ByteSize ≤ maxPathBytes :=
    Nat.le_trans (size_child_le rfl (.refl _) (by decide +kernel)) short
  constructor
  · have view := view_child here fits down short
    unfold HasSettings
    split at view
    next found inside => rw [view, inside]; rfl
    next nothing => rw [nothing, absent view]; simp
  · have view := view_child here fits down shorter
    unfold IsRoot
    split at view
    next found inside => rw [view, inside]; simp
    next nothing => rw [nothing, view]; simp

theorem firstFile?_search (fits : tree.NamesFit) {directories : List PathName}
    (plain : ∀ d ∈ directories, .up ∉ d.steps ∧ Short d) :
    (firstFile? (tree.view here) directories).map (PathName.denotes · here) =
      (search tree (directories.map (PathName.denotes · here))).map (fileName :: ·) := by
  induction directories with
  | nil => rfl
  | cons directory others ih =>
      obtain ⟨down, short⟩ := plain directory List.mem_cons_self
      have rest := ih fun d member => plain d (List.mem_cons_of_mem _ member)
      obtain ⟨file, root⟩ := seen here fits down short
      simp only [firstFile?, List.map_cons, search, file, root]
      split
      next => simp [denotes_child]
      next =>
        split
        next => rfl
        next => exact rest

-- Steps that lead nowhere apart, each path outward leads one directory further out.
theorem search_parents (tree : FileTree) (here : List String) (path : PathName)
    {steps : List PathStep} (down : .up ∉ steps) :
    ∃ names, leads (path.base here) steps.reverse = names ++ path.base here ∧
      search tree (leads (path.base here) steps.reverse ::
          (parents.go path steps).map (PathName.denotes · here)) =
        search tree (names.tails.map (· ++ path.base here)) := by
  induction steps with
  | nil => exact ⟨[], rfl, rfl⟩
  | cons step before ih =>
      obtain ⟨names, leading, searched⟩ := ih fun later => down (List.mem_cons_of_mem _ later)
      have last : leads (path.base here) (step :: before).reverse =
          leads (leads (path.base here) before.reverse) [step] := by
        rw [List.reverse_cons, leads_append]
      have outer : PathName.denotes ⟨path.rooted, (dropIdle path.rooted before).reverse⟩ here =
          leads (path.base here) before.reverse := leads_dropIdle ..
      cases step with
      | gap =>
          refine ⟨names, last.trans leading, ?_⟩
          rw [last]
          exact searched
      | stay =>
          refine ⟨names, last.trans leading, ?_⟩
          rw [last]
          unfold parents.go
          split
          next => exact searched
          next first =>
            rw [List.map_cons, outer, ← searched]
            exact search_twice ..
      | up => exact absurd List.mem_cons_self down
      | into name =>
          refine ⟨name :: names, last.trans (by rw [leading]; rfl), ?_⟩
          have listed : leads (path.base here) (.into name :: before).reverse =
              name :: names ++ path.base here := last.trans (by rw [leading]; rfl)
          have inner : (parents.go path (.into name :: before)) =
              ⟨path.rooted, (dropIdle path.rooted before).reverse⟩ :: parents.go path before := rfl
          rw [inner, List.map_cons, outer, listed, List.tails_cons, List.map_cons]
          exact search_congr _ searched

theorem search_governs (base names : List String) :
    search tree (names.tails.map (· ++ base)) = some dir ↔
      Governs tree (names ++ base) dir ∧ base <:+ dir := by
  induction names with
  | nil =>
      have only : search tree ([].tails.map (· ++ base)) =
          if HasSettings tree base then some base else none := by
        simp only [List.tails, List.map_cons, List.map_nil, search, List.nil_append]
        split
        next => rfl
        next => split <;> rfl
      rw [only, List.nil_append]
      constructor
      · intro found
        split at found
        next settings =>
          cases found
          refine ⟨⟨List.suffix_refl _, settings, fun d inner outer apart => ?_⟩, List.suffix_refl _⟩
          exact absurd (outer.eq_of_length_le inner.length_le) apart
        next => cases found
      · rintro ⟨governs, within⟩
        have same := governs.around.eq_of_length_le within.length_le
        rw [if_pos (same ▸ governs.settings), same]
  | cons name names ih =>
      have stop (d : List String) : d <:+ names ++ base → d ≠ name :: (names ++ base) := by
        rintro within rfl
        exact absurd within.length_le (by simp)
      rw [List.tails_cons, List.map_cons, search, List.cons_append]
      constructor
      · intro found
        split at found
        next settings =>
          cases found
          refine ⟨⟨List.suffix_refl _, settings, fun d inner outer apart => ?_⟩,
            (List.suffix_append ..).trans (List.suffix_cons ..)⟩
          exact absurd (outer.eq_of_length_le inner.length_le) apart
        next bare =>
          split at found
          next => cases found
          next inside =>
            obtain ⟨governs, within⟩ := ih.mp found
            refine ⟨⟨governs.around.trans (List.suffix_cons ..), governs.settings, ?_⟩, within⟩
            intro d inner outer apart
            rcases List.suffix_cons_iff.mp outer with rfl | outer
            · exact ⟨bare, inside⟩
            · exact governs.nearest d inner outer apart
      · rintro ⟨governs, within⟩
        rcases List.suffix_cons_iff.mp governs.around with rfl | around
        · rw [if_pos governs.settings]
        · obtain ⟨bare, inside⟩ := governs.nearest _ governs.around (List.suffix_refl _)
            (stop dir around).symm
          rw [if_neg bare, if_neg inside]
          exact ih.mpr ⟨⟨around, governs.settings, fun d inner outer apart =>
            governs.nearest d inner (outer.trans (List.suffix_cons ..)) apart⟩, within⟩

-- The first directory to have settings decides, if no root of a repository comes before it.
theorem firstFile?_eq_some {files : FileView} {directories : List PathName} {file : PathName} :
    firstFile? files directories = some file ↔
      ∃ nearer d farther, directories = nearer ++ d :: farther ∧ file = d.child fileName ∧
        (files file).isFile = true ∧ ∀ e ∈ nearer,
          (files (e.child fileName)).isFile = false ∧ (files (e.child ".git")).isPresent = false := by
  induction directories with
  | nil => simp [firstFile?]
  | cons directory others ih =>
      unfold firstFile?
      constructor
      · intro found
        split at found
        next settings =>
          cases found
          exact ⟨[], directory, others, rfl, rfl, settings, by simp⟩
        next bare =>
          split at found
          next => cases found
          next inside =>
            obtain ⟨nearer, d, farther, rfl, same, settings, before⟩ := ih.mp found
            refine ⟨directory :: nearer, d, farther, rfl, same, settings, ?_⟩
            exact List.forall_mem_cons.mpr
              ⟨⟨Bool.eq_false_iff.mpr bare, Bool.eq_false_iff.mpr inside⟩, before⟩
      · rintro ⟨nearer, d, farther, split, rfl, settings, before⟩
        cases nearer with
        | nil =>
            obtain ⟨rfl, rfl⟩ := List.cons.inj split
            rw [if_pos settings]
        | cons first nearer =>
            obtain ⟨rfl, rfl⟩ := List.cons.inj split
            obtain ⟨⟨bare, inside⟩, before⟩ := List.forall_mem_cons.mp before
            rw [bare, inside]
            exact ih.mpr ⟨nearer, d, farther, rfl, rfl, settings, before⟩

-- For a path without `..` the search goes over the directory that it denotes and those around it, as
-- far as the one that it is written from.
theorem find?_search {path : PathName} (here : List String) (fits : tree.NamesFit) (down : .up ∉ path.steps)
    (short : Short path) :
    ∃ names, path.denotes here = names ++ path.base here ∧
      (find? (tree.view here) path).map (PathName.denotes · here) =
        (search tree (names.tails.map (· ++ path.base here))).map (fileName :: ·) := by
  have plain : ∀ d ∈ path.outward, .up ∉ d.steps ∧ Short d := by
    intro d member
    obtain ⟨rooted, steps, fewer⟩ := mem_outward member
    exact ⟨fun climbs => down (steps.subset climbs),
      Nat.le_trans (size_child_le rooted fewer (Nat.le_refl _)) short⟩
  have below : PathStep.up ∉ path.steps.reverse := by simpa using down
  obtain ⟨names, leading, searched⟩ := search_parents tree here path below
  rw [List.reverse_reverse] at leading searched
  refine ⟨names, leading, ?_⟩
  rw [find?, firstFile?_search fits plain, ← searched]
  rfl

/-- The search goes out along the path as it is written. If the path has no `..`, what it finds is
the settings file that governs the directory denoted, and it finds none just if there is none, except
that it never looks further out than where the path is written from: for a path from the root of the
file system that is no exception. -/
theorem find?_governs (tree : FileTree) (here : List String) (path : PathName)
    (fits : tree.NamesFit) (down : .up ∉ path.steps) (short : Short path) :
    (∀ dir, (∃ file, find? (tree.view here) path = some file ∧
        file.denotes here = fileName :: dir) ↔
      Governs tree (path.denotes here) dir ∧ path.base here <:+ dir) ∧
    (find? (tree.view here) path = none ↔
      ∀ dir, Governs tree (path.denotes here) dir → ¬path.base here <:+ dir) ∧
    ∀ file, find? (tree.view here) path = some file ↔
      ∃ nearer d farther, path.outward = nearer ++ d :: farther ∧ file = d.child fileName ∧
        (tree.view here file).isFile = true ∧ ∀ e ∈ nearer,
          (tree.view here (e.child fileName)).isFile = false ∧
            (tree.view here (e.child ".git")).isPresent = false := by
  obtain ⟨names, denoted, searched⟩ := find?_search here fits down short
  have found (dir : List String) : (∃ file, find? (tree.view here) path = some file ∧
      file.denotes here = fileName :: dir) ↔
        Governs tree (path.denotes here) dir ∧ path.base here <:+ dir := by
    rw [denoted, ← search_governs, ← Option.map_eq_some_iff, searched]
    simp
  refine ⟨found, ?_, fun _ => firstFile?_eq_some⟩
  constructor
  · intro nothing dir governs within
    obtain ⟨file, lies, -⟩ := (found dir).mpr ⟨governs, within⟩
    rw [nothing] at lies
    cases lies
  · intro ungoverned
    cases lies : find? (tree.view here) path with
    | none => rfl
    | some file =>
        rw [lies, Option.map_some] at searched
        obtain ⟨dir, -, same⟩ := Option.map_eq_some_iff.mp searched.symm
        obtain ⟨governs, within⟩ := (found dir).mp ⟨file, lies, same.symm⟩
        exact absurd within (ungoverned dir governs)

-- A repository with settings of its own, and with more of them in one of its directories.
def sourceTree : FileTree :=
  .directory [("repo", .directory [(".git", .directory []), ("mi.toml", .file ""),
    ("docs", .directory [("mi.toml", .file "")]), ("src", .directory [("core", .directory [])])])]

theorem sourceTree_namesFit : sourceTree.NamesFit := by
  have empty : (FileTree.directory []).NamesFit := namesFit_directory (by simp)
  have docs : (FileTree.directory [("mi.toml", .file "")]).NamesFit := by
    refine namesFit_directory (List.forall_mem_singleton.mpr ?_)
    exact ⟨by decide +kernel, namesFit_file _⟩
  have src : (FileTree.directory [("core", .directory [])]).NamesFit := by
    refine namesFit_directory (List.forall_mem_singleton.mpr ?_)
    exact ⟨by decide +kernel, empty⟩
  refine namesFit_directory (List.forall_mem_singleton.mpr ⟨by decide +kernel, ?_⟩)
  refine namesFit_directory (List.forall_mem_cons.mpr ⟨⟨by decide +kernel, empty⟩, ?_⟩)
  refine List.forall_mem_cons.mpr ⟨⟨by decide +kernel, namesFit_file _⟩, ?_⟩
  refine List.forall_mem_cons.mpr ⟨⟨by decide +kernel, docs⟩, ?_⟩
  exact List.forall_mem_singleton.mpr ⟨by decide +kernel, src⟩

/-- `/repo/./src//core` is governed by the settings of the repository around it. -/
theorem sourceTree_governs :
    let path : PathName := ⟨true, [.into "repo", .stay, .into "src", .gap, .into "core"]⟩
    sourceTree.NamesFit ∧ .up ∉ path.steps ∧ Short path ∧
      find? (sourceTree.view []) path = some ⟨true, [.into "repo", .into "mi.toml"]⟩ ∧
      Governs sourceTree ["core", "src", "repo"] ["repo"] := by
  intro path
  have down : .up ∉ path.steps := by decide
  have short : Short path := by decide +kernel
  have found : find? (sourceTree.view []) path =
      some ⟨true, [.into "repo", .into "mi.toml"]⟩ := by decide +kernel
  obtain ⟨finds, -⟩ := find?_governs sourceTree [] path sourceTree_namesFit down short
  exact ⟨sourceTree_namesFit, down, short, found, ((finds ["repo"]).mp ⟨_, found, rfl⟩).1⟩

/-- The path `/repo/docs/../src` denotes `/repo/src`. If only `/repo/docs` has settings, none govern
there, but the search leaves off the steps one by one and comes to `/repo/docs`. If `/repo` has
settings they govern, but a search that starts in `/repo/src` from `.` never gets there. -/
theorem sourceTree_astray :
    let bare : FileTree := .directory [("repo", .directory [
      ("docs", .directory [("mi.toml", .file "")]), ("src", .directory [])])]
    let path : PathName := ⟨true, [.into "repo", .into "docs", .up, .into "src"]⟩
    path.denotes [] = ["src", "repo"] ∧ (∀ dir, ¬Governs bare ["src", "repo"] dir) ∧
      find? (bare.view []) path = some ⟨true, [.into "repo", .into "docs", .into "mi.toml"]⟩ ∧
      Governs sourceTree ["src", "repo"] ["repo"] ∧
      find? (sourceTree.view ["src", "repo"]) .here = none := by
  refine ⟨rfl, ?_, by decide +kernel, ⟨by decide, by decide +kernel, ?_⟩, by decide +kernel⟩
  · intro dir governs
    have bare : ∀ d ∈ ["src", "repo"].tails, ¬HasSettings (.directory [("repo", .directory [
        ("docs", .directory [("mi.toml", .file "")]), ("src", .directory [])])]) d := by
      decide +kernel
    exact bare dir ((List.mem_tails _ _).mpr governs.around) governs.settings
  · intro d _ outer apart
    have first : ∀ d ∈ ["src", "repo"].tails, d ≠ ["repo"] → ["repo"] <:+ d →
        ¬HasSettings sourceTree d ∧ ¬IsRoot sourceTree d := by
      decide +kernel
    exact first d ((List.mem_tails _ _).mpr outer) apart ‹_›

end Settings

end MiLanguage
