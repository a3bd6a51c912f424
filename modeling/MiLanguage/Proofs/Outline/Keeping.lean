import MiLanguage.Proofs.Analysis.Clean
import MiLanguage.Proofs.FunctionTable
import MiLanguage.Proofs.Node
import MiLanguage.Proofs.Outline.Entries

set_option autoImplicit false

namespace MiLanguage

theorem FunctionTable.count_modify {g : FunctionDefinition → FunctionDefinition} (t : FunctionTable)
    (name : String) (types : List Datatype) (owner : Option String) (entry : Entry) :
    ((t.modify name types g).entries owner).count entry = (t.entries owner).count entry := by
  apply SymbolTable.count_modify
  intro overloads entry
  have length : ∀ fs : List FunctionDefinition,
      (modifyFirst (·.paramTypes = types) g fs).length = fs.length := by
    intro fs
    induction fs with
    | nil => rfl
    | cons f fs ih =>
        unfold modifyFirst
        split <;> simp [ih]
  simp [length]

/-- The same modules, and the same entries in each of them. -/
structure ModuleTree.Keeps (old new : ModuleTree) : Prop where
  arena : old.Arena → new.Arena
  found : ∀ path, new.at? path = old.at? path
  child : ∀ id name, new.child? id name = old.child? id name
  entries : ∀ path entry, (new.entriesAt path).count entry = (old.entriesAt path).count entry

namespace ModuleTree

variable {t : ModuleTree} {id : ModuleId}

theorem keeps_refl (t : ModuleTree) : t.Keeps t :=
  ⟨fun arena => arena, fun _ => rfl, fun _ _ => rfl, fun _ _ => rfl⟩

theorem Keeps.trans {a b c : ModuleTree} (first : a.Keeps b) (second : b.Keeps c) : a.Keeps c where
  arena arena := second.arena (first.arena arena)
  found path := (second.found path).trans (first.found path)
  child id name := (second.child id name).trans (first.child id name)
  entries path entry := (second.entries path entry).trans (first.entries path entry)

theorem keeps_modifyMembers {f : Members → Members} (t : ModuleTree) (id : ModuleId)
    (keeps : ∀ m entry, (f m).entries.count entry = m.entries.count entry) :
    t.Keeps (t.modifyMembers id f) where
  arena arena := arena.modifyMembers id f
  found path := by simp
  child other name := t.child?_modifyMembers id other f name
  entries path entry := by
    unfold entriesAt
    rw [at?_modifyMembers]
    cases t.at? path with
    | none => rfl
    | some other =>
        simp only
        rw [members_modifyMembers]
        split
        next same =>
          rw [same.1]
          exact keeps _ _
        next => rfl

theorem keeps_modifyVariable {f : Variable → Variable} (t : ModuleTree) (id : ModuleId)
    (name : String) (value : ∀ v, (f v).value = v.value) :
    t.Keeps (t.modifyVariable id name f) := by
  apply keeps_modifyMembers
  intro m entry
  simp only [Members.entries, List.count_append, SymbolTable.variableEntries, List.map_eq_flatMap]
  rw [SymbolTable.count_modify]
  intro v entry
  simp only [value]

theorem keeps_modifyFunction {g : FunctionDefinition → FunctionDefinition} (t : ModuleTree)
    (id : ModuleId) (name : String) (types : List Datatype) :
    t.Keeps (t.modifyFunction id name types g) := by
  apply keeps_modifyMembers
  intro m entry
  simp only [Members.entries, List.count_append, FunctionTable.count_modify]

theorem keeps_modifyClass {f : ClassDeclaration → ClassDeclaration} (t : ModuleTree) (id : ModuleId)
    (name : String)
    (keeps : ∀ c owner entry, ((f c).entries owner).count entry = (c.entries owner).count entry) :
    t.Keeps (t.modifyClass id name f) := by
  apply keeps_modifyMembers
  intro m entry
  simp only [Members.entries, List.count_append]
  rw [SymbolTable.count_modify]
  intro c entry
  simp only [List.count_cons, keeps]

theorem keeps_attachBody (t : ModuleTree) (body : Node) (owner : BodyOwner) :
    t.Keeps (AnalysisState.attachBody t body owner) := by
  cases owner with
  | function owner name types =>
      cases owner with
      | module id => exact t.keeps_modifyFunction id name types
      | inClass id c =>
          apply keeps_modifyClass
          intro c owner entry
          simp only [ClassDeclaration.entries, List.count_append, FunctionTable.count_modify]
  | constructor id c =>
      apply keeps_modifyClass
      intro c owner entry
      simp only [ClassDeclaration.entries, Option.map_map]
      rfl

theorem Updated.keeps {new : ModuleTree} (updated : t.Updated new) : t.Keeps new := by
  induction updated with
  | refl => exact t.keeps_refl
  | marked id name _ ih => exact ih.trans (keeps_modifyVariable _ id name fun _ => rfl)

end ModuleTree

/-- A scope that is open stays what it is, but for the variables of a block and the marks on the
fields of a class. -/
inductive Frame.Kept : Frame → Frame → Prop
  | refl (f : Frame) : Kept f f
  | block {kind : BlockKind} {old new : Block} : Kept (.block kind old) (.block kind new)
  | fields {id : ModuleId} {c : ClassDeclaration} {fields : SymbolTable Variable} :
      c.fields.Marked fields → Kept (.class id c) (.class id { c with fields })

namespace Frame

variable {old new : Frame}

theorem Kept.trans {f : Frame} (first : old.Kept new) (second : new.Kept f) : old.Kept f := by
  cases first with
  | refl => exact second
  | block => cases second <;> exact .block
  | fields marked =>
      cases second with
      | refl => exact .fields marked
      | fields marked' => exact .fields (marked.trans marked')

theorem Updated.kept (updated : old.Updated new) : old.Kept new := by
  cases updated with
  | refl => exact .refl _
  | block => exact .block
  | fields marked => exact .fields marked

theorem Kept.moduleId? (kept : old.Kept new) : new.moduleId? = old.moduleId? := by
  cases kept <;> rfl

theorem Kept.blockKind? (kept : old.Kept new) : new.blockKind? = old.blockKind? := by
  cases kept <;> rfl

theorem Kept.isBlock (kept : old.Kept new) : new.isBlock = old.isBlock := by
  cases kept <;> rfl

theorem Kept.isModule (kept : old.Kept new) : new.isModule = old.isModule := by
  cases kept <;> rfl

end Frame

structure Scope.Kept (old new : Scope) : Prop where
  node : new.node = old.node
  discard : new.discard = old.discard
  frame : old.frame.Kept new.frame

namespace Scope

theorem kept_refl (s : Scope) : s.Kept s := ⟨rfl, rfl, .refl _⟩

theorem Kept.trans {a b c : Scope} (first : a.Kept b) (second : b.Kept c) : a.Kept c :=
  ⟨second.node.trans first.node, second.discard.trans first.discard, first.frame.trans second.frame⟩

theorem Updated.kept {old new : Scope} (updated : old.Updated new) : old.Kept new :=
  ⟨updated.node, updated.discard, updated.frame.kept⟩

end Scope

namespace Environment

variable {old new env after : Environment} {nodes : List Node}

/-- What a statement leaves of the scopes and the modules, besides its own node. -/
structure Kept (old new : Environment) : Prop where
  scopes : List.Forall₂ Scope.Kept old.scopes.all new.scopes.all
  modules : old.modules.Keeps new.modules

-- The current scope's node with more children.
def grow (env : Environment) (nodes : List Node) : Environment :=
  { env with scopes := env.scopes.modifyCurrent fun scope =>
      { scope with node := scope.node.withChildren nodes } }

theorem kept_refl (env : Environment) : env.Kept env :=
  ⟨List.forall₂_same.mpr fun scope _ => scope.kept_refl, env.modules.keeps_refl⟩

theorem Kept.trans {a b c : Environment} (first : a.Kept b) (second : b.Kept c) : a.Kept c := by
  refine ⟨?_, first.modules.trans second.modules⟩
  obtain ⟨opened, _⟩ := first
  obtain ⟨later, _⟩ := second
  generalize a.scopes.all = old at opened
  generalize b.scopes.all = middle at opened later
  generalize c.scopes.all = new at later
  induction opened generalizing new with
  | nil => cases later; exact .nil
  | cons head _ ih =>
      cases later with
      | cons head' tail' => exact .cons (head.trans head') (ih _ tail')

theorem Updated.kept (updated : old.Updated new) : old.Kept new :=
  ⟨updated.scopes.all.imp fun _ _ scope => scope.kept, updated.modules.keeps⟩

theorem Warned.kept (warns : old.Warned new) : old.Kept new := warns.updated.kept

theorem kept_modifyBlock (env : Environment) (f : Block → Block) : env.Kept (env.modifyBlock f) := by
  refine ⟨?_, env.modules.keeps_refl⟩
  obtain ⟨outer, all, changed⟩ := env.scopes.all_eq_current
  unfold modifyBlock ScopeStack.modifyCurrentBlock
  simp only
  rw [all, changed]
  refine .cons ⟨rfl, rfl, ?_⟩ (List.forall₂_same.mpr fun scope _ => scope.kept_refl)
  cases env.scopes.current.frame <;> first | exact .block | exact .refl _

theorem all_grow (env : Environment) (nodes : List Node) :
    ∃ outer, env.scopes.all = env.scopes.current :: outer ∧ (env.grow nodes).scopes.all =
      { env.scopes.current with node := env.scopes.current.node.withChildren nodes } :: outer := by
  obtain ⟨outer, all, changed⟩ := env.scopes.all_eq_current
  exact ⟨outer, all, changed _⟩

theorem Kept.grow (kept : old.Kept new) (nodes : List Node) : (old.grow nodes).Kept (new.grow nodes) := by
  refine ⟨?_, kept.modules⟩
  obtain ⟨outer, all, grown⟩ := old.all_grow nodes
  obtain ⟨outer', all', grown'⟩ := new.all_grow nodes
  have scopes := kept.scopes
  rw [all, all'] at scopes
  rw [grown, grown']
  cases scopes with
  | cons current rest =>
      exact .cons ⟨by simp only [current.node], current.discard, current.frame⟩ rest

theorem grow_grow (env : Environment) (nodes more : List Node) :
    (env.grow nodes).grow more = env.grow (nodes ++ more) := by
  unfold Environment.grow
  simp only [ScopeStack.modifyCurrent_modifyCurrent, Node.withChildren, List.append_assoc]

theorem grow_nil (env : Environment) : env.grow [] = env := by
  obtain ⟨modules, ⟨opened, base⟩, inLibrary⟩ := env
  unfold Environment.grow ScopeStack.modifyCurrent
  cases opened <;> simp

theorem append_bodies {setting : Setting} (pass : setting.declaring = false) (env : Environment)
    (node : Node) : env.append setting node = env.grow [node] := by
  unfold Environment.append
  rw [if_neg (by simp [pass])]
  rfl

theorem Kept.frame (kept : old.Kept new) : old.frame.Kept new.frame := by
  obtain ⟨outer, all, _⟩ := old.scopes.all_eq_current
  obtain ⟨outer', all', _⟩ := new.scopes.all_eq_current
  have scopes := kept.scopes
  rw [all, all'] at scopes
  cases scopes with
  | cons current => exact current.frame

theorem Kept.depth (kept : old.Kept new) : new.scopes.depth = old.scopes.depth := by
  have length := kept.scopes.length_eq
  simp only [ScopeStack.all, List.length_append, List.length_singleton] at length
  exact length.symm

theorem Kept.currentModule (kept : old.Kept new) : new.currentModule = old.currentModule := by
  unfold Environment.currentModule ScopeStack.currentModule
  obtain ⟨scopes, _⟩ := kept
  generalize old.scopes.all = before at scopes
  generalize new.scopes.all = after at scopes
  congr 1
  induction scopes with
  | nil => rfl
  | cons head _ ih => simp only [List.findSome?_cons, head.frame.moduleId?, ih]

@[simp] theorem frame_grow (env : Environment) (nodes : List Node) :
    (env.grow nodes).frame = env.frame := by
  unfold Environment.frame Environment.grow ScopeStack.modifyCurrent ScopeStack.current
  cases env.scopes.opened <;> rfl

@[simp] theorem currentModule_grow (env : Environment) (nodes : List Node) :
    (env.grow nodes).currentModule = env.currentModule := by
  obtain ⟨outer, all, grown⟩ := env.all_grow nodes
  simp only [Environment.currentModule, ScopeStack.currentModule, all, grown, List.findSome?_cons]

-- What has been pushed comes off with the children that it has got.
theorem Kept.pop {full : Environment} {frame : Frame} {n : Node} {scope : Scope}
    {scopes : ScopeStack} (kept : ((env.push frame n).grow nodes).Kept full)
    (popped : full.scopes.pop? = some (scope, scopes)) :
    scope.node = n.withChildren nodes ∧ scope.discard = false ∧ frame.Kept scope.frame ∧
      env.Kept { full with scopes } := by
  have all := kept.scopes
  rw [ScopeStack.all_of_pop? popped] at all
  cases all with
  | cons current rest => exact ⟨current.node, current.discard, current.frame, rest, kept.modules⟩

end Environment

end MiLanguage
