import MiLanguage.Proofs.Passes.Sketch
import MiLanguage.Proofs.Statement.Names

set_option autoImplicit false

namespace MiLanguage

-- Only the root module's scope, which is below all others, says that it is one.
def Rooted (sketches : List Sketch) : Prop :=
  ∃ inner base, sketches = inner ++ [base] ∧ base.isParent = true ∧
    ∀ s ∈ inner, s.isParent = false

namespace Rooted

variable {sketches new : List Sketch} {s : Sketch}

theorem append (rooted : Rooted sketches) (inner : ∀ s ∈ new, s.isParent = false) :
    Rooted (new ++ sketches) := by
  obtain ⟨rest, base, rfl, root, plain⟩ := rooted
  refine ⟨new ++ rest, base, by simp, root, ?_⟩
  intro s member
  rcases List.mem_append.mp member with member | member
  · exact inner s member
  · exact plain s member

theorem tail (rooted : Rooted (s :: sketches)) (deep : sketches ≠ []) : Rooted sketches := by
  obtain ⟨inner, base, whole, root, plain⟩ := rooted
  cases inner with
  | nil =>
      cases whole
      exact absurd rfl deep
  | cons first inner =>
      cases whole
      exact ⟨inner, base, rfl, root, fun s member => plain s (by simp [member])⟩

theorem head_iff (rooted : Rooted (s :: sketches)) : s.isParent = true ↔ sketches = [] := by
  obtain ⟨inner, base, whole, root, plain⟩ := rooted
  cases inner with
  | nil =>
      cases whole
      simp [root]
  | cons first inner =>
      cases whole
      simp [plain s]

end Rooted

namespace Environment

variable {env env' : Environment} {setting setting' : Setting} {mods : LeadingModifiers}
  {first head : Token} {rest tail : List Token} {accepted : Accepted}

theorem isParent_iff (rooted : Rooted env.sketches) :
    env.frame.isParent = true ↔ env.scopes.depth = 1 := by
  obtain ⟨outer, all, _⟩ := env.scopes.all_eq_current
  have length := env.length_sketches
  rw [sketches, all, List.map_cons] at rooted length
  rw [← length]
  show env.scopes.current.frame.isParent = true ↔ _
  simpa [Scope.sketch] using rooted.head_iff

/-- Both environments are at the same place outside of bodies. -/
structure Level (env env' : Environment) : Prop where
  titles : env'.titles = env.titles
  inLibrary : env'.inLibrary = env.inLibrary
  rooted : Rooted env.sketches
  rooted' : Rooted env'.sketches

theorem Level.depth (level : env.Level env') : env'.scopes.depth = env.scopes.depth := by
  rw [← length_titles, ← length_titles, level.titles]

theorem Level.frame (level : env.Level env') (outside : Title.Outside env.titles) :
    env'.frame.title = env.frame.title := by
  have top := (title_frame outside).2.2
  have top' := (title_frame (level.titles.symm ▸ outside)).2.2
  rw [level.titles, top] at top'
  exact (Option.some.inj top').symm

theorem Level.typePlace (level : env.Level env') (outside : Title.Outside env.titles)
    {plural title : String} {done : Unit}
    (place : env.requireTypePlace head plural title = .ok done) :
    env'.requireTypePlace head plural title = .ok () := by
  have same := level.frame outside
  have parent := isParent_iff level.rooted
  have parent' := isParent_iff level.rooted'
  rw [level.depth] at parent'
  have iff := parent'.trans parent.symm
  unfold requireTypePlace at place ⊢
  cases frame : env.frame with
  | parent =>
      rw [frame] at place iff
      have root : env'.frame.isParent = true := iff.mpr rfl
      cases frame' : env'.frame with
      | parent =>
          rw [level.inLibrary]
          exact place
      | _ => simp [frame', Frame.isParent] at root
  | module =>
      rw [frame] at same iff
      cases frame' : env'.frame with
      | module => rfl
      | parent =>
          rw [frame'] at iff
          cases iff.mp rfl
      | _ => rw [frame'] at same; cases same
  | _ => simp [frame] at place

theorem statement_of_read (modifiers : LeadingModifiers.read (first :: rest) = .ok (mods, head :: tail))
    (other : head.kind ≠ .identifier) (read : env.read setting mods head tail = .ok accepted) :
    env.statement setting first rest = ⟨accepted.environment, .ok accepted.node⟩ := by
  simp only [statement, modifiers, dispatch]
  split
  next kind _ => exact absurd kind other
  next => rw [read]; rfl

-- The statement opens a scope.
def Deepens (env : Environment) (setting : Setting) (first : Token) (rest : List Token) : Prop :=
  ∃ accepted : Accepted, env.statement setting first rest = ⟨accepted.environment, .ok accepted.node⟩ ∧
    accepted.environment.scopes.depth = env.scopes.depth + 1

theorem deepens_of_read (modifiers : LeadingModifiers.read (first :: rest) = .ok (mods, head :: tail))
    (other : head.kind ≠ .identifier) (read : env.read setting mods head tail = .ok accepted)
    (deeper : accepted.environment.scopes.depth = env.scopes.depth + 1) :
    env.Deepens setting first rest :=
  ⟨accepted, statement_of_read modifiers other read, deeper⟩

-- What the first pass has opened the second one opens, too, if it finds it.
theorem module_again (level : env.Level env') (outside : Title.Outside env.titles)
    (read : env.statement setting first rest = ⟨accepted.environment, .ok accepted.node⟩)
    (modifiers : LeadingModifiers.read (first :: rest) = .ok (mods, head :: tail))
    (kind : head.kind = .keyword .module) (pass : setting'.declaring = false)
    (child : ∀ name, Titled tail name →
      (env'.modules.child? env'.currentModule name.lexeme).isSome = true) :
    env'.Deepens setting' first rest := by
  have opened := statement_read read modifiers (.inl (by rw [kind]; nofun))
  simp only [Environment.read, kind] at opened
  have titled : ∃ name, declaredName tail.head? head "module" = .ok name ∧
      requireBrace name tail.tail "after module name" = .ok () ∧ mods.requireNone = .ok () ∧
      env.frame.isModule = true := by
    simp only [openModule, Checked.bind_eq_ok] at opened
    obtain ⟨_, plain, opened⟩ := opened
    cases frame : env.frame with
    | parent | module =>
        simp only [frame, Checked.bind_eq_ok] at opened
        obtain ⟨name, named, _, brace, _⟩ := opened
        exact ⟨name, named, brace, plain, rfl⟩
    | _ => simp [frame] at opened
  obtain ⟨name, named, brace, plain, isModule⟩ := titled
  have same := level.frame outside
  have isModule' : env'.frame.isModule = true := by
    apply isModule_of_title
    rw [same]
    exact isModule_title isModule
  obtain ⟨id, found⟩ := Option.isSome_iff_exists.mp (child name (titled_of_named named brace))
  have opens : env'.openModule setting' mods head tail = .ok
      ⟨env'.push (.module id) (.new .createModule head.streamLine [.leaf .identifier name]), none⟩ := by
    unfold openModule
    cases frame : env'.frame with
    | parent | module => simp [plain, named, brace, pass, found]
    | _ => rw [frame] at isModule'; cases isModule'
  have dispatched : env'.read setting' mods head tail = env'.openModule setting' mods head tail := by
    simp only [Environment.read, kind]
  exact deepens_of_read modifiers (by rw [kind]; nofun) (dispatched.trans opens) rfl

theorem class_again (level : env.Level env') (outside : Title.Outside env.titles)
    (read : env.statement setting first rest = ⟨accepted.environment, .ok accepted.node⟩)
    (modifiers : LeadingModifiers.read (first :: rest) = .ok (mods, head :: tail))
    (kind : head.kind = .keyword .«class») (pass : setting'.declaring = false)
    (found : ∀ name, Titled tail name →
      (env'.modules.class? env'.currentModule name.lexeme).isSome = true) :
    env'.Deepens setting' first rest := by
  have opened := statement_read read modifiers (.inl (by rw [kind]; nofun))
  simp only [Environment.read, kind, openClass, Checked.bind_eq_ok] at opened
  obtain ⟨_, visible, _, place, name, named, _, brace, _⟩ := opened
  obtain ⟨c, there⟩ := Option.isSome_iff_exists.mp (found name (titled_of_named named brace))
  have there : (env'.modules.get env'.currentModule).members.classes.find? name.lexeme = some c := there
  have opens : env'.openClass setting' mods head tail = .ok
      ⟨env'.push (.class env'.currentModule c) (.new .createClass head.streamLine
        [.leaf .identifier name, mods.node head.streamLine]), none⟩ := by
    simp [openClass, visible, level.typePlace outside place, named, brace, pass, there]
  have dispatched : env'.read setting' mods head tail = env'.openClass setting' mods head tail := by
    simp only [Environment.read, kind]
  exact deepens_of_read modifiers (by rw [kind]; nofun) (dispatched.trans opens) rfl

theorem enum_again (level : env.Level env') (outside : Title.Outside env.titles)
    (read : env.statement setting first rest = ⟨accepted.environment, .ok accepted.node⟩)
    (modifiers : LeadingModifiers.read (first :: rest) = .ok (mods, head :: tail))
    (kind : head.kind = .keyword .enum) (pass : setting'.declaring = false)
    (found : ∀ name, Titled tail name →
      (env'.modules.enum? env'.currentModule name.lexeme).isSome = true) :
    env'.Deepens setting' first rest := by
  have opened := statement_read read modifiers (.inl (by rw [kind]; nofun))
  simp only [Environment.read, kind, openEnum, Checked.bind_eq_ok] at opened
  obtain ⟨_, visible, _, place, name, named, _, brace, _⟩ := opened
  obtain ⟨e, there⟩ := Option.isSome_iff_exists.mp (found name (titled_of_named named brace))
  have there : (env'.modules.get env'.currentModule).members.enums.find? name.lexeme = some e := there
  have opens : env'.openEnum setting' mods head tail = .ok
      ⟨env'.push (.enum env'.currentModule e) (.new .createEnum head.streamLine
        [.leaf .identifier name, mods.node head.streamLine]), none⟩ := by
    simp [openEnum, visible, level.typePlace outside place, named, brace, pass, there]
  have dispatched : env'.read setting' mods head tail = env'.openEnum setting' mods head tail := by
    simp only [Environment.read, kind]
  exact deepens_of_read modifiers (by rw [kind]; nofun) (dispatched.trans opens) rfl

theorem libraryEnd_again (setting' : Setting) (level : env.Level env')
    (read : env.statement setting first rest = ⟨accepted.environment, .ok accepted.node⟩)
    (modifiers : LeadingModifiers.read (first :: rest) = .ok (mods, head :: tail))
    (kind : head.kind = .keyword .libraryEnd) :
    ∃ accepted' : Accepted, env'.statement setting' first rest =
      ⟨accepted'.environment, .ok accepted'.node⟩ := by
  have ended := statement_read read modifiers (.inl (by rw [kind]; nofun))
  simp only [Environment.read, kind, endLibrary, Checked.bind_eq_ok] at ended
  obtain ⟨_, plain, _, last, _, place, _⟩ := ended
  rw [← level.inLibrary, ← level.depth] at place
  have ends : env'.endLibrary mods head tail = .ok
      ⟨{ env' with inLibrary := false }, some (.leaf .stdlibFinish head)⟩ := by
    simp only [endLibrary]
    rw [plain, last, place]
    rfl
  have dispatched : env'.read setting' mods head tail = env'.endLibrary mods head tail := by
    simp only [Environment.read, kind]
  exact ⟨_, statement_of_read modifiers (by rw [kind]; nofun) (dispatched.trans ends)⟩

end Environment

end MiLanguage
