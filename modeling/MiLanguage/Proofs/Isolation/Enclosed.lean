import MiLanguage.Proofs.Analysis.Clean
import MiLanguage.Proofs.Isolation.Confined

set_option autoImplicit false

namespace MiLanguage

/-- The scopes in the body of a function, where `depth` braces inside of the body's own are open.
`home` is the function's scope as its header has left it, and `outer` are the scopes around it. The
body may be full of errors: a header that was rejected has left a scope that is discarded. -/
inductive Enclosed (home : Scope) (outer : List Scope) : Nat → List Scope → Prop
  | body {scope : Scope} {around : List Scope} :
      home.Continued scope → FieldsMarked outer around → Enclosed home outer 0 (scope :: around)
  | block {kind : BlockKind} {b : Block} {scope : Scope} {scopes : List Scope} {depth : Nat} :
      scope.frame = .block kind b → kind ≠ .loopHead →
      (scope.discard = false → kind ≠ .forLoop ∧ kind ≠ .function) →
      Enclosed home outer depth scopes → Enclosed home outer (depth + 1) (scope :: scopes)
  | loop {b c : Block} {scope head : Scope} {scopes : List Scope} {depth : Nat} :
      scope.frame = .block .forLoop b → scope.discard = false → head.frame = .block .loopHead c →
      Enclosed home outer depth scopes →
      Enclosed home outer (depth + 1) (scope :: head :: scopes)

theorem FieldsMarked.under_block {scope : Scope} {kind : BlockKind} {b : Block}
    {scopes new : List Scope} (frame : scope.frame = .block kind b)
    (marked : FieldsMarked (scope :: scopes) new) :
    ∃ rest, new = scope :: rest ∧ FieldsMarked scopes rest :=
  marked.beneath (by rw [frame]; rfl)

namespace Enclosed

variable {home : Scope} {outer : List Scope} {depth : Nat} {scopes new : List Scope}

theorem two_le_length (enclosed : Enclosed home outer depth scopes) (nonempty : outer ≠ []) :
    2 ≤ scopes.length := by
  induction enclosed with
  | @body scope around _ marked =>
      have length := congrArg List.length marked.nodes
      rw [List.length_map, List.length_map] at length
      have := List.length_pos_iff.mpr nonempty
      rw [List.length_cons]
      omega
  | block _ _ _ _ ih => rw [List.length_cons]; omega
  | loop _ _ _ _ ih => rw [List.length_cons, List.length_cons]; omega

theorem marked (enclosed : Enclosed home outer depth scopes) (marked : FieldsMarked scopes new) :
    Enclosed home outer depth new := by
  induction enclosed generalizing new with
  | body kept around =>
      obtain ⟨kind, b, c, -, frame, -, -⟩ := kept.frame
      obtain ⟨rest, rfl, later⟩ := marked.under_block frame
      exact .body kept (around.trans later)
  | block frame head discard _ ih =>
      obtain ⟨rest, rfl, later⟩ := marked.under_block frame
      exact .block frame head discard (ih later)
  | loop frame kept headFrame _ ih =>
      obtain ⟨rest, rfl, later⟩ := marked.under_block frame
      obtain ⟨below, rfl, inner⟩ := later.under_block headFrame
      exact .loop frame kept headFrame (ih inner)

variable (function : home.frame.isFunction = true)

include function

theorem confined (enclosed : Enclosed home outer depth scopes) (changed : Confined scopes new) :
    Enclosed home outer depth new := by
  induction enclosed generalizing new with
  | body kept around =>
      cases changed with
      | function _ kept' marked => exact .body (kept.trans kept') (around.trans marked)
      | block other => rw [kept.isFunction, function] at other; cases other
  | block frame head discard inside ih =>
      cases changed with
      | function _ kept marked =>
          obtain ⟨c, frame', -⟩ := kept.block frame
          exact .block frame' head (fun same => discard (kept.discard.symm.trans same))
            (inside.marked marked)
      | block _ kept changed =>
          obtain ⟨c, frame', -⟩ := kept.block frame
          exact .block frame' head (fun same => discard (kept.discard.symm.trans same)) (ih changed)
  | loop frame kept headFrame inside ih =>
      cases changed with
      | function function => simp [Frame.isFunction, Frame.blockKind?, frame] at function
      | block _ first changed =>
          obtain ⟨c, frame', -⟩ := first.block frame
          cases changed with
          | function function => simp [Frame.isFunction, Frame.blockKind?, headFrame] at function
          | block _ second changed =>
              obtain ⟨d, headFrame', -⟩ := second.block headFrame
              exact .loop frame' (first.discard.trans kept) headFrame' (ih changed)

-- A function is around all of them.
theorem within (enclosed : Enclosed home outer depth scopes) : Confined scopes scopes := by
  have kept {scope : Scope} {kind : BlockKind} {b : Block} (frame : scope.frame = .block kind b) :
      scope.Continued scope := Scope.continued_of_frame rfl rfl frame frame rfl rfl
  induction enclosed with
  | body kept _ => exact .function (kept.isFunction.trans function) kept.again (.refl _)
  | @block _ _ scope _ _ frame _ _ _ ih =>
      cases innermost : scope.frame.isFunction with
      | true => exact .function innermost (kept frame) (.refl _)
      | false => exact .block innermost (kept frame) ih
  | loop frame _ headFrame _ ih =>
      refine .block ?_ (kept frame) (.block ?_ (kept headFrame) ih)
      · simp [Frame.isFunction, Frame.blockKind?, frame]
      · simp [Frame.isFunction, Frame.blockKind?, headFrame]

end Enclosed

namespace Environment

variable {env after : Environment} {home : Scope} {outer : List Scope} {depth : Nat}

def Enclosed (env : Environment) (home : Scope) (outer : List Scope) (depth : Nat) : Prop :=
  MiLanguage.Enclosed home outer depth env.scopes.all

theorem isBlock_of_confined (within : Confined env.scopes.all env.scopes.all) :
    env.frame.isBlock = true := by
  obtain ⟨below, all, -⟩ := env.scopes.all_eq_current
  rw [all] at within
  cases within with
  | function _ kept => exact kept.isBlock
  | block _ kept => exact kept.isBlock

section Function

variable (function : home.frame.isFunction = true) (enclosed : env.Enclosed home outer depth)

include function enclosed

theorem Enclosed.within : Confined env.scopes.all env.scopes.all :=
  MiLanguage.Enclosed.within function enclosed

theorem Enclosed.isBlock : env.frame.isBlock = true :=
  isBlock_of_confined (Enclosed.within function enclosed)

theorem Enclosed.confined (changed : Confined env.scopes.all after.scopes.all) :
    after.Enclosed home outer depth :=
  MiLanguage.Enclosed.confined function enclosed changed

theorem Enclosed.append (setting : Setting) (node : Node) :
    (env.append setting node).Enclosed home outer depth :=
  enclosed.confined function (confined_append (enclosed.within function) setting node)

theorem Enclosed.modifyBlock {f : Block → Block} (type : ∀ b, (f b).returnType = b.returnType)
    (owner : ∀ b, (f b).bodyOf = b.bodyOf) : (env.modifyBlock f).Enclosed home outer depth :=
  enclosed.confined function (confined_modifyBlock (enclosed.within function) type owner)

end Function

theorem Enclosed.push (enclosed : env.Enclosed home outer depth) {kind : BlockKind} (node : Node)
    (plain : kind = .branch ∨ kind = .whileLoop ∨ kind = .doLoop) :
    (env.push (.block kind {}) node).Enclosed home outer (depth + 1) := by
  refine .block (rfl : _ = Frame.block kind {}) ?_ (fun _ => ⟨?_, ?_⟩) enclosed
  all_goals rcases plain with rfl | rfl | rfl <;> simp

end Environment

/-- What an accepted statement leaves of the body that it stands in: it ends in a semicolon, or in
a brace and opens a block. -/
structure KeepsEnclosed (env : Environment) (head : Token) (tail : List Token) (home : Scope)
    (outer : List Scope) (depth : Nat) (after : Environment) : Prop where
  modules : env.modules.Updated after.modules
  inLibrary : after.inLibrary = env.inLibrary
  enclosed :
    (Ends head tail .semicolon ∧ after.Enclosed home outer depth) ∨
      (Ends head tail .leftBrace ∧ env.scopes.depth < after.scopes.depth ∧
        after.Enclosed home outer (depth + 1))

section Accepted

variable {env : Environment} {setting : Setting} {mods : LeadingModifiers} {head : Token}
  {tail : List Token} {accepted : Accepted} {home : Scope} {outer : List Scope} {depth : Nat}

-- The head of a loop opens a scope for its variable, and the loop's own block on top of it.
theorem KeepsEnclosed.forLoop {defined stepped : Environment} {start condition step : Node}
    {implied : Bool} (function : home.frame.isFunction = true)
    (enclosed : env.Enclosed home outer depth) (ends : Ends head tail .leftBrace)
    (defines : (env.push (.block .loopHead {}) (.new .forFakeScope head.streamLine)).Defines .inBlock
      defined start) (advances : defined.Advances implied stepped step) :
    KeepsEnclosed env head tail home outer depth
      (([start, condition, .new .forInstruct head.streamLine [step]].foldl
          (fun env node => env.append setting node) stepped).push
        (.block .forLoop {}) (.new .forStatement head.streamLine)) := by
  have opened : Confined (env.push (.block .loopHead {}) (.new .forFakeScope head.streamLine)).scopes.all
      (env.push (.block .loopHead {}) (.new .forFakeScope head.streamLine)).scopes.all :=
    .block rfl (Scope.continued_refl rfl) (enclosed.within function)
  have defined' := defines.confined opened
  have stepped' := defined'.trans (advances.confined defined'.again)
  have updated := defines.updated.trans advances.updated
  have appended (before : Environment) (nodes : List Node)
      (changed : Confined (env.push (.block .loopHead {}) (.new .forFakeScope head.streamLine)).scopes.all
        before.scopes.all) :
      Confined (env.push (.block .loopHead {}) (.new .forFakeScope head.streamLine)).scopes.all
        (nodes.foldl (fun env node => env.append setting node) before).scopes.all ∧
      (nodes.foldl (fun env node => env.append setting node) before).modules = before.modules ∧
      (nodes.foldl (fun env node => env.append setting node) before).inLibrary = before.inLibrary ∧
      (nodes.foldl (fun env node => env.append setting node) before).scopes.depth =
        before.scopes.depth := by
    induction nodes generalizing before with
    | nil => exact ⟨changed, rfl, rfl, rfl⟩
    | cons node nodes ih =>
        obtain ⟨scopes, modules, library, level⟩ := ih (before.append setting node)
          (changed.trans (Environment.confined_append changed.again setting node))
        refine ⟨scopes, modules.trans ?_, library.trans ?_,
          level.trans (Environment.depth_append before setting node)⟩
        all_goals
          unfold Environment.append
          split <;> rfl
  obtain ⟨scopes, modules, library, level⟩ :=
    appended stepped [start, condition, .new .forInstruct head.streamLine [step]] stepped'
  generalize [start, condition, .new .forInstruct head.streamLine [step]].foldl
    (fun env node => env.append setting node) stepped = filled at scopes modules library level ⊢
  refine ⟨?_, ?_, .inr ⟨ends, ?_, ?_⟩⟩
  · show env.modules.Updated filled.modules
    rw [modules]
    exact updated.modules
  · exact library.trans updated.inLibrary
  · have loop := updated.scopes.depth
    rw [Environment.depth_push] at loop ⊢
    omega
  · show MiLanguage.Enclosed home outer (depth + 1) (_ :: filled.scopes.all)
    have all : (env.push (.block .loopHead {}) (.new .forFakeScope head.streamLine)).scopes.all =
        ⟨.block .loopHead {}, .new .forFakeScope head.streamLine, false⟩ :: env.scopes.all := rfl
    rw [all] at scopes
    generalize filled.scopes.all = new at scopes
    cases scopes with
    | function loop => simp [Frame.isFunction, Frame.blockKind?] at loop
    | @block _ b _ bs _ kept scopes =>
        obtain ⟨c, frame, -⟩ := kept.block rfl
        exact .loop rfl rfl frame (MiLanguage.Enclosed.confined function enclosed scopes)

theorem Accepts.enclosed (accepts : Accepts env setting mods head tail accepted)
    (pass : setting.declaring = false) (function : home.frame.isFunction = true) (nonempty : outer ≠ [])
    (enclosed : env.Enclosed home outer depth) :
    KeepsEnclosed env head tail home outer depth accepted.environment := by
  have block := enclosed.isBlock function
  have within := enclosed.within function
  have declaring : ¬setting.declaring = true := by simp [pass]
  have isModule : ¬env.frame.isModule = true := by
    intro isModule
    cases frame : env.frame with
    | block => rw [frame] at isModule; cases isModule
    | _ => rw [frame] at block; cases block
  have host : ¬(env.frame.isModule || env.frame.isClass) = true := by
    intro host
    cases frame : env.frame with
    | block => rw [frame] at host; cases host
    | _ => rw [frame] at block; cases block
  have stays {after : Environment} (updated : env.Updated after)
      (changed : Confined env.scopes.all after.scopes.all) (ends : Ends head tail .semicolon) :
      KeepsEnclosed env head tail home outer depth after :=
    ⟨updated.modules, updated.inLibrary, .inl ⟨ends, enclosed.confined function changed⟩⟩
  cases accepts with
  | conditional starts ends =>
      refine ⟨.refl, rfl, .inr ⟨ends, Nat.lt_succ_self _, enclosed.push _ ?_⟩⟩
      rcases conditional_eq_some starts with ⟨_, same, _⟩ | ⟨_, same, _⟩ <;> simp [same]
  | doLoop kind ends => exact ⟨.refl, rfl, .inr ⟨ends, Nat.lt_succ_self _, enclosed.push _ (.inr (.inr rfl))⟩⟩
  | forLoop kind ends _ defines _ advances =>
      exact .forLoop function enclosed ends defines advances
  | returned kind ends =>
      exact ⟨.refl, rfl, .inl ⟨ends, enclosed.modifyBlock function (fun _ => rfl) fun _ => rfl⟩⟩
  | exited starts ends =>
      exact ⟨.refl, rfl, .inl ⟨ends, enclosed.modifyBlock function (fun _ => rfl) fun _ => rfl⟩⟩
  | used kind ends => exact stays (env.updated_use _) (Environment.confined_use within _) ends
  | libraryEnded _ _ level =>
      have deep := MiLanguage.Enclosed.two_le_length enclosed nonempty
      unfold ScopeStack.all at deep
      unfold ScopeStack.depth at level
      rw [List.length_append, List.length_singleton] at deep
      omega
  | @variableDefined placement place _ _ starts ends placed inBlock defines =>
      rcases inBlock with pass | rfl
      · exact absurd pass declaring
      · exact stays defines.updated (defines.confined within) ends
  | variableKept starts ends placed _ outside =>
      unfold Environment.placement at placed
      cases frame : env.frame with
      | block =>
          simp only [frame] at placed
          cases placed
          exact absurd rfl outside
      | _ => rw [frame] at block; cases block
  | called kind ends => exact stays env.updated_refl within ends
  | assigned kind ends _ assigns => exact stays assigns.updated (assigns.confined within) ends
  | moduleDeclared _ _ _ pass => exact absurd pass declaring
  | classDeclared _ _ _ pass => exact absurd pass declaring
  | enumDeclared _ _ _ pass => exact absurd pass declaring
  | membersDeclared _ _ _ pass => exact absurd pass declaring
  | functionDeclared _ _ _ pass => exact absurd pass declaring
  | nativeDeclared _ _ _ pass => exact absurd pass declaring
  | constructorDeclared _ _ _ pass => exact absurd pass declaring
  | moduleEntered _ _ module => exact absurd module isModule
  | classEntered _ _ module => exact absurd module isModule
  | classMissing _ _ module => exact absurd module isModule
  | enumEntered _ _ module => exact absurd module isModule
  | enumMissing _ _ module => exact absurd module isModule
  | membersKept _ _ frame => rw [frame] at block; cases block
  | functionOpened _ _ place => exact absurd place host
  | nativeKept _ _ place => exact absurd place host
  | constructorOpened _ _ frame => rw [frame] at block; cases block

end Accepted

end MiLanguage
