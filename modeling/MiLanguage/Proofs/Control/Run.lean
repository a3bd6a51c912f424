import MiLanguage.Proofs.Analysis.Pass
import MiLanguage.Proofs.Control.Invariant
import MiLanguage.Proofs.Typing.Run

set_option autoImplicit false

namespace MiLanguage

theorem loopsAround_of_upTo {scopes : List Scope}
    (inside : (ScopeStack.upTo (·.frame.isFunction) scopes).any (·.frame.isLoop) = true) :
    loopsAround scopes = true := by
  induction scopes with
  | nil => simp [ScopeStack.upTo] at inside
  | cons scope outer ih =>
      unfold ScopeStack.upTo at inside
      split at inside
      next function =>
        simp only [Frame.isFunction, decide_eq_true_eq] at function
        simp [Frame.isLoop, function, BlockKind.isLoop] at inside
      next nonFunction =>
        simp only [loopsAround, nonFunction, Bool.not_false, Bool.true_and, Bool.or_eq_true]
        split at inside
        next => simp at inside
        next =>
          simp only [List.any_cons, Bool.or_eq_true] at inside
          rcases inside with loop | inside
          · exact .inl loop
          · exact .inr (ih inside)

theorem wantedIn_eq_find (scopes : List Scope) :
    wantedIn scopes = (scopes.find? (·.frame.isFunction)).bind fun scope =>
      scope.frame.block?.bind Block.returnType := by
  induction scopes with
  | nil => rfl
  | cons scope outer ih =>
      unfold wantedIn
      rw [List.find?_cons]
      cases function : scope.frame.isFunction with
      | true => rfl
      | false => exact ih

namespace Environment

variable {env : Environment} {setting : Setting}

def Tracked (env : Environment) : Prop := StackSound env.scopes.all

theorem Tracked.updated {new : Environment} (tracked : env.Tracked) (updated : env.Updated new) :
    new.Tracked :=
  StackSound.updated tracked updated.scopes.all

theorem headKind?_all (env : Environment) : headKind? env.scopes.all = env.frame.blockKind? := by
  obtain ⟨outer, all, _⟩ := env.scopes.all_eq_current
  rw [all]
  rfl

theorem bare_of_nonBlock (nonBlock : env.frame.isBlock = false) :
    headKind? env.scopes.all = none := by
  rw [headKind?_all]
  cases frame : env.frame with
  | block => rw [frame] at nonBlock; cases nonBlock
  | _ => rfl

theorem inside_of_block (block : env.frame.isBlock = true) :
    ∃ around, headKind? env.scopes.all = some around := by
  rw [headKind?_all]
  exact Option.isSome_iff_exists.mp (by rw [← isBlock_iff, block])

theorem isBlock_of_bare (bare : headKind? env.scopes.all = none) : env.frame.isBlock = false := by
  rw [isBlock_iff, ← headKind?_all, bare]
  rfl

theorem Tracked.append (tracked : env.Tracked) (setting : Setting) {c : Node} (sound : c.Sound)
    (fitting : env.frame.isBlock = true → c.Fitting env.scopes.all) :
    (env.append setting c).Tracked := by
  unfold Environment.append
  split
  next => exact tracked
  next =>
    obtain ⟨outer, all, changed⟩ := env.scopes.all_eq_current
    unfold Tracked at tracked ⊢
    rw [all] at tracked fitting
    rw [ScopeStack.append, changed]
    exact tracked.append sound fitting

theorem Tracked.append_inert (tracked : env.Tracked) (setting : Setting) {c : Node}
    (inert : c.Inert) : (env.append setting c).Tracked :=
  tracked.append setting inert.sound fun _ => inert.fitting _

theorem frame_append (env : Environment) (setting : Setting) (c : Node) :
    (env.append setting c).frame = env.frame := by
  unfold Environment.append
  split
  next => rfl
  next =>
    unfold Environment.frame ScopeStack.append ScopeStack.modifyCurrent ScopeStack.current
    cases opened : env.scopes.opened <;> simp

-- A `return` notes that the block has one.
theorem Tracked.return (tracked : env.Tracked) (bodies : setting.declaring = false) {c : Node}
    (sound : c.Sound) (fitting : c.Fitting env.scopes.all) (kind : c.kind = .returnValue)
    {f : Block → Block} (type : ∀ b, (f b).returnType = b.returnType) :
    ((env.modifyBlock f).append setting c).Tracked := by
  obtain ⟨outer, all, changed⟩ := env.scopes.all_eq_current
  have nonDeclaring : ¬setting.declaring = true := by simp [bodies]
  unfold Tracked at tracked ⊢
  rw [all] at tracked fitting
  unfold Environment.append
  rw [if_neg nonDeclaring]
  unfold modifyBlock ScopeStack.modifyCurrentBlock ScopeStack.append
  rw [ScopeStack.modifyCurrent_modifyCurrent, changed]
  exact (tracked.append sound fun _ => fitting).flag (List.mem_append_right _ (by simp)) kind f type

theorem Tracked.openBody (tracked : env.Tracked) {type : Datatype} {owner : BodyOwner}
    {parameters : List FunctionParameter} {place : Token} {n : Node}
    (builds : (n.kind = .functionDefinition ∧ n.declaredType? = some type) ∨
      (n.kind = .createConstructor ∧ type = .void))
    (nonBlock : env.frame.isBlock = false) (inert : ∀ c ∈ n.children, c.Inert) :
    (env.openBody type owner parameters place n).Tracked := by
  have opened : (env.push (.block .function
      { Block.function type with bodyOf := some owner }) n).Tracked :=
    StackSound.push_function tracked rfl rfl builds env.scopes.all_ne_nil
      (bare_of_nonBlock nonBlock) inert
  exact opened.updated (env.updated_openBody type owner parameters place n)

theorem Tracked.push_declaration (tracked : env.Tracked) {frame : Frame} {n : Node}
    (nonBlock : frame.isBlock = false) (nonFunction : n.kind.isFunction = false)
    (outside : env.frame.isBlock = false) (inert : ∀ c ∈ n.children, c.Inert) :
    (env.push frame n).Tracked :=
  StackSound.push_declaration tracked nonBlock nonFunction (bare_of_nonBlock outside) inert

theorem Tracked.push_block (tracked : env.Tracked) {kind : BlockKind} {n : Node}
    (builds : kind.statement? = some n.kind) (inside : env.frame.isBlock = true)
    (head : kind = .forLoop → env.frame.blockKind? = some .loopHead)
    (inert : ∀ c ∈ n.children, c.Inert) : (env.push (.block kind {}) n).Tracked := by
  obtain ⟨around, found⟩ := inside_of_block inside
  refine StackSound.push_block tracked builds found ?_ inert
  intro same
  rw [headKind?_all, head same] at found
  exact (Option.some.inj found).symm

end Environment

theorem gives_of_returnFits {wanted : Datatype} {value : Option Typed} {line : Nat}
    (fits : Environment.returnFits wanted ((value.map Typed.type).getD .void) = true)
    (correct : ∀ e, value = some e → e.Correct) :
    (Node.new .returnValue line (value.map Typed.node).toList).Gives wanted := by
  unfold Environment.returnFits at fits
  unfold Node.Gives
  by_cases void : wanted.isVoid = true
  · rw [if_pos void]
    cases value with
    | none => exact .inl rfl
    | some e =>
        have found : e.type.isVoid = true := by simpa [void] using fits
        exact .inr ⟨e.node, e.type, rfl, (correct e rfl).type, found⟩
  · rw [if_neg void]
    cases value with
    | none =>
        have nothing : Datatype.void.isVoid = true := rfl
        simp [void, nothing] at fits
    | some e =>
        by_cases found : e.type.isVoid = true
        · simp [void, found] at fits
        · refine ⟨e.node, e.type, rfl, (correct e rfl).type, by simpa using found, ?_⟩
          exact Datatype.widens_of_fits (by simpa [void, found] using fits)

section Accepted

variable {env : Environment} {setting : Setting} {mods : LeadingModifiers} {first : Token}
  {rest : List Token} {accepted : Accepted}

theorem nativeNode_inert {h : Header} {host : Token} {line : Nat}
    (read : Header.read env mods first rest = .ok h) :
    (Node.new .nativeFunctionDefinition line
      (h.parts mods line ++ [.leaf .nativeHostClass host])).Inert := by
  refine Node.inert_new rfl ?_
  intro c member
  rcases List.mem_append.mp member with member | member
  · exact h.parts_inert (Header.read_eq_ok read).2.1 c member
  · rw [List.mem_singleton.mp member]
    exact Node.inert_leaf rfl

theorem Environment.Tracked.loop (tracked : env.Tracked) (setting : Setting) {line : Nat}
    {defined stepped : Environment} {start condition step : Node} {implied : Bool}
    (block : env.frame.isBlock = true)
    (defines : (env.push (.block .loopHead {}) (.new .forFakeScope line)).Defines .inBlock defined
      start)
    (decides : defined.Decides condition) (advances : defined.Advances implied stepped step) :
    (([start, condition, .new .forInstruct line [step]].foldl
        (fun env node => env.append setting node) stepped).push
      (.block .forLoop {}) (.new .forStatement line)).Tracked := by
  have head : (env.push (.block .loopHead {}) (.new .forFakeScope line)).Tracked :=
    tracked.push_block rfl block (by simp) (by simp [Node.new])
  have updated := defines.updated.trans advances.updated
  have instruct : (Node.new .forInstruct line [step]).Inert :=
    Node.inert_new rfl (by simpa using advances.inert)
  have filled := (((head.updated updated).append_inert setting defines.inert).append_inert
    setting decides.inert).append_inert setting instruct
  have kind : stepped.frame.blockKind? = some .loopHead := by
    rw [← Environment.headKind?_all, headKind?_updated updated.scopes.all]
    rfl
  refine filled.push_block rfl ?_ ?_ (by simp [Node.new])
  · rw [isBlock_iff, Environment.frame_append, Environment.frame_append,
      Environment.frame_append, kind]
    rfl
  · intro _
    rw [Environment.frame_append, Environment.frame_append, Environment.frame_append, kind]

-- A `ret` leaves no loop, and gives what the function around it wants.
theorem returnNode_fitting {value : Option Typed} {line : Nat}
    (correct : ∀ e, value = some e → e.Correct)
    (fits : ∀ wanted, env.scopes.returnType? = some wanted →
      Environment.returnFits wanted ((value.map Typed.type).getD .void) = true) :
    (Node.new .returnValue line (value.map Typed.node).toList).Sound ∧
      (Node.new .returnValue line (value.map Typed.node).toList).Fitting env.scopes.all := by
  have inert : ∀ c ∈ (value.map Typed.node).toList, c.Inert := by
    cases value with
    | none => simp
    | some e => simpa using (correct e rfl).inert
  refine ⟨Node.every_new.mpr
    ⟨Node.functionSound_of_not rfl, fun c member => (inert c member).sound⟩, ?_, ?_⟩
  · intro jump escapes
    cases escapes with
    | here jumps => cases jumps
    | inside _ member escapes => exact absurd escapes ((inert _ member).not_escapes jump)
  · intro m member kind wanted found
    rcases Node.mem_preorder_iff.mp member with rfl | ⟨c, below, member⟩
    · refine gives_of_returnFits (fits wanted ?_) correct
      rw [wantedIn_eq_find] at found
      exact found
    · exact absurd kind ((inert c below).not_returns member)

theorem Environment.Tracked.exit (tracked : env.Tracked) (setting : Setting) {place : Token}
    {nodeKind : NodeKind} (starts : exitKind place = some nodeKind)
    (inLoop : env.scopes.inLoop = true) :
    ((env.modifyBlock ({ · with terminated := true })).append setting
      (.leaf nodeKind place)).Tracked := by
  have shape : nodeKind.isFunction = false ∧ nodeKind ≠ .returnValue := by
    rcases exitKind_eq_some starts with ⟨_, rfl⟩ | ⟨_, rfl⟩ <;> exact ⟨rfl, by decide⟩
  have updated : env.Updated (env.modifyBlock ({ · with terminated := true })) :=
    Environment.updated_modifyBlock (fun _ => rfl) (fun _ => rfl) (fun _ => rfl)
  refine (tracked.updated updated).append setting
    (Node.every_leaf.mpr (Node.functionSound_of_not shape.1)) ?_
  intro _
  have fitting : (Node.leaf nodeKind place).Fitting env.scopes.all := by
    refine ⟨fun _ _ => loopsAround_of_upTo inLoop, ?_⟩
    intro m member kind
    rcases Node.mem_preorder_iff.mp member with rfl | ⟨_, below, _⟩
    · exact absurd kind shape.2
    · simp [Node.leaf] at below
  exact fitting.congr (loopsAround_updated updated.scopes.all)
    (wantedIn_updated updated.scopes.all)

-- The second pass keeps the invariant with each statement.
theorem Accepts.tracked (accepts : Accepts env setting mods first rest accepted)
    (bodies : setting.declaring = false) (wellTyped : env.WellTyped) (tracked : env.Tracked) :
    (accepted.settled setting).Tracked := by
  have nonDeclaring : ¬setting.declaring = true := by simp [bodies]
  cases accepts with
  | moduleDeclared _ _ _ declaring | classDeclared _ _ _ declaring | enumDeclared _ _ _ declaring
  | membersDeclared _ _ _ declaring | functionDeclared _ _ _ declaring | nativeDeclared _ _ _ declaring
  | constructorDeclared _ _ _ declaring => exact absurd declaring nonDeclaring
  | moduleEntered _ _ isModule =>
      exact tracked.push_declaration rfl rfl (isBlock_of_isModule isModule)
        (by simpa [Node.new] using name_inert)
  | classEntered _ _ isModule =>
      exact tracked.push_declaration rfl rfl (isBlock_of_isModule isModule)
        (by simpa [Node.new] using ⟨name_inert, mods.node_inert⟩)
  | classMissing => exact tracked
  | enumEntered _ _ isModule =>
      exact tracked.push_declaration rfl rfl (isBlock_of_isModule isModule)
        (by simpa [Node.new] using ⟨name_inert, mods.node_inert⟩)
  | enumMissing => exact tracked
  | membersKept => exact tracked.append_inert setting (membersNode_inert _)
  | @functionOpened h _ _ host _ read =>
      exact tracked.openBody (.inl ⟨rfl, h.declaredType?_parts mods _⟩) (isBlock_of_host host)
        (h.parts_inert (Header.read_eq_ok read).2.1)
  | nativeKept _ _ _ _ read => exact tracked.append_inert setting (nativeNode_inert read)
  | constructorOpened _ _ frame _ _ _ list =>
      exact tracked.openBody (.inr ⟨rfl, rfl⟩) (by rw [frame]; rfl)
        (constructorParts_inert (Parameter.readList_shown list).1)
  | conditional starts _ block decides =>
      refine tracked.push_block ?_ block ?_ (by simpa [Node.new] using decides.inert)
      · rcases conditional_eq_some starts with ⟨_, rfl, rfl⟩ | ⟨_, rfl, rfl⟩ <;> rfl
      · rintro rfl
        rcases conditional_eq_some starts with ⟨_, other, _⟩ | ⟨_, other, _⟩ <;> cases other
  | doLoop _ _ block =>
      exact tracked.push_block rfl block (by simp) (by simp [Node.new])
  | forLoop _ _ block defines decides advances =>
      exact tracked.loop setting block defines decides advances
  | returned _ _ _ means fits =>
      obtain ⟨sound, fitting⟩ := returnNode_fitting (fun e same => (means e same).correct) fits
      exact tracked.return bodies sound fitting rfl fun _ => rfl
  | exited starts _ _ inLoop => exact tracked.exit setting starts inLoop
  | used =>
      exact (tracked.updated (env.updated_use _)).append_inert setting (Node.inert_leaf rfl)
  | libraryEnded =>
      have ended : Environment.Tracked { env with inLibrary := false } := tracked
      exact ended.append_inert setting (Node.inert_leaf rfl)
  | @variableDefined placement place declared node _ _ _ isLocal defines =>
      rcases isLocal with declaring | rfl
      · exact absurd declaring nonDeclaring
      · exact (tracked.updated defines.updated).append_inert setting defines.inert
  | @variableKept placement place tokens _ _ _ _ _ =>
      unfold Accepted.settled
      dsimp only
      split
      next node known =>
        obtain ⟨name, v, rfl, typed⟩ := wellTyped.knownVariable known
        exact tracked.append_inert setting (variableNode_inert typed)
      next => exact tracked
  | called _ _ _ calls => exact tracked.append_inert setting calls.inert
  | assigned _ _ _ assigns =>
      exact (tracked.updated assigns.updated).append_inert setting assigns.inert

end Accepted

/-- A block that waits for its condition, in these scopes. -/
structure Node.Waiting (scopes : List Scope) (block : Node) : Prop where
  kind : block.kind = .doStatement
  sound : block.Sound
  fitting : block.Fitting scopes

theorem Environment.Closes.tracked {setting : Setting} {env after : Environment} {scope : Scope}
    {waiting : Option Node} (closes : Environment.Closes setting env scope after waiting)
    (stack : StackSound (scope :: env.scopes.all)) :
    after.Tracked ∧ ∀ block, waiting = some block → block.Waiting after.scopes.all := by
  obtain ⟨sound, tracked⟩ := stack
  have settles : ∀ {env : Environment}, env.Tracked →
      env.Tracked ∧ ∀ block, (none : Option Node) = some block → block.Waiting env.scopes.all :=
    fun tracked => ⟨tracked, by simp⟩
  -- What a declaration leaves behind goes to a scope that is no block.
  have declares : ∀ {env' : Environment}, env'.scopes = env.scopes → scope.node.Sound →
      headKind? env.scopes.all = none → (env'.append setting scope.node).Tracked := by
    intro env' same nodeSound bare
    have tracked' : env'.Tracked := by
      unfold Environment.Tracked
      rwa [same]
    refine tracked'.append setting nodeSound ?_
    intro block
    rw [← same] at bare
    rw [Environment.isBlock_of_bare bare] at block
    cases block
  cases closes with
  | discarded discard =>
      rw [sound.kept] at discard
      cases discard
  | «class» _ frame =>
      obtain ⟨nodeSound, bare⟩ := sound.declaration_closes (by rw [frame]; rfl)
      exact settles (declares rfl nodeSound bare)
  | enum _ frame =>
      obtain ⟨nodeSound, bare⟩ := sound.declaration_closes (by rw [frame]; rfl)
      exact settles (declares rfl nodeSound bare)
  | module _ isModule =>
      obtain ⟨nodeSound, bare⟩ := sound.declaration_closes (isBlock_of_isModule isModule)
      exact settles (declares rfl nodeSound bare)
  | function _ frame returns =>
      obtain ⟨nodeSound, bare⟩ := sound.function_closes frame returns
      exact settles (declares rfl nodeSound bare)
  | doLoop _ frame =>
      obtain ⟨nodeSound, fitting, builds, _⟩ := sound.block_closes frame (by simp)
      refine ⟨tracked, ?_⟩
      intro block same
      cases same
      exact ⟨(Option.some.inj builds).symm, nodeSound, fitting⟩
  | @forLoop b head scopes _ frame popped =>
      obtain ⟨nodeSound, fitting, _, inside⟩ := sound.block_closes frame (by simp)
      have appended : (env.append setting scope.node).Tracked :=
        Environment.Tracked.append tracked setting nodeSound fun _ => fitting
      have kind : headKind? (env.append setting scope.node).scopes.all = some .loopHead := by
        rw [Environment.headKind?_all, Environment.frame_append, ← Environment.headKind?_all,
          inside rfl]
      unfold Environment.Tracked at appended
      rw [ScopeStack.all_of_pop? popped] at appended kind
      obtain ⟨headSound, outerTracked⟩ := appended
      cases headFrame : head.frame with
      | block headBlock b =>
          have same : headBlock = .loopHead := by
            simpa [headKind?, headFrame, Frame.blockKind?] using kind
          rw [same] at headFrame
          obtain ⟨headNode, headFitting, _⟩ := headSound.block_closes headFrame (by simp)
          have left : Environment.Tracked { env.append setting scope.node with scopes } :=
            outerTracked
          exact settles (left.append setting headNode fun _ => headFitting)
      | _ => simp [headKind?, headFrame, Frame.blockKind?] at kind
  | bare _ frame =>
      obtain ⟨nodeSound, fitting, _⟩ := sound.block_closes frame (by simp)
      exact settles (Environment.Tracked.append tracked setting nodeSound fun _ => fitting)
  | block _ frame kind =>
      obtain ⟨nodeSound, fitting, _⟩ := sound.block_closes frame (by
        rcases kind with rfl | rfl | rfl <;> simp)
      exact settles (Environment.Tracked.append tracked setting nodeSound fun _ => fitting)

namespace AnalysisState

variable {s t : AnalysisState}

structure Tracked (s : AnalysisState) : Prop where
  scopes : s.environment.Tracked
  waiting : ∀ block, s.pendingDo = some block → block.Waiting s.environment.scopes.all

theorem Moves.tracked (moves : s.Moves t) (bodies : s.declaring = false) (wellTyped : s.WellTyped)
    (tracked : s.Tracked) : t.Tracked := by
  have idle : ∀ {environment : Environment} {pendingDo : Option Node}, pendingDo = none →
      ∀ block, pendingDo = some block → Node.Waiting environment.scopes.all block := by
    intro _ _ free block waiting
    rw [free] at waiting
    cases waiting
  cases moves with
  | completes _ waiting _ _ _ decides =>
      obtain ⟨kind, sound, fitting⟩ := tracked.waiting _ waiting
      obtain ⟨pushed, fits⟩ := Node.loop_push sound fitting kind decides.inert
      exact ⟨tracked.scopes.append s.setting pushed fun _ => fits, idle rfl⟩
  | closes _ _ _ _ popped closes =>
      have stack := tracked.scopes
      unfold Environment.Tracked at stack
      rw [ScopeStack.all_of_pop? popped] at stack
      obtain ⟨after, waiting⟩ := closes.tracked stack
      exact ⟨after, waiting⟩
  | accepts _ free _ _ warns _ accepts =>
      have updated := warns.updated
      exact ⟨accepts.tracked bodies (updated.wellTyped wellTyped.environment)
        (tracked.scopes.updated updated), idle free⟩
  | skips _ free _ _ warns _ accepts =>
      have updated := warns.updated
      exact ⟨accepts.tracked bodies (updated.wellTyped wellTyped.environment)
        (tracked.scopes.updated updated), idle free⟩

theorem Leads.wellTyped (leads : s.Leads t) (wellTyped : s.WellTyped) : t.WellTyped := by
  induction leads with
  | refl => exact wellTyped
  | tail _ step ih => exact ih.step step.1

theorem Leads.tracked (leads : s.Leads t) (bodies : s.declaring = false) (wellTyped : s.WellTyped)
    (tracked : s.Tracked) : t.Tracked := by
  induction leads with
  | refl => exact tracked
  | @tail middle last leads step ih =>
      have same : middle.declaring = false := (Leads.declaring leads).trans bodies
      exact step.moves.tracked same (Leads.wellTyped leads wellTyped) ih

end AnalysisState

namespace Analysis

theorem startPass_tracked (setting : Setting) (modules : ModuleTree) (log : DiagnosticLog)
    (tokens : List Token) : (startPass setting modules log tokens).Tracked := by
  have base : (startPass setting modules log tokens).environment.scopes.all =
      [{ frame := .parent ModuleTree.root, node := emptyRoot }] := rfl
  refine ⟨?_, by simp [startPass]⟩
  unfold Environment.Tracked
  rw [base]
  have below : StackSound [] := trivial
  exact below.push_declaration rfl rfl rfl (by simp [emptyRoot, Node.new])

theorem runPass_controlSound {host : Host} {modules : ModuleTree} {log : DiagnosticLog}
    {tokens : List Token} (typed : modules.WellTyped)
    (clean : (runPass ⟨.bodies, host⟩ modules log tokens).Clean) :
    (runPass ⟨.bodies, host⟩ modules log tokens).root.Sound := by
  obtain ⟨leads, _, closed, _⟩ := runPass_leads clean
  have tracked := leads.tracked rfl (startPass_wellTyped _ typed _ _) (startPass_tracked _ _ _ _)
  have declaring := leads.declaring
  generalize runPass ⟨.bodies, host⟩ modules log tokens = second at closed tracked declaring
  have stack := tracked.scopes
  have bodies : second.declaring = false := declaring
  unfold Environment.Tracked ScopeStack.all at stack
  rw [closed] at stack
  have root : second.root = second.environment.scopes.base.node := by
    simp [AnalysisState.root, bodies, closed, AnalysisState.closeAll]
  rw [root]
  exact stack.1.lowest_closes

/-- Every run of an accepted function ends as its header says. -/
theorem root_controlSound {host : Host} {maxErrors : Nat} {tokens : List Token}
    (accepted : (ofTokens host maxErrors tokens).isOk = true) :
    ∀ n ∈ (ofTokens host maxErrors tokens).root.preorder, n.FunctionSound := by
  obtain ⟨firstClean, secondClean⟩ := isOk_iff.mp accepted
  have typed := (runPass_wellTyped ⟨.declarations, host⟩ ModuleTree.wellTyped_empty { maxErrors }
    tokens).environment.modules
  have failed : (runPass ⟨.declarations, host⟩ .empty { maxErrors } tokens).log.failed = false :=
    firstClean
  simp only [ofTokens, failed, Bool.false_eq_true, if_false]
  exact runPass_controlSound typed secondClean

-- The program `module m { fn f :: int { while (true) { break; } ret 1; } }`.
def loopingProgram : List Token :=
  [Token.alone (.keyword .module) "module", .alone .identifier "m", .alone .leftBrace "\x7b",
    .alone (.keyword .fn) "fn", .alone .identifier "f", .alone .doubleColon "::",
    .alone (.datatype .int) "int", .alone .leftBrace "\x7b", .alone (.keyword .«while») "while",
    .alone .leftParen "(", .alone (.literal .yes) "true", .alone .rightParen ")",
    .alone .leftBrace "\x7b", .alone (.keyword .«break») "break", .alone .semicolon ";",
    .alone .rightBrace "\x7d", .alone (.keyword .ret) "ret", .alone (.literal .int) "1",
    .alone .semicolon ";", .alone .rightBrace "\x7d", .alone .rightBrace "\x7d"]

theorem loopingProgram_controlSound :
    (ofTokens {} 100 loopingProgram).isOk = true ∧
      ((ofTokens {} 100 loopingProgram).root.findAll .functionDefinition).length = 1 ∧
      ∀ n ∈ (ofTokens {} 100 loopingProgram).root.preorder, n.FunctionSound := by
  have accepted : (ofTokens {} 100 loopingProgram).isOk = true := by decide +kernel
  exact ⟨accepted, by decide +kernel, root_controlSound accepted⟩

end Analysis

end MiLanguage
