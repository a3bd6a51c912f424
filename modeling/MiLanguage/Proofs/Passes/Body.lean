import MiLanguage.Proofs.Analysis.Pass
import MiLanguage.Proofs.Passes.Declaring

set_option autoImplicit false

namespace MiLanguage

/-- The scopes in the body of a function that stands in `outer`, where `depth` braces inside of the
body's own are open. `n` is the function's node as its header has made it. -/
inductive Inside (outer : List Scope) (owner : BodyOwner) (n : Node) : Nat → List Scope → Prop
  | body {scope : Scope} {b : Block} {around : List Scope} :
      scope.discard = false → scope.frame = .block .function b → b.bodyOf = some owner →
      n.Grown scope.node → List.Forall₂ Scope.Updated outer around →
      Inside outer owner n 0 (scope :: around)
  | block {kind : BlockKind} {scope : Scope} {scopes : List Scope} {depth : Nat} :
      scope.title = .block kind → kind = .branch ∨ kind = .whileLoop ∨ kind = .doLoop →
      Inside outer owner n depth scopes → Inside outer owner n (depth + 1) (scope :: scopes)
  | loop {scope head : Scope} {scopes : List Scope} {depth : Nat} :
      scope.title = .block .forLoop → head.title = .block .loopHead →
      Inside outer owner n depth scopes → Inside outer owner n (depth + 1) (scope :: head :: scopes)

namespace Inside

variable {outer : List Scope} {owner : BodyOwner} {n : Node} {depth : Nat} {scope : Scope}
  {scopes new : List Scope}

theorem length_lt (inside : Inside outer owner n depth scopes) : outer.length < scopes.length := by
  induction inside with
  | body _ _ _ _ around => simp [around.length_eq]
  | block _ _ _ ih => simp only [List.length_cons]; omega
  | loop _ _ _ ih => simp only [List.length_cons]; omega

theorem updated (inside : Inside outer owner n depth scopes)
    (updated : List.Forall₂ Scope.Updated scopes new) : Inside outer owner n depth new := by
  induction inside generalizing new with
  | body kept frame owned grown around =>
      cases updated with
      | @cons _ scope' _ around' head tail =>
          have trans : ∀ {a b c : List Scope}, List.Forall₂ Scope.Updated a b →
              List.Forall₂ Scope.Updated b c → List.Forall₂ Scope.Updated a c := by
            intro a b c first
            induction first generalizing c with
            | nil => intro second; cases second; exact .nil
            | cons head _ ih =>
                intro second
                cases second with
                | cons head' tail' => exact .cons (head.trans head') (ih tail')
          have same := head.frame
          rw [frame] at same
          have grown' : n.Grown scope'.node := by rw [head.node]; exact grown
          cases later : scope'.frame with
          | block kind b' =>
              rw [later] at same
              cases same with
              | refl => exact .body (head.discard.trans kept) later owned grown' (trans around tail)
              | block _ owner' _ =>
                  exact .body (head.discard.trans kept) later (owner'.trans owned) grown'
                    (trans around tail)
          | _ => rw [later] at same; cases same
  | block title kind _ ih =>
      cases updated with
      | cons head tail => exact .block (head.title.trans title) kind (ih tail)
  | loop title headTitle _ ih =>
      cases updated with
      | cons first tail =>
          cases tail with
          | cons second tail =>
              exact .loop (first.title.trans title) (second.title.trans headTitle) (ih tail)

-- The innermost scope gets another child and keeps what its block is for.
theorem modify (inside : Inside outer owner n depth (scope :: scopes)) {changed : Scope}
    (node : ∀ old : Node, old.Grown scope.node → old.Grown changed.node)
    (discard : changed.discard = scope.discard) (title : changed.frame.title = scope.frame.title)
    (owned : ∀ b, scope.frame = .block .function b →
      ∃ b', changed.frame = .block .function b' ∧ b'.bodyOf = b.bodyOf) :
    Inside outer owner n depth (changed :: scopes) := by
  have same : changed.title = scope.title := by simp [Scope.title, discard, title]
  cases inside with
  | body kept frame owned' grown around =>
      obtain ⟨b', frame', bodyOf⟩ := owned _ frame
      exact .body (discard.trans kept) frame' (bodyOf.trans owned') (node n grown) around
  | block title kind inside => exact .block (same.trans title) kind inside
  | loop title head inside => exact .loop (same.trans title) head inside

theorem push (inside : Inside outer owner n depth (scope :: scopes)) (c : Node) :
    Inside outer owner n depth ({ scope with node := scope.node.push c } :: scopes) :=
  inside.modify (fun _ grown => grown.push c) rfl rfl fun b frame => ⟨b, frame, rfl⟩

theorem modifyBlock (inside : Inside outer owner n depth (scope :: scopes)) {f : Block → Block}
    (bodyOf : ∀ b, (f b).bodyOf = b.bodyOf) :
    Inside outer owner n depth ({ scope with frame := scope.frame.modifyBlock f } :: scopes) := by
  refine inside.modify (fun _ grown => grown) rfl ?_ ?_
  · cases frame : scope.frame <;> rfl
  · intro b frame
    exact ⟨f b, by rw [frame]; rfl, bodyOf b⟩

theorem isBlock (inside : Inside outer owner n depth (scope :: scopes)) :
    scope.discard = false ∧ scope.frame.isBlock = true := by
  have block : ∀ {kind}, scope.title = .block kind →
      scope.discard = false ∧ scope.frame.isBlock = true := by
    intro kind title
    unfold Scope.title at title
    split at title
    next => cases title
    next kept =>
      refine ⟨by simpa using kept, ?_⟩
      cases frame : scope.frame <;> first | rfl | (rw [frame] at title; cases title)
  cases inside with
  | body kept frame => exact ⟨kept, by rw [frame]; rfl⟩
  | block title => exact block title
  | loop title => exact block title

end Inside

namespace Environment

variable {env new : Environment} {outer : List Scope} {owner : BodyOwner} {n : Node} {depth : Nat}

def Inside (env : Environment) (outer : List Scope) (owner : BodyOwner) (n : Node) (depth : Nat) :
    Prop :=
  MiLanguage.Inside outer owner n depth env.scopes.all

theorem Inside.updated (inside : env.Inside outer owner n depth) (updated : env.Updated new) :
    new.Inside outer owner n depth :=
  MiLanguage.Inside.updated inside updated.scopes.all

theorem Inside.append (inside : env.Inside outer owner n depth) (setting : Setting) (c : Node) :
    (env.append setting c).Inside outer owner n depth := by
  unfold Environment.append
  split
  next => exact inside
  next =>
    obtain ⟨outer', all, changed⟩ := env.scopes.all_eq_current
    unfold Environment.Inside at inside ⊢
    rw [all] at inside
    rw [ScopeStack.append, changed]
    exact inside.push c

theorem Inside.modifyBlock (inside : env.Inside outer owner n depth) {f : Block → Block}
    (bodyOf : ∀ b, (f b).bodyOf = b.bodyOf) : (env.modifyBlock f).Inside outer owner n depth := by
  obtain ⟨outer', all, changed⟩ := env.scopes.all_eq_current
  unfold Environment.Inside at inside ⊢
  rw [all] at inside
  unfold Environment.modifyBlock ScopeStack.modifyCurrentBlock
  rw [changed]
  exact MiLanguage.Inside.modifyBlock inside bodyOf

theorem Inside.isBlock (inside : env.Inside outer owner n depth) : env.frame.isBlock = true := by
  obtain ⟨outer', all, _⟩ := env.scopes.all_eq_current
  unfold Environment.Inside at inside
  rw [all] at inside
  exact (MiLanguage.Inside.isBlock inside).2

-- The innermost scope is the head of a loop that stands inside.
def AtHead (env : Environment) (outer : List Scope) (owner : BodyOwner) (n : Node) (depth : Nat) :
    Prop :=
  ∃ h scopes, env.scopes.all = h :: scopes ∧ h.title = .block .loopHead ∧
    MiLanguage.Inside outer owner n depth scopes

theorem Inside.atHead {node : Node} (inside : env.Inside outer owner n depth)
    (updated : (env.push (.block .loopHead {}) node).Updated new) :
    new.AtHead outer owner n depth := by
  obtain ⟨below, all, _⟩ := new.scopes.all_eq_current
  have changed := updated.scopes.all
  rw [all] at changed
  cases changed with
  | cons first rest => exact ⟨_, _, all, first.title, MiLanguage.Inside.updated inside rest⟩

theorem AtHead.append (atHead : env.AtHead outer owner n depth) (setting : Setting) (c : Node) :
    (env.append setting c).AtHead outer owner n depth := by
  obtain ⟨h, scopes, all, title, inside⟩ := atHead
  unfold Environment.append
  split
  next => exact ⟨h, scopes, all, title, inside⟩
  next =>
    obtain ⟨below, all', changed⟩ := env.scopes.all_eq_current
    rw [all] at all'
    cases all'
    exact ⟨_, scopes, changed _, title, inside⟩

theorem AtHead.appendAll (setting : Setting) (nodes : List Node)
    (atHead : env.AtHead outer owner n depth) :
    (nodes.foldl (fun env node => env.append setting node) env).AtHead outer owner n depth := by
  induction nodes generalizing env with
  | nil => exact atHead
  | cons c nodes ih => exact ih (atHead.append setting c)

theorem AtHead.openLoop (atHead : env.AtHead outer owner n depth) (node : Node) :
    (env.push (.block .forLoop {}) node).Inside outer owner n (depth + 1) := by
  obtain ⟨h, scopes, all, title, inside⟩ := atHead
  have opened : (env.push (.block .forLoop {}) node).scopes.all =
      ⟨.block .forLoop {}, node, false⟩ :: h :: scopes := by
    rw [← all]
    rfl
  unfold Environment.Inside
  rw [opened]
  exact .loop rfl title inside

end Environment

section Accepted

variable {env : Environment} {setting : Setting} {mods : LeadingModifiers} {head : Token}
  {tail : List Token} {accepted : Accepted} {outer : List Scope} {owner : BodyOwner} {n : Node}
  {depth : Nat}

/-- What a statement in a body leaves: it ends in a semicolon, or opens a block. -/
structure StaysInside (env : Environment) (setting : Setting) (head : Token) (tail : List Token)
    (outer : List Scope) (owner : BodyOwner) (n : Node) (depth : Nat) (accepted : Accepted) :
    Prop where
  modules : env.modules.Updated (accepted.settled setting).modules
  sort : statementSort head tail = .other
  inside :
    (Ends head tail .semicolon ∧ (accepted.settled setting).Inside outer owner n depth) ∨
      (Ends head tail .leftBrace ∧ (accepted.settled setting).Inside outer owner n (depth + 1))

theorem Accepts.inside (accepts : Accepts env setting mods head tail accepted)
    (pass : setting.declaring = false) (inside : env.Inside outer owner n depth) :
    StaysInside env setting head tail outer owner n depth accepted := by
  have block := inside.isBlock
  have declaring : ¬setting.declaring = true := by simp [pass]
  have isModule : ¬env.frame.isModule = true := by
    intro isModule
    cases frame : env.frame with
    | block => rw [frame] at isModule; cases isModule
    | _ => rw [frame] at block; cases block
  have host : ¬(env.frame.isModule || env.frame.isClass) = true := by
    intro host
    cases frame : env.frame with
    | block => rw [frame] at host; cases host
    | _ => rw [frame] at block; cases block
  have appends : ∀ {after : Environment} {c : Node}, env.Updated after →
      statementSort head tail = .other → Ends head tail .semicolon →
      StaysInside env setting head tail outer owner n depth ⟨after, some c⟩ := by
    intro after c updated sort ends
    refine ⟨?_, sort, .inl ⟨ends, (inside.updated updated).append setting c⟩⟩
    rw [((⟨after, some c⟩ : Accepted).settled_kept setting).2]
    exact updated.modules
  cases accepts with
  | moduleDeclared _ _ _ pass | classDeclared _ _ _ pass | enumDeclared _ _ _ pass
  | membersDeclared _ _ _ pass | functionDeclared _ _ _ pass | nativeDeclared _ _ _ pass
  | constructorDeclared _ _ _ pass => exact absurd pass declaring
  | conditional starts ends =>
      have shape := conditional_eq_some starts
      refine ⟨.refl, ?_, .inr ⟨ends, .block rfl ?_ inside⟩⟩
      · rcases shape with ⟨kind, _⟩ | ⟨kind, _⟩ <;> simp [statementSort, kind]
      · rcases shape with ⟨_, same, _⟩ | ⟨_, same, _⟩ <;> simp [same]
  | doLoop kind ends =>
      exact ⟨.refl, by simp [statementSort, kind],
        .inr ⟨ends, .block rfl (.inr (.inr rfl)) inside⟩⟩
  | @forLoop defined stepped start condition step _ kind ends _ defines _ advances =>
      have updated := defines.updated.trans advances.updated
      have filled := (inside.atHead updated).appendAll setting
        [start, condition, .new .forInstruct head.streamLine [step]]
      refine ⟨?_, by simp [statementSort, kind], .inr ⟨ends, filled.openLoop _⟩⟩
      show env.modules.Updated (List.foldl _ stepped _).modules
      simp only [List.foldl_cons, List.foldl_nil, modules_append]
      exact updated.modules
  | @returned value kind ends =>
      have flagged := inside.modifyBlock
        (f := fun b => { b with returned := true, terminated := true }) fun _ => rfl
      refine ⟨?_, by simp [statementSort, kind], .inl ⟨ends, flagged.append setting _⟩⟩
      unfold Accepted.settled
      dsimp only
      rw [modules_append]
      exact .refl
  | exited starts ends =>
      refine appends (Environment.updated_modifyBlock (fun _ => rfl) (fun _ => rfl) fun _ => rfl) ?_
        ends
      rcases exitKind_eq_some starts with ⟨kind, _⟩ | ⟨kind, _⟩ <;> simp [statementSort, kind]
  | used kind ends => exact appends (env.updated_use _) (by simp [statementSort, kind]) ends
  | libraryEnded kind ends =>
      refine ⟨?_, by simp [statementSort, kind], .inl ⟨ends, ?_⟩⟩
      · rw [(Accepted.settled_kept _ _).2]
        exact .refl
      · have same : ({ env with inLibrary := false } : Environment).Inside outer owner n depth :=
          inside
        exact same.append setting _
  | @variableDefined placement place _ _ starts ends placed inBlock defines =>
      rcases inBlock with pass | rfl
      · exact absurd pass declaring
      · exact appends defines.updated (statementSort_of_variable starts) ends
  | @variableKept placement place tokens starts ends placed _ outside =>
      unfold Environment.placement at placed
      cases frame : env.frame with
      | block =>
          simp only [frame] at placed
          cases placed
          exact absurd rfl outside
      | _ => rw [frame] at block; cases block
  | called kind ends => exact appends env.updated_refl (by simp [statementSort, kind]) ends
  | assigned kind ends _ assigns =>
      exact appends assigns.updated (by simp [statementSort, kind]) ends
  | moduleEntered _ _ module | classEntered _ _ module | classMissing _ _ module
  | enumEntered _ _ module | enumMissing _ _ module => exact absurd module isModule
  | functionOpened _ _ place | nativeKept _ _ place => exact absurd place host
  | membersKept _ _ frame | constructorOpened _ _ frame => rw [frame] at block; cases block

end Accepted

variable {outer : List Scope} {owner : BodyOwner} {n : Node} {depth : Nat}

-- What the closing brace of a block in a body leaves.
theorem Environment.Closes.inside {setting : Setting} {env after : Environment} {scope : Scope}
    {waiting : Option Node} (closes : Environment.Closes setting env scope after waiting)
    (inside : MiLanguage.Inside outer owner n (depth + 1) (scope :: env.scopes.all)) :
    after.modules = env.modules ∧ after.Inside outer owner n depth := by
  have kept := inside.isBlock.1
  have title : scope.title = scope.frame.title := by simp [Scope.title, kept]
  have block := inside.isBlock.2
  have inner : ∀ {kind b}, scope.frame = .block kind b → kind ≠ .forLoop →
      env.Inside outer owner n depth := by
    intro kind b frame other
    rw [frame] at title
    unfold Environment.Inside
    generalize env.scopes.all = scopes at inside ⊢
    cases inside with
    | block _ _ rest => exact rest
    | loop same =>
        rw [title] at same
        cases same
        exact absurd rfl other
  -- The scope of a `for` stands on the one of its variable, and more are below.
  have loop : ∀ {b}, scope.frame = .block .forLoop b → ∃ head rest,
      (env.append setting scope.node).scopes.all = head :: rest ∧
        MiLanguage.Inside outer owner n depth rest := by
    intro b frame
    rw [frame] at title
    generalize all : env.scopes.all = scopes at inside
    cases inside with
    | block same kind =>
        rw [title] at same
        cases same
        simp at kind
    | loop _ _ rest =>
        unfold Environment.append
        split
        next => exact ⟨_, _, all, rest⟩
        next =>
          obtain ⟨below, current, changed⟩ := env.scopes.all_eq_current
          rw [all] at current
          cases current
          exact ⟨_, _, changed _, rest⟩
  cases closes with
  | discarded discard =>
      rw [kept] at discard
      cases discard
  | «class» _ frame => rw [frame] at block; cases block
  | enum _ frame => rw [frame] at block; cases block
  | module _ isModule =>
      cases frame : scope.frame with
      | block => rw [frame] at isModule; cases isModule
      | _ => rw [frame] at block; cases block
  | function _ frame =>
      rw [frame] at title
      generalize env.scopes.all = scopes at inside
      cases inside with
      | block same kind =>
          rw [title] at same
          cases same
          simp at kind
      | loop same =>
          rw [title] at same
          cases same
  | doLoop _ frame => exact ⟨rfl, inner frame (by simp)⟩
  | @forLoop b head scopes _ frame popped =>
      obtain ⟨_, rest, all, inside⟩ := loop frame
      rw [ScopeStack.all_of_pop? popped] at all
      cases all
      have left : ({ env.append setting scope.node with scopes } : Environment).Inside outer owner n
          depth := inside
      refine ⟨?_, left.append setting head.node⟩
      rw [modules_append]
      exact modules_append _ _ _
  | bare _ frame popped =>
      obtain ⟨_, rest, all, inside⟩ := loop frame
      have only := (ScopeStack.pop?_eq_none_iff _).mp popped
      have length := congrArg List.length all
      have deeper := inside.length_lt
      simp only [ScopeStack.all, List.length_append, List.length_cons, List.length_nil] at length
      unfold ScopeStack.depth at only
      omega
  | block _ frame kind =>
      refine ⟨modules_append _ _ _, (inner frame ?_).append setting _⟩
      rcases kind with rfl | rfl | rfl <;> simp

namespace AnalysisState

/-- In the body of `owner`, whose node is `n` at first. `modules` is what was declared then, and
`beyond` what follows the body. -/
structure Within (outer : List Scope) (modules : ModuleTree) (owner : BodyOwner) (n : Node)
    (beyond : List Token) (s : AnalysisState) : Prop where
  inside : ∃ depth, s.environment.Inside outer owner n depth ∧
    Chunk.skipBlock depth s.remaining = some beyond
  modules : modules.Updated s.environment.modules

/-- The step from `s` closes the body, and `body` is the node of the function then. -/
structure Finishes (outer : List Scope) (modules : ModuleTree) (owner : BodyOwner) (n : Node)
    (beyond : List Token) (s t : AnalysisState) (body : Node) : Prop where
  scope : ∃ scope scopes, s.environment.scopes.pop? = some (scope, scopes) ∧ scope.node = body ∧
    List.Forall₂ Scope.Updated outer scopes.all ∧ t.environment.scopes.depth = scopes.depth
  -- The node goes to the scope that the function stands in.
  left : ∃ around : ScopeStack, List.Forall₂ Scope.Updated outer around.all ∧
    t.environment.scopes = around.append body
  grown : n.Grown body
  titles : t.environment.titles = outer.map Scope.title
  remaining : t.remaining = beyond
  idle : t.pendingDo = none
  modules : ∃ before, modules.Updated before ∧
    t.environment.modules = attachBody before body owner

variable {modules : ModuleTree} {beyond : List Token} {s t : AnalysisState}

theorem titles_of_updated {old new : List Scope} (updated : List.Forall₂ Scope.Updated old new) :
    new.map Scope.title = old.map Scope.title := by
  induction updated with
  | nil => rfl
  | cons head _ ih => rw [List.map_cons, List.map_cons, head.title, ih]

theorem Moves.within (moves : s.Moves t) (pass : s.declaring = false)
    (within : Within outer modules owner n beyond s) :
    Within outer modules owner n beyond t ∨
      ∃ body, Finishes outer modules owner n beyond s t body := by
  obtain ⟨⟨depth, inside, skip⟩, updated⟩ := within
  cases moves with
  | completes _ _ takes keyword ends =>
      have skips := (takes.skipBlock (by rw [keyword]; simp) depth).1 ends
      refine .inl ⟨⟨depth, inside.append _ _, ?_⟩, ?_⟩
      · rw [← skips]
        exact skip
      · rw [modules_append]
        exact updated
  | @closes brace later scope scopes after waiting _ _ remaining kind popped closes =>
      have all := ScopeStack.all_of_pop? popped
      unfold Environment.Inside at inside
      rw [all] at inside
      rw [remaining] at skip
      cases depth with
      | zero =>
          -- The brace is the body's own.
          have here : later = beyond := by simpa [Chunk.skipBlock, kind] using skip
          cases inside with
          | @body _ b _ kept frame owned grown around =>
              refine .inr ⟨scope.node, ?_⟩
              cases closes with
              | function _ frame' =>
                  rw [frame] at frame'
                  cases frame'
                  have attached : ∀ modules, b.attached scope.node modules =
                      attachBody modules scope.node owner := by
                    intro modules
                    simp [Block.attached, owned]
                  have building : ¬s.setting.declaring = true := by
                    simpa [AnalysisState.declaring] using pass
                  refine ⟨⟨scope, scopes, popped, rfl, around, by simp⟩, ⟨scopes, around, ?_⟩, grown,
                    ?_, here, rfl, s.environment.modules, updated, ?_⟩
                  · exact congrArg Environment.scopes (if_neg building)
                  · rw [Environment.titles_append]
                    exact titles_of_updated around
                  · rw [modules_append]
                    exact attached _
              | discarded discard => rw [kept] at discard; cases discard
              | «class» _ frame' => rw [frame] at frame'; cases frame'
              | enum _ frame' => rw [frame] at frame'; cases frame'
              | module _ isModule => rw [frame] at isModule; cases isModule
              | doLoop _ frame' => rw [frame] at frame'; cases frame'
              | forLoop _ frame' => rw [frame] at frame'; cases frame'
              | bare _ frame' => rw [frame] at frame'; cases frame'
              | block _ frame' kind =>
                  rw [frame] at frame'
                  cases frame'
                  simp at kind
      | succ depth =>
          obtain ⟨same, inner⟩ := closes.inside inside
          have left : Chunk.skipBlock depth later = some beyond := by
            simpa [Chunk.skipBlock, kind] using skip
          refine .inl ⟨⟨depth, inner, left⟩, ?_⟩
          rw [same]
          exact updated
  | accepts _ _ takes notClosing warns read accepts stands =>
      have inner := accepts.inside pass (inside.updated warns.updated)
      refine .inl ⟨?_, (updated.trans warns.updated.modules).trans inner.modules⟩
      rcases inner.inside with ⟨semicolon, inner⟩ | ⟨brace, inner⟩
      · refine ⟨depth, inner, ?_⟩
        rw [← (takes.skipBlock notClosing depth).1 (ends_of_read semicolon read)]
        exact skip
      · refine ⟨depth + 1, inner, ?_⟩
        rw [← (takes.skipBlock notClosing depth).2 (ends_of_read brace read)]
        exact skip
  | skips _ _ _ _ warns _ accepts brace level =>
      -- Only a declaration ends in a brace that opens nothing.
      have inner := accepts.inside pass (inside.updated warns.updated)
      obtain ⟨skipped, _⟩ := skipsBody_of_brace accepts brace
        (level.trans warns.updated.scopes.depth.symm)
      have sort := inner.sort
      unfold skipsBody at skipped
      unfold statementSort at sort
      split at skipped <;> simp_all

/-- The scope that stands on `level` others is the next of these to close, and its node is `n`
then. -/
inductive Builds (level : Nat) : AnalysisState → Node → Prop
  | closes {s t : AnalysisState} {scope : Scope} {scopes : ScopeStack} :
      CleanStep s t → s.environment.scopes.pop? = some (scope, scopes) → scopes.depth = level →
      t.environment.scopes.depth = level → Builds level s scope.node
  | passes {s t : AnalysisState} {n : Node} :
      CleanStep s t → level < t.environment.scopes.depth → Builds level t n → Builds level s n

theorem length_all (scopes : ScopeStack) : scopes.all.length = scopes.depth := by
  simp [ScopeStack.all, ScopeStack.depth]

theorem Within.deeper (within : Within outer modules owner n beyond s) :
    outer.length < s.environment.scopes.depth := by
  obtain ⟨⟨_, inside, _⟩, _⟩ := within
  have deeper := MiLanguage.Inside.length_lt inside
  rwa [length_all] at deeper

-- The body of a function is read to its end, and what follows is what the first pass has skipped
-- to.
theorem Leads.finishes {last : AnalysisState} (leads : s.Leads last) (pass : s.declaring = false)
    (within : Within outer modules owner n beyond s)
    (closed : last.environment.scopes.depth ≤ outer.length) :
    ∃ body u v, s.Builds outer.length body ∧ s.Leads u ∧ CleanStep u v ∧ v.Leads last ∧
      Finishes outer modules owner n beyond u v body := by
  induction leads using Relation.ReflTransGen.head_induction_on with
  | refl =>
      have deeper := within.deeper
      omega
  | @head s t step leads ih =>
      rcases step.moves.within pass within with inner | ⟨body, finishes⟩
      · obtain ⟨body, u, v, builds, toward, finish⟩ :=
          ih (step.moves.declaring.trans pass) inner
        exact ⟨body, u, v, .passes step inner.deeper builds, .head step toward, finish⟩
      · obtain ⟨scope, scopes, popped, rfl, around, level⟩ := finishes.scope
        have below : scopes.depth = outer.length := by rw [← length_all, around.length_eq]
        exact ⟨scope.node, s, t, .closes step popped below (level.trans below), .refl, step, leads,
          finishes⟩

-- A body's node starts as its header has made it.
theorem Builds.grown {body : Node} (builds : s.Builds outer.length body)
    (pass : s.declaring = false) (within : Within outer modules owner n beyond s) :
    n.Grown body := by
  generalize level : outer.length = height at builds
  induction builds with
  | @closes s t scope scopes step popped _ low =>
      rcases step.moves.within pass within with inner | ⟨body, finishes⟩
      · have deeper := inner.deeper
        omega
      · obtain ⟨scope', scopes', popped', rfl, _⟩ := finishes.scope
        rw [popped] at popped'
        cases popped'
        exact finishes.grown
  | @passes s t body step deeper _ ih =>
      rcases step.moves.within pass within with inner | ⟨body, finishes⟩
      · exact ih (step.moves.declaring.trans pass) inner
      · obtain ⟨_, scopes, _, _, around, low⟩ := finishes.scope
        have below : scopes.depth = outer.length := by rw [← length_all, around.length_eq]
        omega

end AnalysisState

end MiLanguage
