import MiLanguage.Proofs.Likeness.Ahead
import MiLanguage.Proofs.Likeness.Run
import MiLanguage.Proofs.Outline.Declarations

set_option autoImplicit false

namespace MiLanguage

/-- A `use` statement. -/
structure UseClause where
  keyword : Token
  path : Token
  semicolon : Token
  isUse : keyword.kind = .keyword .use
  isName : path.kind = .identifier
  ends : semicolon.kind = .semicolon

namespace UseClause

def tokens (u : UseClause) : List Token := [u.keyword, u.path, u.semicolon]

-- Some `use` statements, one behind the other.
def text (us : List UseClause) : List Token := us.flatMap tokens

@[simp] theorem text_nil : text [] = [] := rfl

@[simp] theorem text_cons (u : UseClause) (us : List UseClause) :
    text (u :: us) = u.keyword :: u.path :: u.semicolon :: text us := rfl

theorem next (u : UseClause) (rest : List Token) :
    Chunk.next u.keyword (u.path :: u.semicolon :: rest) =
      (.statement u.keyword [u.path, u.semicolon], rest) := by
  simp [Chunk.next, Chunk.readFrom, u.isUse, u.isName, u.ends, TokenKind.isTerminator]

-- There is no brace in them.
theorem skipBlock_text (us : List UseClause) (depth : Nat) (rest : List Token) :
    Chunk.skipBlock depth (text us ++ rest) = Chunk.skipBlock depth rest := by
  induction us with
  | nil => rfl
  | cons u us ih =>
      simp only [text_cons, List.cons_append]
      rw [Chunk.skipBlock_plain (by simp [u.isUse]) (by simp [u.isUse]),
        Chunk.skipBlock_plain (by simp [u.isName]) (by simp [u.isName]),
        Chunk.skipBlock_plain (by simp [u.ends]) (by simp [u.ends]), ih]

-- The module that is named.
def target? (u : UseClause) (env : Environment) : Option ModuleId := env.resolveModule u.path.lexeme

-- The node of a clause that names a module.
def node? (u : UseClause) (env : Environment) : Option Node :=
  (u.target? env).map fun id =>
    .leaf .useStatement (.synthetic .identifier (env.modules.path id) u.path)

-- The modules that some clauses name.
def Named (us : List UseClause) (env : Environment) (id : ModuleId) : Prop :=
  ∃ u ∈ us, u.target? env = some id

-- The nodes of some clauses.
def nodes (us : List UseClause) (env : Environment) : List Node := us.filterMap (·.node? env)

-- The modules of some clauses, as they are spelled.
def paths (us : List UseClause) : List String := us.map (·.path.lexeme)

theorem named_iff {us : List UseClause} {env : Environment} {id : ModuleId} :
    Named us env id ↔ ∃ path ∈ paths us, env.resolveModule path = some id := by
  simp [Named, paths, target?]

-- Where the clauses stand in a text is all that the nodes do not have from the paths.
theorem lexeme_nodes (us : List UseClause) (env : Environment) :
    (nodes us env).map Node.lexeme =
      (paths us).filterMap fun path => (env.resolveModule path).map (some <| env.modules.path ·) := by
  rw [nodes, paths, List.map_filterMap, List.filterMap_map]
  refine List.filterMap_congr fun u _ => ?_
  simp only [node?, target?, Option.map_map, Function.comp_apply]
  rfl

theorem nodes_shape {us : List UseClause} {env : Environment} {n : Node} (member : n ∈ nodes us env) :
    n.kind = .useStatement ∧ n.children = [] := by
  obtain ⟨u, -, shown⟩ := List.mem_filterMap.mp member
  obtain ⟨id, -, rfl⟩ := Option.map_eq_some_iff.mp shown
  exact ⟨rfl, rfl⟩

end UseClause

section Statement

variable {env : Environment} {setting : Setting} {u : UseClause}

theorem Environment.statement_use (u : UseClause) (setting : Setting) (env : Environment) :
    env.statement setting u.keyword [u.path, u.semicolon] =
      .ofChecked env (env.useStatement {} u.keyword [u.path, u.semicolon]) := by
  have mods : LeadingModifiers.read [u.keyword, u.path, u.semicolon] =
      .ok ({}, [u.keyword, u.path, u.semicolon]) := by
    simp [LeadingModifiers.read, LeadingModifiers.readFrom, u.isUse]
  unfold Environment.statement
  rw [mods]
  simp only [Environment.dispatch, u.isUse, Environment.read]

theorem Environment.statement_used {id : ModuleId} (block : env.frame.isBlock = true)
    (found : u.target? env = some id) :
    env.statement setting u.keyword [u.path, u.semicolon] =
      ⟨{ env with scopes := (env.scopes.addUse? id).getD env.scopes },
        .ok (some (.leaf .useStatement (.synthetic .identifier (env.modules.path id) u.path)))⟩ := by
  have found : env.resolveModule u.path.lexeme = some id := found
  have blocked : env.requireBlock u.keyword = .ok () := by simp [Environment.requireBlock, block]
  rw [Environment.statement_use]
  simp [Environment.useStatement, LeadingModifiers.requireNone, blocked, Checked.ok_bind, u.isName,
    requireEnd, u.ends, Token.is, require, found, Outcome.ofChecked]

theorem Environment.uses_of_statement {node : Option Node}
    (accepted : (env.statement setting u.keyword [u.path, u.semicolon]).result = .ok node) :
    env.frame.isBlock = true ∧ (u.target? env).isSome = true := by
  rw [Environment.statement_use] at accepted
  cases read : env.useStatement {} u.keyword [u.path, u.semicolon] with
  | error => simp [read, Outcome.ofChecked] at accepted
  | ok a =>
      simp only [Environment.useStatement, LeadingModifiers.requireNone, Checked.ok_bind,
        Checked.bind_eq_ok, Environment.requireBlock, Checked.require_eq_ok] at read
      obtain ⟨_, block, read⟩ := read
      refine ⟨block, ?_⟩
      cases found : u.target? env with
      | some => rfl
      | none =>
          have found : env.resolveModule u.path.lexeme = none := found
          simp [u.isName, Token.is, found] at read

end Statement

namespace Frame

-- The frame as it is once its block has warned.
def silenced (f : Frame) : Frame := f.modifyBlock ({ · with warned := true })

variable {f g : Frame}

theorem moduleId?_of_silenced (same : g.silenced = f.silenced) : g.moduleId? = f.moduleId? := by
  have kept (f : Frame) : f.silenced.moduleId? = f.moduleId? := by cases f <;> rfl
  rw [← kept, same, kept]

theorem blockKind?_of_silenced (same : g.silenced = f.silenced) : g.blockKind? = f.blockKind? := by
  have kept (f : Frame) : f.silenced.blockKind? = f.blockKind? := by cases f <;> rfl
  rw [← kept, same, kept]

theorem isFunction_of_silenced (same : g.silenced = f.silenced) : g.isFunction = f.isFunction := by
  rw [Frame.isFunction, blockKind?_of_silenced same, Frame.isFunction]

theorem like_of_silenced {σ : Slack} (exact : σ.exact = false) (reflexive : σ.Reflexive)
    (same : g.silenced = f.silenced) : f.Like σ g := by
  cases f with
  | block kind b =>
      cases g with
      | block kind' c =>
          simp only [silenced, modifyBlock, Frame.block.injEq, Block.mk.injEq] at same
          obtain ⟨rfl, locals, uses, returnType, bodyOf, returned, terminated, -⟩ := same
          refine .block ⟨locals, ?_, returnType, bodyOf, returned, terminated, fun exact' => ?_⟩
          · rw [uses]
            exact σ.sameUses_refl _
          · rw [exact] at exact'
            cases exact'
      | _ => simp [silenced, modifyBlock] at same
  | parent id => cases g <;> simp [silenced, modifyBlock] at same; cases same; exact .parent id
  | module id => cases g <;> simp [silenced, modifyBlock] at same; cases same; exact .module id
  | enum id e =>
      cases g <;> simp [silenced, modifyBlock] at same
      obtain ⟨rfl, rfl⟩ := same
      exact .enum _ _
  | «class» id c =>
      cases g <;> simp [silenced, modifyBlock] at same
      obtain ⟨rfl, rfl⟩ := same
      exact .class (ClassDeclaration.like_refl reflexive _ _)

end Frame

/-- What `use` clauses add to a block: the modules `S`. A block may warn meanwhile. -/
structure Block.Uses (S : ModuleId → Prop) (old new : Block) : Prop where
  same : { new with uses := [], warned := true } = { old with uses := [], warned := true }
  uses : ∀ id, id ∈ new.uses ↔ id ∈ old.uses ∨ S id

/-- What they make of the open scopes: the innermost function has the modules `S` in use, and the
nodes are in the innermost scope. -/
inductive Puts (S : ModuleId → Prop) : List Node → List Scope → List Scope → Prop
  | none : Puts S [] [] []
  | function {nodes : List Node} {a b : Scope} {c d : Block} {as : List Scope} :
      a.frame = .block .function c → b.frame = .block .function d → c.Uses S d →
      b.discard = a.discard → b.node = nodes.foldl Node.push a.node →
      Puts S nodes (a :: as) (b :: as)
  | inner {nodes : List Node} {a b : Scope} {as bs : List Scope} :
      a.frame.isFunction = false → b.frame.silenced = a.frame.silenced →
      b.discard = a.discard → b.node = nodes.foldl Node.push a.node → Puts S [] as bs →
      Puts S nodes (a :: as) (b :: bs)

theorem Frame.eq_of_isFunction {f : Frame} (function : f.isFunction = true) :
    ∃ b, f = .block .function b := by
  cases f with
  | block kind b =>
      have kind : kind = .function := by
        simpa [Frame.isFunction, Frame.blockKind?] using function
      exact ⟨b, by rw [kind]⟩
  | _ => simp [Frame.isFunction, Frame.blockKind?] at function

namespace Puts

variable {S T : ModuleId → Prop} {ns ms : List Node} {as bs cs : List Scope}

theorem refl (as : List Scope) : Puts (fun _ => False) [] as as := by
  induction as with
  | nil => exact .none
  | cons a as ih =>
      cases function : a.frame.isFunction with
      | false => exact .inner function rfl rfl rfl ih
      | true =>
          obtain ⟨b, frame⟩ := Frame.eq_of_isFunction function
          exact .function frame frame ⟨rfl, by simp⟩ rfl rfl

theorem congr (puts : Puts S ns as bs) (same : ∀ id, S id ↔ T id) : Puts T ns as bs := by
  have : S = T := funext fun id => propext (same id)
  exact this ▸ puts

theorem trans (first : Puts S ns as bs) (second : Puts T ms bs cs) :
    Puts (fun id => S id ∨ T id) (ns ++ ms) as cs := by
  induction first generalizing ms cs with
  | none => cases second; exact .none
  | @function ns a b c d as frame frame' block discard node =>
      cases second with
      | @function _ _ e _ f _ frame₁ frame₂ block' discard' node' =>
          rw [frame'] at frame₁
          cases frame₁
          refine .function frame frame₂ ⟨block'.same.trans block.same, fun id => ?_⟩
            (discard'.trans discard) ?_
          · rw [block'.uses, block.uses, or_assoc]
          · rw [node', node, List.foldl_append]
      | inner other => simp [Frame.isFunction, frame', Frame.blockKind?] at other
  | @inner ns a b as bs other frame discard node _ ih =>
      have other' := (Frame.isFunction_of_silenced frame).trans other
      cases second with
      | function frame' => simp [Frame.isFunction, frame', Frame.blockKind?] at other'
      | inner _ frame' discard' node' rest =>
          refine .inner other (frame'.trans frame) (discard'.trans discard) ?_ (ih rest)
          rw [node', node, List.foldl_append]

theorem findSome?_moduleId? (puts : Puts S ns as bs) :
    bs.findSome? (·.frame.moduleId?) = as.findSome? (·.frame.moduleId?) := by
  induction puts with
  | none => rfl
  | function frame frame' => simp [frame, frame', Frame.moduleId?]
  | inner _ frame _ _ _ ih =>
      rw [List.findSome?_cons, List.findSome?_cons, Frame.moduleId?_of_silenced frame, ih]

theorem map_node (puts : Puts S [] as bs) : bs.map Scope.node = as.map Scope.node := by
  generalize none : ([] : List Node) = ns at puts
  induction puts with
  | none => rfl
  | function _ _ _ _ node =>
      subst none
      rw [List.map_cons, List.map_cons, node]
      rfl
  | inner _ _ _ node _ ih =>
      subst none
      rw [List.map_cons, List.map_cons, node, ih rfl]
      rfl

-- A change to the innermost scope that puts no module in use.
theorem head {a b : Scope} (frame : b.frame.silenced = a.frame.silenced)
    (discard : b.discard = a.discard) (node : b.node = ns.foldl Node.push a.node) (as : List Scope) :
    Puts (fun _ => False) ns (a :: as) (b :: as) := by
  cases function : a.frame.isFunction with
  | false => exact .inner function frame discard node (.refl as)
  | true =>
      obtain ⟨c, old⟩ := Frame.eq_of_isFunction function
      obtain ⟨d, new⟩ := Frame.eq_of_isFunction ((Frame.isFunction_of_silenced frame).trans function)
      rw [old, new] at frame
      simp only [Frame.silenced, Frame.modifyBlock, Frame.block.injEq, Block.mk.injEq,
        true_and] at frame
      refine .function old new ⟨?_, ?_⟩ discard node
      · simp [frame]
      · simp [frame]

theorem addUse (as : List Scope) (id : ModuleId) :
    Puts (· = id) [] as ((ScopeStack.modifyFirst (fun scope =>
      match scope.frame with
      | .block .function b =>
          some { scope with
            frame := .block .function
              { b with uses := if b.uses.contains id then b.uses else b.uses ++ [id] } }
      | _ => Option.none) as).getD as) := by
  induction as with
  | nil => exact .none
  | cons a as ih =>
      unfold ScopeStack.modifyFirst
      split
      next b changed =>
        split at changed
        next c frame =>
          cases changed
          refine .function frame rfl ⟨rfl, fun other => ?_⟩ rfl rfl
          dsimp only
          split
          next known =>
            have known : id ∈ c.uses := by simpa using known
            constructor
            · exact .inl
            · rintro (old | rfl)
              · exact old
              · exact known
          next => rw [List.mem_append, List.mem_singleton]
        next => cases changed
      next unchanged =>
        have other : a.frame.isFunction = false := by
          cases function : a.frame.isFunction with
          | false => rfl
          | true =>
              obtain ⟨c, frame⟩ := Frame.eq_of_isFunction function
              rw [frame] at unchanged
              cases unchanged
        have rest : Puts (· = id) [] (a :: as) (a :: _) := .inner other rfl rfl rfl ih
        revert rest
        cases ScopeStack.modifyFirst _ as <;> exact fun rest => rest

end Puts

namespace Environment

/-- What `use` clauses make of an environment. -/
structure Puts (S : ModuleId → Prop) (nodes : List Node) (old new : Environment) : Prop where
  modules : new.modules = old.modules
  inLibrary : new.inLibrary = old.inLibrary
  base : new.scopes.base = old.scopes.base
  opened : MiLanguage.Puts S nodes old.scopes.opened new.scopes.opened

variable {S T : ModuleId → Prop} {ns ms : List Node} {env new : Environment}

theorem puts_refl (env : Environment) : env.Puts (fun _ => False) [] env :=
  ⟨rfl, rfl, rfl, .refl _⟩

theorem Puts.trans {last : Environment} (first : env.Puts S ns new) (second : new.Puts T ms last) :
    env.Puts (fun id => S id ∨ T id) (ns ++ ms) last :=
  ⟨second.modules.trans first.modules, second.inLibrary.trans first.inLibrary,
    second.base.trans first.base, first.opened.trans second.opened⟩

theorem Puts.congr (puts : env.Puts S ns new) (same : ∀ id, S id ↔ T id) : env.Puts T ns new :=
  ⟨puts.modules, puts.inLibrary, puts.base, puts.opened.congr same⟩

theorem Puts.opened_ne_nil (puts : env.Puts S ns new) (deep : env.scopes.opened ≠ []) :
    new.scopes.opened ≠ [] := by
  have opened := puts.opened
  generalize env.scopes.opened = as, new.scopes.opened = bs at deep opened
  cases opened with
  | none => exact deep
  | function => exact List.cons_ne_nil _ _
  | inner => exact List.cons_ne_nil _ _

theorem Puts.isBlock (puts : env.Puts S ns new) (deep : env.scopes.opened ≠ []) :
    new.frame.isBlock = env.frame.isBlock := by
  have opened := puts.opened
  unfold Environment.frame ScopeStack.current
  generalize env.scopes.opened = as, new.scopes.opened = bs at deep opened
  cases opened with
  | none => exact absurd rfl deep
  | function frame frame' => simp [frame, frame', Frame.isBlock, Frame.block?]
  | inner _ frame =>
      have kinds := Frame.blockKind?_of_silenced frame
      have kept (f : Frame) : f.isBlock = f.blockKind?.isSome := by cases f <;> rfl
      simp only [List.headD_cons, kept, kinds]

theorem Puts.currentModule (puts : env.Puts S ns new) : new.currentModule = env.currentModule := by
  simp only [Environment.currentModule, ScopeStack.currentModule, ScopeStack.all,
    List.findSome?_append, puts.opened.findSome?_moduleId?, puts.base]

theorem Puts.target? (puts : env.Puts S ns new) (u : UseClause) : u.target? new = u.target? env := by
  rw [UseClause.target?, resolveModule, puts.modules, puts.currentModule, UseClause.target?,
    resolveModule]

theorem Puts.node? (puts : env.Puts S ns new) (u : UseClause) : u.node? new = u.node? env := by
  rw [UseClause.node?, puts.target?, puts.modules, UseClause.node?]

theorem puts_changed {f : Scope → Scope} (deep : env.scopes.opened ≠ [])
    (frame : ∀ a, (f a).frame.silenced = a.frame.silenced) (discard : ∀ a, (f a).discard = a.discard)
    (node : ∀ a, (f a).node = ns.foldl Node.push a.node) :
    env.Puts (fun _ => False) ns { env with scopes := env.scopes.modifyCurrent f } := by
  unfold ScopeStack.modifyCurrent
  cases opened : env.scopes.opened with
  | nil => exact absurd opened deep
  | cons a as =>
      refine ⟨rfl, rfl, rfl, ?_⟩
      rw [opened]
      exact .head (frame a) (discard a) (node a) as

theorem Warned.puts (warned : env.Warned new) (deep : env.scopes.opened ≠ []) :
    env.Puts (fun _ => False) [] new := by
  cases warned with
  | same => exact env.puts_refl
  | marked =>
      refine puts_changed deep (fun a => ?_) (fun _ => rfl) fun _ => rfl
      cases a.frame <;> rfl

theorem puts_addUse (env : Environment) (id : ModuleId) :
    env.Puts (· = id) [] { env with scopes := (env.scopes.addUse? id).getD env.scopes } := by
  have opened := MiLanguage.Puts.addUse env.scopes.opened id
  unfold ScopeStack.addUse? ScopeStack.modifyInnermost
  generalize ScopeStack.modifyFirst _ env.scopes.opened = found at opened
  cases found <;> exact ⟨rfl, rfl, rfl, opened⟩

theorem puts_append {setting : Setting} (pass : setting.declaring = false)
    (deep : env.scopes.opened ≠ []) (node : Node) :
    env.Puts (fun _ => False) [node] (env.append setting node) := by
  have appended : env.append setting node = { env with scopes := env.scopes.append node } := by
    simp [Environment.append, pass]
  rw [appended]
  exact puts_changed deep (fun _ => rfl) (fun _ => rfl) fun _ => rfl

end Environment

namespace AnalysisState

variable {s last : AnalysisState} {u : UseClause} {us : List UseClause} {after : List Token}

theorem step_use (idle : s.pendingDo = none) (remaining : s.remaining = u.tokens ++ after) :
    s.step = some ((s.facing after).readStatement u.keyword [u.path, u.semicolon]) := by
  have remaining : s.remaining = u.keyword :: u.path :: u.semicolon :: after := remaining
  have idle' : (s.facing after).pendingDo = none := idle
  unfold step
  rw [remaining]
  simp only [u.next]
  exact congrArg some ((statement_idle idle' _ _).trans (by simp [statementOrBrace, u.isUse, Token.is]))

theorem readStatement_use {id : ModuleId} (s : AnalysisState) (pass : s.declaring = false)
    (deep : s.environment.scopes.opened ≠ []) (block : s.environment.frame.isBlock = true)
    (found : u.target? s.environment = some id) :
    ∃ after log, s.readStatement u.keyword [u.path, u.semicolon] = { s with environment := after, log } ∧
      log.failed = s.log.failed ∧ s.environment.Puts (· = id) (UseClause.nodes [u] s.environment) after := by
  obtain ⟨warned, log, checked, failed, warns⟩ := checkReachable_warned s u.keyword
  have silent := warns.puts deep
  have deep' := silent.opened_ne_nil deep
  have read := @Environment.statement_used _ s.setting u id ((silent.isBlock deep).trans block)
    ((silent.target? u).trans found)
  have used := warned.puts_addUse id
  have node : UseClause.nodes [u] s.environment =
      [.leaf .useStatement (.synthetic .identifier (warned.modules.path id) u.path)] := by
    simp [UseClause.nodes, UseClause.node?, found, silent.modules]
  have put := (silent.trans used).trans
    (Environment.puts_append pass (used.opened_ne_nil deep')
      (.leaf .useStatement (.synthetic .identifier (warned.modules.path id) u.path)))
  have brace : u.semicolon.is .leftBrace = false := by simp [Token.is, u.ends]
  rw [node]
  refine ⟨_, log, ?_, failed, put.congr fun other => by simp⟩
  unfold readStatement
  simp only [checked, read, List.getLast?_cons_cons, List.getLast?_singleton, Option.getD_some, brace,
    Bool.false_and, Bool.false_eq_true, if_false]
  rfl

/-- A place in the second pass where clauses may stand. -/
structure Open (s : AnalysisState) : Prop where
  bodies : s.declaring = false
  clean : s.Clean
  idle : s.pendingDo = none
  deep : s.environment.scopes.opened ≠ []
  block : s.environment.frame.isBlock = true

/-- Where some clauses lead to. -/
structure Passes (us : List UseClause) (s t : AnalysisState) : Prop where
  leads : s.Leads t
  setting : t.setting = s.setting
  failed : t.log.failed = s.log.failed
  idle : t.pendingDo = none
  puts : s.environment.Puts (UseClause.Named us s.environment) (UseClause.nodes us s.environment)
    t.environment

theorem passes_nil (idle : s.pendingDo = none) : s.Passes [] s :=
  ⟨.refl, rfl, rfl, idle, s.environment.puts_refl.congr fun _ => by simp [UseClause.Named]⟩

theorem Open.step_use (here : s.Open) {id : ModuleId} (found : u.target? s.environment = some id)
    (remaining : s.remaining = u.tokens ++ after) :
    ∃ t, CleanStep s t ∧ t.Open ∧ t.remaining = after ∧ s.Passes [u] t := by
  obtain ⟨env, log, read, failed, puts⟩ :=
    (s.facing after).readStatement_use here.bodies here.deep here.block found
  have step : CleanStep s { s with remaining := after, environment := env, log } :=
    ⟨(AnalysisState.step_use here.idle remaining).trans (congrArg some read), failed.trans here.clean⟩
  have opened : Environment.Puts (· = id) (UseClause.nodes [u] s.environment) s.environment env := puts
  refine ⟨_, step, ⟨here.bodies, step.2, here.idle, opened.opened_ne_nil here.deep,
    (opened.isBlock here.deep).trans here.block⟩, rfl, .single step, rfl, failed, here.idle, ?_⟩
  exact opened.congr fun other => by simp [UseClause.Named, found, eq_comm]

theorem Passes.cons {v t : AnalysisState} (first : s.Passes [u] v) (rest : v.Passes us t) :
    s.Passes (u :: us) t := by
  have targets (u : UseClause) := first.puts.target? u
  have nodes : UseClause.nodes us v.environment = UseClause.nodes us s.environment := by
    simp only [UseClause.nodes, first.puts.node?]
  have both := first.puts.trans rest.puts
  refine ⟨Relation.ReflTransGen.trans first.leads rest.leads, rest.setting.trans first.setting,
    rest.failed.trans first.failed, rest.idle, ?_⟩
  rw [nodes] at both
  have appended : UseClause.nodes [u] s.environment ++ UseClause.nodes us s.environment =
      UseClause.nodes (u :: us) s.environment := (List.filterMap_append (l := [u])).symm
  rw [← appended]
  exact both.congr fun id => by simp [UseClause.Named, targets]

theorem Open.passes (here : s.Open) (remaining : s.remaining = UseClause.text us ++ after)
    (found : ∀ u ∈ us, (u.target? s.environment).isSome = true) :
    ∃ t, s.Passes us t ∧ t.remaining = after := by
  induction us generalizing s with
  | nil => exact ⟨s, passes_nil here.idle, remaining⟩
  | cons u us ih =>
      obtain ⟨id, target⟩ := Option.isSome_iff_exists.mp (found u List.mem_cons_self)
      obtain ⟨v, _, there, left, first⟩ := here.step_use target remaining
      obtain ⟨t, rest, left'⟩ := ih there left fun u member => by
        rw [first.puts.target?]
        exact found u (List.mem_cons_of_mem _ member)
      exact ⟨t, first.cons rest, left'⟩

theorem takes_use (remaining : s.remaining = u.tokens ++ after) :
    s.Takes u.keyword [u.path, u.semicolon] after :=
  ⟨u.keyword, u.path :: u.semicolon :: after, remaining, u.next after⟩

theorem CleanStep.use {t : AnalysisState} (step : CleanStep s t)
    (remaining : s.remaining = u.tokens ++ after) :
    s.pendingDo = none ∧ ∃ warned, s.environment.Warned warned ∧ warned.frame.isBlock = true ∧
      (u.target? warned).isSome = true := by
  have takes := takes_use remaining
  cases step.moves with
  | completes _ _ takes' kind =>
      obtain ⟨rfl, -, -⟩ := takes.unique takes' rfl
      rw [u.isUse] at kind
      cases kind
  | closes _ _ remaining' kind =>
      rw [remaining] at remaining'
      cases remaining'
      rw [u.isUse] at kind
      cases kind
  | accepts _ idle takes' _ warns _ _ _ read =>
      obtain ⟨rfl, rfl, -⟩ := takes.unique takes' rfl
      exact ⟨idle, _, warns, Environment.uses_of_statement (congrArg Outcome.result read)⟩
  | skips _ idle takes' _ warns _ _ _ _ _ read =>
      obtain ⟨rfl, rfl, -⟩ := takes.unique takes' rfl
      exact ⟨idle, _, warns, Environment.uses_of_statement (congrArg Outcome.result read)⟩

theorem CleanStep.open {t : AnalysisState} (step : CleanStep s t)
    (remaining : s.remaining = u.tokens ++ after) (bodies : s.declaring = false)
    (root : s.environment.scopes.base.frame.isBlock = false) : s.Open := by
  obtain ⟨idle, warned, warns, block, -⟩ := step.use remaining
  have here : s.environment.frame.isBlock = true := by
    cases bare : s.environment.frame.isBlock with
    | true => rfl
    | false =>
        rw [warns.eq bare, bare] at block
        cases block
  refine ⟨bodies, (step_moves step.1 step.2).1, idle, fun bottom => ?_, here⟩
  simp [Environment.frame, ScopeStack.current, bottom, root] at here

theorem Open.finds (here : s.Open) (leads : s.Leads last) (ended : last.remaining = [])
    (remaining : s.remaining = UseClause.text us ++ after) :
    ∀ u ∈ us, (u.target? s.environment).isSome = true := by
  induction us generalizing s with
  | nil => simp
  | cons u us ih =>
      have left : last.remaining ≠ s.remaining := by
        rw [ended, remaining]
        exact (List.cons_ne_nil _ _).symm
      obtain ⟨t, step, leads⟩ := leads.head_of_remaining left
      obtain ⟨-, warned, warns, -, named⟩ := step.use remaining
      rw [(warns.puts here.deep).target?] at named
      obtain ⟨id, target⟩ := Option.isSome_iff_exists.mp named
      obtain ⟨v, step', there, left, first⟩ := here.step_use target remaining
      cases rightUnique_cleanStep step step'
      refine List.forall_mem_cons.mpr ⟨named, fun w member => ?_⟩
      rw [← first.puts.target?]
      exact ih there leads left w member

end AnalysisState

end MiLanguage
