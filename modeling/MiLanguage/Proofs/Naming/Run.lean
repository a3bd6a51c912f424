import MiLanguage.Proofs.Naming.Hidden
import MiLanguage.Proofs.Naming.Recall
import MiLanguage.Proofs.Statement.Storing

set_option autoImplicit false

namespace MiLanguage

variable {env after : Environment} {setting : Setting} {t : ModuleTree} {asks : Sight → Node → Prop}
  {here : Sight} {scope : Scope} {n : Node}

-- A `do` block that waits for its condition.
def Waits (t : ModuleTree) (asks : Sight → Node → Prop) (here : Sight) (block : Node) : Prop :=
  here.body = true ∧ ∃ (scope : Scope) (last : Sight), scope.node = block ∧
    block.kind = .doStatement ∧ scope.Grows t asks here last

namespace Waits

variable {block : Node} (waits : Waits t asks here block)

include waits

theorem silent : block.locals = [] := by
  obtain ⟨_, _, _, rfl, _, grows⟩ := waits
  exact grows.locals

theorem condition : block.kind ≠ .condition := by
  obtain ⟨_, _, _, _, kind, _⟩ := waits
  rw [kind]
  nofun

theorem throughout : Throughout (t.Sound asks) here block := by
  obtain ⟨_, _, _, rfl, _, grows⟩ := waits
  exact grows.throughout

theorem completed {condition : Node} (part : condition.Part t asks here)
    (kind : condition.kind = .condition) : Throughout (t.Sound asks) here (block.push condition) := by
  obtain ⟨_, scope, _, rfl, loop, grows⟩ := waits
  have plain := grows.body loop
  have children := grows.children
  rw [here.inside_doStatement loop] at children
  refine .doLoop (ModuleTree.sound_untyped grows.untyped grows.plain) loop ?_ ?_
  · intro c member same
    rcases List.mem_append.mp member with member | member
    · exact absurd same (plain c member)
    · rw [List.mem_singleton.mp member]
      exact part.throughout
  · show ThroughoutAll (t.Sound asks) here ((scope.node.children ++ [condition]).filter _)
    rw [List.filter_append, List.filter_eq_self.mpr fun c member => by simpa using plain c member,
      List.filter_cons_of_neg (by simp [kind]), List.filter_nil, List.append_nil]
    exact children

theorem completed_silent (condition : Node) : (block.push condition).locals = [] := by
  obtain ⟨_, _, _, rfl, _, grows⟩ := waits
  exact Node.locals_of_kind grows.silent

end Waits

namespace Environment

theorem Closes.grown {waiting : Option Node} (pass : setting.declaring = false)
    (closes : Closes setting env scope after waiting)
    (grown : Grown t asks (scope :: env.scopes.all) here) :
    ∃ s, Grown t asks after.scopes.all s ∧ ∀ block, waiting = some block → Waits t asks s block := by
  have declaring : ¬setting.declaring = true := by simp [pass]
  obtain ⟨s, around, grows⟩ := grown.closed env.scopes.all_ne_nil
  have appends : ∀ (outer : Environment), Grown t asks outer.scopes.all s →
      Grown t asks (outer.append setting scope.node).scopes.all s :=
    fun outer around => grown_append pass around (marked_refl outer) grows.throughout (.inl grows.locals)
      grows.condition
  cases closes with
  | discarded discard =>
      rw [grown.kept scope (by simp)] at discard
      cases discard
  | «class» | enum =>
      rw [if_neg declaring]
      exact ⟨s, appends env around, nofun⟩
  | module | bare | block => exact ⟨s, appends env around, nofun⟩
  | function => exact ⟨s, appends { env with modules := _ } around, nofun⟩
  | doLoop _ frame =>
      refine ⟨s, around, ?_⟩
      rintro _ same
      cases same
      have loop : scope.node.kind = .doStatement := by
        refine grows.loop.mpr ?_
        show scope.frame.title = _
        rw [frame]
        rfl
      have body : s.body = here.body := by
        rw [← grows.sight, s.inside_doStatement loop, Sight.body_afterAll]
      have block := grown.stands.level scope rfl
      rw [frame] at block
      exact ⟨body.trans block, scope, here, rfl, loop, grows⟩
  | @forLoop b head scopes _ _ popped =>
      have whole := appends env around
      rw [ScopeStack.all_of_pop? popped] at whole
      obtain ⟨s', around', grows'⟩ := whole.closed scopes.all_ne_nil
      exact ⟨s', grown_append pass (show Grown t asks ({ env.append setting scope.node with
        scopes } : Environment).scopes.all s' from around') (marked_refl _) grows'.throughout (.inl grows'.locals) grows'.condition, nofun⟩

end Environment

section Built

variable {old new : ModuleTree}

theorem ModuleTree.Built.agrees (built : old.Built new) : old.Agrees new := by
  induction built with
  | refl => exact old.agrees_refl
  | @marked id name new _ ih =>
      have marked : new.Updated _ := .marked id name .refl
      exact ih.trans marked.agrees
  | attached body owner _ ih => exact ih.trans (ModuleTree.agrees_attachBody _ body owner)

theorem ModuleTree.Built.known (built : old.Built new) (known : t.Known old) : t.Known new := by
  induction built with
  | refl => exact known
  | marked id name _ ih => exact ih.updated (.marked id name .refl)
  | attached body owner _ ih => exact ih.attachBody body owner

end Built

theorem Scope.marked_fulfilled (scope : Scope) : scope.Marked scope.fulfilled := by
  refine ⟨rfl, rfl, ?_⟩
  unfold Scope.fulfilled
  cases scope.frame with
  | block => exact .block fun _ => rfl
  | _ => exact .refl _

namespace AnalysisState

variable {first last s u : AnalysisState}

/-- The second pass holds the tree in what it has open, or below what a rejected statement has
opened. -/
inductive Grows (t : ModuleTree) (asks : Sight → Node → Prop) (s : AnalysisState) : Prop
  | shown {here : Sight} :
      Grown t asks s.environment.scopes.all here →
      (∀ block, s.pendingDo = some block → Waits t asks here block) → Grows t asks s
  | hidden {upper lower : List Scope} {here : Sight} :
      Concealed t asks s.environment.scopes.all upper lower here → Grows t asks s

theorem Grows.of_idle (idle : s.pendingDo = none) (goes : Environment.Goes t asks s.environment) :
    s.Grows t asks := by
  obtain ⟨here, grown⟩ := goes
  exact .shown grown fun block waiting => by rw [idle] at waiting; cases waiting

theorem Grows.of_touches {upper lower : List Scope}
    (concealed : Concealed t asks s.environment.scopes.all upper lower here)
    (touches : s.environment.Touches u.environment)
    (leaves : u.environment.sketches = s.environment.sketches) : u.Grows t asks := by
  obtain ⟨upper', lower', concealed'⟩ := concealed.stays touches leaves
  exact .hidden concealed'

theorem Grows.turns (grows : s.Grows t asks) (pass : s.declaring = false)
    (completes : s.environment.Completes t)
    (recalls : ∀ {here : Sight} {first : Token} {rest later : List Token} {mods : LeadingModifiers}
      {head : Token} {tail : List Token} {accepted : Accepted},
      Grown t asks s.environment.scopes.all here → s.Takes first rest later →
      first.kind ≠ .rightBrace → LeadingModifiers.read (first :: rest) = .ok (mods, head :: tail) →
      s.environment.statement s.setting first rest =
        ⟨accepted.environment, .ok accepted.node⟩ →
      s.environment.Recalls t asks here head tail accepted.node)
    (turns : s.Turns u) : u.Grows t asks := by
  cases turns with
  | reports | breaksOff | stray | rejects | skips | runsOff =>
      cases grows with
      | shown grown waits => exact .shown grown waits
      | hidden concealed => exact .hidden concealed
  | flushes waiting =>
      cases grows with
      | shown grown waits =>
          have waits := waits _ waiting
          exact .of_idle rfl ⟨_, Environment.grown_append pass grown (Environment.marked_refl _)
            waits.throughout (.inl waits.silent) waits.condition⟩
      | hidden concealed =>
          exact .of_touches concealed (Environment.touches_append pass _ _)
            (Environment.sketches_append _)
  | fails _ waiting =>
      cases grows with
      | shown grown waits =>
          have waits := waits _ waiting
          exact .of_idle rfl ⟨_, Environment.grown_append pass grown (Environment.marked_refl _)
            waits.throughout (.inl waits.silent) waits.condition⟩
      | hidden concealed =>
          exact .of_touches concealed (Environment.touches_append pass _ _)
            (Environment.sketches_append _)
  | completes waiting _ _ _ read =>
      have decides := Environment.wrappedCondition_decides read
      cases grows with
      | shown grown waits =>
          have waits := waits _ waiting
          have part : Node.Part t asks _ _ := (completes.sees grown.stands).decides waits.1 decides
          obtain ⟨_, _, _, _, rfl⟩ := decides
          exact .of_idle rfl ⟨_, Environment.grown_append pass grown (Environment.marked_refl _)
            (waits.completed part rfl) (.inl (waits.completed_silent _)) waits.condition⟩
      | hidden concealed =>
          exact .of_touches concealed (Environment.touches_append pass _ _)
            (Environment.sketches_append _)
  | @closes brace later scope scopes after waiting log idle _ _ popped closes =>
      have all := ScopeStack.all_of_pop? popped
      cases grows with
      | shown grown =>
          rw [all] at grown
          obtain ⟨here, grown', waits⟩ := closes.grown pass
            (grown.marked (.cons scope.marked_fulfilled (marked_refl _)))
          exact .shown grown' waits
      | hidden concealed =>
          rw [all] at concealed
          obtain ⟨_, _, concealed⟩ := concealed.stays (.top scope scope.fulfilled scopes.all)
            (by rw [List.map_cons, Scope.sketch_fulfilled]; rfl)
          rcases closes.conceals pass concealed with ⟨rfl, grown⟩ | ⟨_, _, concealed⟩
          · exact .of_idle rfl ⟨_, grown⟩
          · exact .hidden concealed
  | warns _ _ warns =>
      cases grows with
      | shown grown waits => exact .shown (grown.marked warns.marks.scopes) waits
      | hidden concealed =>
          exact .of_touches concealed warns.marks.touches warns.updated.sketches
  | @accepts _ _ _ _ _ _ _ idle takes notClosing modifiers accepts read =>
      cases grows with
      | shown grown =>
          exact .of_idle idle (accepts.goes pass completes grown
            (recalls grown takes notClosing modifiers read))
      | hidden concealed =>
          have touches := accepts.touches pass
          rcases accepts.leaves.scopes with same | ⟨_, new, opens, same⟩
          · exact .of_touches concealed touches same
          · obtain ⟨upper, lower, concealed'⟩ :=
              concealed.touches touches same (concealed.hidden.opens opens)
            exact .hidden concealed'
  | @recovers first rest later =>
      cases grows with
      | shown grown =>
          let scope : Scope := {
            frame := recoveryFrame s.environment (leading first rest)
            node := .new .parent (leading first rest).streamLine
            discard := true }
          have concealed : Concealed t asks (scope :: s.environment.scopes.all) [scope] _ _ :=
            ⟨rfl, .recovery rfl, grown⟩
          exact .hidden concealed
      | hidden concealed => exact .hidden (concealed.recovers rfl)

/-- What holds of the second pass all along. -/
structure Keeps (asks : Sight → Node → Prop) (first last s : AnalysisState) : Prop where
  inStep : InStep first last s
  bounded : s.environment.Bounded
  grows : s.Grows last.environment.declared asks

section Keeps

variable (coherent : first.Coherent)
  (known : last.environment.declared.Known last.environment.declared)

include known

theorem Keeps.completes (keeps : Keeps asks first last s) :
    s.environment.Completes last.environment.declared :=
  ⟨keeps.bounded, keeps.inStep.built.agrees, keeps.inStep.built.known known⟩

variable (answers : ∀ p, first.Leads p → p.Leads last → p.Answers asks)

include coherent answers

theorem Keeps.turns (keeps : Keeps asks first last s) (turns : s.Turns u) : Keeps asks first last u := by
  refine ⟨keeps.inStep.turns turns, turns.bounded keeps.bounded, ?_⟩
  have completes := keeps.completes known
  refine keeps.grows.turns keeps.inStep.pass completes ?_ turns
  intro here _ _ _ _ head tail accepted grown takes notClosing modifiers read
  by_cases block : s.environment.frame.isBlock = true
  · refine ⟨?_, ?_⟩
    · intro _ isModule
      rw [isBlock_of_isModule isModule] at block
      cases block
    · intro _ placement place placed outside
      unfold Environment.placement at placed
      cases frame : s.environment.frame with
      | block =>
          rw [frame] at placed
          cases placed
          exact absurd rfl outside
      | _ => rw [frame] at block; cases block
  · obtain ⟨p, leads, meets⟩ := keeps.inStep.outside (Bool.eq_false_iff.mpr block)
    exact meets.recalls (coherent.leads leads).1 completes grown.stands takes notClosing modifiers read
      (answers p leads meets.scouts.toward)

theorem Keeps.reaches (keeps : Keeps asks first last s) (reaches : s.Reaches u) :
    Keeps asks first last u := by
  induction reaches with
  | refl => exact keeps
  | tail _ turns ih => exact ih.turns coherent known answers turns

end Keeps

theorem Grows.root (grows : s.Grows t asks) (pass : s.declaring = false) :
    Throughout (t.Sound asks) {} s.root := by
  unfold AnalysisState.root
  rw [if_neg (by simp [pass])]
  cases grows with
  | shown grown => exact grown.closeAll .nil nofun
  | @hidden _ lower _ concealed =>
      obtain ⟨split, hidden, grown⟩ := concealed
      obtain ⟨shown, base, rfl⟩ := List.eq_nil_or_concat' lower |>.resolve_left grown.ne_nil
      rw [← List.append_assoc] at split
      obtain ⟨opened, same⟩ := List.append_inj' split rfl
      cases same
      have closed := grown.closeAll (show ThroughoutAll (t.Sound asks) _ [] from .nil) nofun
      rw [AnalysisState.closeAll, opened, List.foldl_append, hidden.closeAll]
      exact closed

end AnalysisState

namespace Analysis

variable {host : Host} {maxErrors : Nat} {tokens : List Token}

theorem keeps_start
    (clean : (runPass ⟨.declarations, host⟩ .empty { maxErrors } tokens).Clean) :
    AnalysisState.Keeps asks (declarationsStart host maxErrors tokens)
      (runPass ⟨.declarations, host⟩ .empty { maxErrors } tokens)
      (bodiesStart host maxErrors tokens) := by
  have arena := (known_of_firstPass clean).1
  refine ⟨inStep_start clean, ⟨arena, ?_⟩, ?_⟩
  · intro sketch member id same
    rw [List.mem_singleton.mp (show sketch ∈ [_] from member)] at same
    cases same
    exact arena.root
  · have grows : ({ frame := .parent ModuleTree.root, node := emptyRoot } : Scope).Grows
        (runPass ⟨.declarations, host⟩ .empty { maxErrors } tokens).environment.declared asks {}
        (({} : Sight).afterAll []) := by
      refine Scope.grows_new rfl rfl rfl ?_ (by simp) (by simp [Scope.sketch, Frame.title]) ?_ .nil
      · simp
      · simp
    exact .of_idle rfl ⟨{}, .base rfl grows (.base rfl)⟩

-- Whatever the second pass reports, the names in its tree stand for what there is, and what it
-- assigns may be assigned.
theorem sound_secondPass
    (answers : ∀ p, (declarationsStart host maxErrors tokens).Leads p →
      p.Leads (runPass ⟨.declarations, host⟩ .empty { maxErrors } tokens) → p.Answers asks)
    (clean : (runPass ⟨.declarations, host⟩ .empty { maxErrors } tokens).Clean) :
    let last := runPass ⟨.bodies, host⟩
      (runPass ⟨.declarations, host⟩ .empty { maxErrors } tokens).environment.modules
      (runPass ⟨.declarations, host⟩ .empty { maxErrors } tokens).log tokens
    let modules := last.environment.modules
    modules.Known modules ∧ Throughout (modules.Sound asks) {} last.root ∧
      (NoEmptyName tokens → modules.Named) := by
  intro last modules
  obtain ⟨leads, _, closed, _⟩ := runPass_leads clean
  have coherent := coherent_start host maxErrors tokens
  have declared := declared_of_closed (coherent.leads leads).1.outer.outside closed
  have known := (known_of_firstPass clean).2
  have keeps : AnalysisState.Keeps asks _ _ _ := keeps_start clean
  rw [← declared] at known
  have keeps := keeps.reaches coherent known answers (runPass_reaches rfl _ _ _)
  have agrees := keeps.inStep.built.agrees
  refine ⟨?_, ?_, ?_⟩
  · exact (keeps.inStep.built.known known).offers agrees.offers agrees.offered.size
  · exact (keeps.grows.root keeps.inStep.pass).mono fun _ _ => agrees.sound
  · intro spelled
    have named := named_of_firstPass spelled clean
    rw [← declared] at named
    exact agrees.offered.named named

theorem finds_secondPass
    (clean : (runPass ⟨.declarations, host⟩ .empty { maxErrors } tokens).Clean) :
    let last := runPass ⟨.bodies, host⟩
      (runPass ⟨.declarations, host⟩ .empty { maxErrors } tokens).environment.modules
      (runPass ⟨.declarations, host⟩ .empty { maxErrors } tokens).log tokens
    let modules := last.environment.modules
    modules.Known modules ∧ Throughout modules.Finds {} last.root ∧
      (NoEmptyName tokens → modules.Named) := by
  obtain ⟨known, throughout, named⟩ :=
    sound_secondPass (fun p _ _ => p.answers_unasked) clean
  exact ⟨known, throughout.mono fun _ _ sound => sound.finds, named⟩

theorem ofTokens_eq (clean : (runPass ⟨.declarations, host⟩ .empty { maxErrors } tokens).Clean) :
    let last := runPass ⟨.bodies, host⟩
      (runPass ⟨.declarations, host⟩ .empty { maxErrors } tokens).environment.modules
      (runPass ⟨.declarations, host⟩ .empty { maxErrors } tokens).log tokens
    ofTokens host maxErrors tokens = ⟨last.root, last.environment.modules, last.log⟩ := by
  unfold ofTokens
  exact if_neg (by simp [show _ = false from clean])

/-- In an accepted program every name and every type stands for what is in sight. -/
theorem names_denote (host : Host) (maxErrors : Nat) (tokens : List Token)
    (ok : (ofTokens host maxErrors tokens).isOk = true) :
    let a := ofTokens host maxErrors tokens
    Throughout a.modules.Finds {} a.root ∧ a.modules.Known a.modules ∧
      (NoEmptyName tokens → a.modules.Named) := by
  obtain ⟨first, _⟩ := isOk_iff.mp ok
  obtain ⟨known, throughout, named⟩ := finds_secondPass first
  rw [ofTokens_eq first]
  exact ⟨throughout, known, named⟩

-- The program `module m { enum E { A; } fn f (int a) { mut int b = a; b = 2; E e = E::A; } }`.
def namingProgram : List Token :=
  [Token.alone (.keyword .module) "module", .alone .identifier "m", .alone .leftBrace "\x7b",
    .alone (.keyword .enum) "enum", .alone .identifier "E", .alone .leftBrace "\x7b",
    .alone .identifier "A", .alone .semicolon ";", .alone .rightBrace "\x7d",
    .alone (.keyword .fn) "fn", .alone .identifier "f", .alone .leftParen "(",
    .alone (.datatype .int) "int", .alone .identifier "a", .alone .rightParen ")",
    .alone .leftBrace "\x7b", .alone (.modifier .mut) "mut", .alone (.datatype .int) "int",
    .alone .identifier "b", .alone .assign "=", .alone .identifier "a", .alone .semicolon ";",
    .alone .identifier "b", .alone .assign "=", .alone (.literal .int) "2", .alone .semicolon ";",
    .alone .identifier "E", .alone .identifier "e", .alone .assign "=", .alone .identifier "E",
    .alone .doubleColon "::", .alone .identifier "A", .alone .semicolon ";",
    .alone .rightBrace "\x7d", .alone .rightBrace "\x7d"]

theorem namingProgram_denotes :
    (ofTokens {} 100 namingProgram).isOk = true ∧
      ((ofTokens {} 100 namingProgram).root.findAll .variableReference).length = 1 ∧
      ((ofTokens {} 100 namingProgram).root.findAll .varSetValue).length = 1 ∧
      Throughout (ofTokens {} 100 namingProgram).modules.Finds {}
        (ofTokens {} 100 namingProgram).root := by
  have accepted : (ofTokens {} 100 namingProgram).isOk = true := by decide +kernel
  exact ⟨accepted, by decide +kernel, by decide +kernel, (names_denote {} 100 _ accepted).1⟩

end Analysis

namespace Analysis

/-- `x++;` is `x += 1;` and `x--;` is `x -= 1;`, in whatever state they are read: both are accepted
with the same node, but for its operator, and leave the same environment, or both are rejected. The
one difference is that a variable of type `char` may be stepped in the shorter way only. So in an
accepted program each assignment stores what its variable may hold, nullability aside, but for the
step of a `char`. -/
theorem steps_compare (host : Host) (maxErrors : Nat) (tokens : List Token) :
    (∀ (s : AnalysisState) (p : Step),
      let t := s.ready p.target
      let short := t.environment.statement t.setting p.target p.short
      let long := t.environment.statement t.setting p.target p.long
      s.statement p.target p.short = t.take short ∧ s.statement p.target p.long = t.take long ∧
        t.environment.Compares p short long) ∧
      ((ofTokens host maxErrors tokens).isOk = true →
        Throughout (fun s n => n.kind = .varSetValue →
            (ofTokens host maxErrors tokens).modules.Stores s n) {}
          (ofTokens host maxErrors tokens).root) := by
  refine ⟨fun s p => s.statement_step p, fun ok => ?_⟩
  obtain ⟨first, _⟩ := isOk_iff.mp ok
  obtain ⟨_, throughout, _⟩ :=
    sound_secondPass (fun p _ _ => p.answers_unasked) first
  rw [ofTokens_eq first]
  exact throughout.mono fun _ _ sound => sound.stores

theorem steps_compare_accepted :
    let text := "module m \x7b fn f \x7b mut long a = 1; a += 2; a++; mut char c = 'a'; c++; \x7d \x7d"
    let tokens := (programTokens text false).toOption.getD []
    (ofTokens {} 0 tokens).isOk = true ∧
      ((ofTokens {} 0 tokens).root.findAll .varSetValue).length = 3 ∧
      Throughout (fun s n => n.kind = .varSetValue → (ofTokens {} 0 tokens).modules.Stores s n) {}
        (ofTokens {} 0 tokens).root := by
  intro text tokens
  have accepted : (ofTokens {} 0 tokens).isOk = true := by decide +kernel
  exact ⟨accepted, by decide +kernel, (steps_compare {} 0 tokens).2 accepted⟩

-- The longer spelling of the same step is rejected, since an `int` is no `char`.
theorem characterStep_accepted :
    (ofSource "module m \x7b fn f \x7b mut char c = 'a'; c++; \x7d \x7d"
        { withLibrary := false } {}).isOk = true ∧
      (ofSource "module m \x7b fn f \x7b mut char c = 'a'; c += 1; \x7d \x7d"
        { withLibrary := false } {}).isOk = false := by
  decide +kernel

end Analysis

end MiLanguage
