import MiLanguage.Proofs.Naming.Declaring
import MiLanguage.Proofs.Passes.Agreement
import MiLanguage.Proofs.Tokens

set_option autoImplicit false

namespace MiLanguage

namespace Environment

variable {env : Environment} {setting : Setting}

theorem Coherent.all (coherent : env.Coherent) : env.declared.Known env.declared := by
  cases frame : env.frame with
  | «class» id c =>
      have same : env.declared = env.modules.insertClass id c := by
        unfold declared
        rw [frame]
      have known : env.declared.Known (env.modules.insertClass id c) :=
        coherent.known.modifyMembers fun members => members.insertClass (coherent.class id c frame)
      rw [← same] at known
      exact known
  | enum id e =>
      have same : env.declared = env.modules.insertEnum id e := by
        unfold declared
        rw [frame]
      have known : env.declared.Known (env.modules.insertEnum id e) :=
        coherent.known.modifyMembers fun members => members.insertEnum (coherent.enum id e frame)
      rw [← same] at known
      exact known
  | _ =>
      have same : env.declared = env.modules := by
        unfold declared
        rw [frame]
      have known := coherent.known
      rw [same] at known ⊢
      exact known

theorem Coherent.arena_declared (coherent : env.Coherent) : env.declared.Arena := by
  unfold declared
  split
  next => exact coherent.arena.modifyMembers _ _
  next => exact coherent.arena.modifyMembers _ _
  next => exact coherent.arena

theorem Coherent.closes {after : Environment} {scope : Scope} {scopes : ScopeStack}
    {waiting : Option Node} (coherent : env.Coherent) (outer : env.Outer)
    (pass : setting.declaring = true) (popped : env.scopes.pop? = some (scope, scopes))
    (closes : Closes setting { env with scopes } scope after waiting) : env.Adds after := by
  obtain ⟨_, titles, declared, _⟩ := closes.outside outer.outside popped
  have outside := outer.outside
  rw [titles] at outside
  obtain ⟨inner, next, head, module⟩ := outside.pop (by simp [Environment.titles, ScopeStack.all_ne_nil])
  have top := (title_frame inner).2.2
  rw [head] at top
  cases top
  have isModule := isModule_of_title module
  have same : after.modules = env.declared := by
    rw [← declared_of_isModule isModule]
    exact declared pass
  refine ⟨coherent_of_isModule isModule ?_ ?_, ?_⟩
  · rw [same]
    exact coherent.arena_declared
  · rw [same]
    exact coherent.all
  · rw [declared_of_isModule isModule, same]
    exact env.declared.offers_refl

theorem name_of_module {first head : Token} {rest tail : List Token} {mods : LeadingModifiers}
    {accepted : Accepted} {name : Token}
    (read : env.statement setting first rest = ⟨accepted.environment, .ok accepted.node⟩)
    (modifiers : LeadingModifiers.read (first :: rest) = .ok (mods, head :: tail))
    (kind : head.kind = .keyword .module) (titled : Titled tail name) :
    name.kind = .identifier ∧ name ∈ first :: rest := by
  obtain ⟨brace, rfl, _⟩ := titled
  have opened : env.openModule setting mods head [name, brace] = .ok accepted := by
    have read := statement_read read modifiers (.inl (by simp [kind]))
    simpa only [Environment.read, kind] using read
  simp only [openModule, Checked.bind_eq_ok] at opened
  obtain ⟨_, _, opened⟩ := opened
  have inside : name ∈ first :: rest := by
    rw [(LeadingModifiers.read_append modifiers).1]
    simp
  refine ⟨?_, inside⟩
  cases frame : env.frame with
  | parent | module =>
      simp only [frame, Checked.bind_eq_ok] at opened
      obtain ⟨found, named, _⟩ := opened
      obtain ⟨same, identifier, _⟩ := declaredName_eq_ok named
      cases same
      exact identifier
  | _ => simp [frame] at opened

end Environment

section Named

variable {env : Environment} {setting : Setting}

theorem ModuleTree.Updated.named {old new : ModuleTree} (updated : old.Updated new)
    (named : old.Named) : new.Named :=
  updated.agrees.offered.named named

theorem Environment.named_addFunction? {f : FunctionDefinition} {after : Environment}
    (named : env.modules.Named) (added : env.addFunction? f = some after) : after.modules.Named := by
  unfold Environment.addFunction? at added
  split at added
  next => cases added
  next =>
    simp only [Option.bind_eq_bind, Option.bind_eq_some_iff] at added
    obtain ⟨_, _, _, _, same⟩ := added
    cases same
    exact named
  next =>
    obtain ⟨modules, grown, rfl⟩ := Option.map_eq_some_iff.mp added
    obtain ⟨_, _, rfl⟩ := Option.map_eq_some_iff.mp grown
    exact named.modifyMembers _ _

theorem Environment.named_declareVariable? {placement : Placement} {v : Variable}
    {after : Environment} (named : env.modules.Named)
    (added : env.declareVariable? placement v = some after) : after.modules.Named := by
  cases placement with
  | inBlock =>
      obtain ⟨_, _, rfl⟩ := Option.map_eq_some_iff.mp added
      exact named
  | global =>
      unfold Environment.declareVariable? at added
      dsimp only at added
      split at added
      next => cases added
      next =>
        cases added
        exact named.modifyMembers _ _
  | field =>
      unfold Environment.declareVariable? at added
      dsimp only at added
      split at added
      next => cases added
      next =>
        obtain ⟨_, _, rfl⟩ := Option.map_eq_some_iff.mp added
        exact named

-- Only modules that are opened for the first time get names.
theorem Accepts.named {mods : LeadingModifiers} {head : Token} {tail : List Token}
    {accepted : Accepted} (accepts : Accepts env setting mods head tail accepted)
    (named : env.modules.Named)
    (nonempty : ∀ name, Titled tail name → head.kind = .keyword .module → name.lexeme ≠ "") :
    accepted.environment.modules.Named := by
  cases accepts with
  | moduleDeclared kind titled _ _ added =>
      have named : (env.modules.addChild env.currentModule _).2.Named :=
        named.addChild (nonempty _ titled kind)
      rw [added] at named
      exact named
  | classDeclared | enumDeclared => exact ModuleTree.Named.modifyMembers named _ _
  | functionDeclared _ _ _ _ _ _ added => exact Environment.named_addFunction? named added
  | nativeDeclared _ _ _ _ _ added => exact Environment.named_addFunction? named added
  | variableDefined _ _ _ _ defines =>
      obtain ⟨_, _, _, added⟩ := defines
      exact Environment.named_declareVariable? named added
  | functionOpened | constructorOpened =>
      exact (Environment.updated_openBody env _ _ _ _ _).modules.named named
  | forLoop _ _ _ defines _ advances =>
      simp only [List.foldl_cons, List.foldl_nil, Environment.push, modules_append]
      exact advances.updated.modules.named (defines.updated.modules.named named)
  | assigned _ _ _ assigns => exact assigns.updated.modules.named named
  | _ => exact named

theorem Environment.Closes.named {scope : Scope} {after : Environment} {waiting : Option Node}
    (closes : Environment.Closes setting env scope after waiting) (named : env.modules.Named) :
    after.modules.Named := by
  cases closes with
  | «class» =>
      rw [modules_append]
      split
      · exact named.modifyMembers _ _
      · exact named
  | enum =>
      rw [modules_append]
      split
      · exact named.modifyMembers _ _
      · exact named
  | @function b =>
      rw [modules_append]
      unfold Block.attached
      split
      next owner _ => exact (ModuleTree.agrees_attachBody _ _ owner).offered.named named
      next => exact named
  | module | block | bare =>
      rw [modules_append]
      exact named
  | forLoop =>
      rw [modules_append]
      show (env.append setting scope.node).modules.Named
      rw [modules_append]
      exact named
  | discarded | doLoop => exact named

end Named

namespace AnalysisState

variable {s t : AnalysisState}

theorem Takes.subset {first : Token} {rest later : List Token} (takes : s.Takes first rest later) :
    first :: rest ⊆ s.remaining ∧ later ⊆ s.remaining := by
  rw [takes.split.1]
  constructor
  · intro t member
    rcases List.mem_cons.mp member with rfl | member <;> simp [*]
  · intro t member
    simp [member]

theorem Moves.named (moves : s.Moves t) (spelled : NoEmptyName s.remaining)
    (named : s.environment.modules.Named) :
    t.environment.modules.Named ∧ NoEmptyName t.remaining := by
  have reads : ∀ {first head : Token} {rest tail later : List Token} {mods : LeadingModifiers}
      {warned : Environment} {accepted : Accepted}, s.Takes first rest later →
      s.environment.Warned warned →
      LeadingModifiers.read (first :: rest) = .ok (mods, head :: tail) →
      Accepts warned s.setting mods head tail accepted →
      warned.statement s.setting first rest = ⟨accepted.environment, .ok accepted.node⟩ →
      (accepted.settled s.setting).modules.Named ∧ NoEmptyName later := by
    intro first head rest tail later mods warned accepted takes warns modifiers accepts read
    refine ⟨?_, spelled.sublist takes.subset.2⟩
    have named := accepts.named (warns.updated.modules.named named) (by
      intro name titled kind
      obtain ⟨identifier, inside⟩ := Environment.name_of_module read modifiers kind titled
      exact spelled name (takes.subset.1 inside) identifier)
    unfold Accepted.settled
    split
    next =>
      rw [modules_append]
      exact named
    next => exact named
  cases moves with
  | completes _ _ takes =>
      refine ⟨?_, spelled.sublist takes.subset.2⟩
      rw [modules_append]
      exact named
  | closes _ _ remaining _ _ closes =>
      refine ⟨closes.named named, spelled.sublist ?_⟩
      rw [remaining]
      exact List.subset_cons_self _ _
  | accepts _ _ takes _ warns modifiers accepts _ read => exact reads takes warns modifiers accepts read
  | skips _ _ takes _ warns modifiers accepts _ _ skip read =>
      obtain ⟨named, spelled⟩ := reads takes warns modifiers accepts read
      exact ⟨named, spelled.sublist (Chunk.skipBlock_suffix skip).subset⟩

theorem Leads.named (leads : s.Leads t) (spelled : NoEmptyName s.remaining)
    (named : s.environment.modules.Named) : t.environment.modules.Named := by
  have both : t.environment.modules.Named ∧ NoEmptyName t.remaining := by
    induction leads with
    | refl => exact ⟨named, spelled⟩
    | tail _ step ih => exact step.moves.named ih.2 ih.1
  exact both.1

/-- Between the statements of the first pass. -/
structure Coherent (s : AnalysisState) : Prop where
  pass : s.declaring = true
  idle : s.pendingDo = none
  outer : s.environment.Outer
  environment : s.environment.Coherent

theorem Coherent.moves (coherent : s.Coherent) (moves : s.Moves t) :
    t.Coherent ∧ s.environment.declared.Offers t.environment.declared := by
  obtain ⟨pass, idle, outer, environment⟩ := coherent
  obtain ⟨turn, idle'⟩ := moves.declaringTurn pass idle outer
  obtain ⟨outer', _⟩ := turn.declares outer
  have reads : ∀ {head : Token} {tail : List Token} {mods : LeadingModifiers}
      {warned : Environment} {accepted : Accepted}, s.environment.Warned warned →
      Accepts warned s.setting mods head tail accepted →
      s.environment.Adds (accepted.settled s.setting) := by
    intro head tail mods warned accepted warns accepts
    cases warns.eq_of_outside outer.outside
    rw [Environment.settled_declaring pass]
    exact accepts.adds pass outer environment
  suffices adds : s.environment.Adds t.environment from
    ⟨⟨moves.declaring.trans pass, idle', outer', adds.coherent⟩, adds.offers⟩
  cases moves with
  | completes _ waiting =>
      rw [idle] at waiting
      cases waiting
  | closes _ _ _ _ popped closes => exact environment.closes outer pass popped closes
  | accepts _ _ _ _ warns _ accepts => exact reads warns accepts
  | skips _ _ _ _ warns _ accepts => exact reads warns accepts

theorem Coherent.leads (coherent : s.Coherent) (leads : s.Leads t) :
    t.Coherent ∧ s.environment.declared.Offers t.environment.declared := by
  induction leads with
  | refl => exact ⟨coherent, ModuleTree.offers_refl _⟩
  | tail _ step ih =>
      obtain ⟨coherent, offers⟩ := ih.1.moves step.moves
      exact ⟨coherent, ih.2.trans offers⟩

end AnalysisState

namespace Analysis

variable {host : Host} {maxErrors : Nat} {tokens : List Token}

theorem coherent_start (host : Host) (maxErrors : Nat) (tokens : List Token) :
    (startPass ⟨.declarations, host⟩ .empty { maxErrors } tokens).Coherent := by
  refine ⟨rfl, rfl, outer_startPass _ _ _, ?_⟩
  exact Environment.coherent_of_isModule rfl ModuleTree.arena_empty (ModuleTree.known_empty _)

theorem known_of_firstPass
    (clean : (runPass ⟨.declarations, host⟩ .empty { maxErrors } tokens).Clean) :
    let modules := (runPass ⟨.declarations, host⟩ .empty { maxErrors } tokens).environment.modules
    modules.Arena ∧ modules.Known modules := by
  obtain ⟨leads, _, closed, _⟩ := runPass_leads clean
  have coherent := ((coherent_start host maxErrors tokens).leads leads).1
  have same := declared_of_closed coherent.outer.outside closed
  have known := coherent.environment.all
  rw [same] at known
  exact ⟨coherent.environment.arena, known⟩

theorem named_of_firstPass (spelled : NoEmptyName tokens)
    (clean : (runPass ⟨.declarations, host⟩ .empty { maxErrors } tokens).Clean) :
    (runPass ⟨.declarations, host⟩ .empty { maxErrors } tokens).environment.modules.Named :=
  (runPass_leads clean).1.named spelled ModuleTree.named_empty

end Analysis

end MiLanguage
