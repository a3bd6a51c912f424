import MiLanguage.Proofs.Control.Run

set_option autoImplicit false

namespace MiLanguage

namespace Node

/-- A statement or a declaration. A block is nowhere but in another one. -/
inductive Seated : Node → Prop
  | plain {n : Node} : n.kind.isHost = false → (∀ c ∈ n.children, c.Inert) → Seated n
  | host {n : Node} : n.kind.isHost = true → (∀ c ∈ n.children, c.Seated) → Seated n

/-- A block to which statements can be added. -/
structure Open (n : Node) : Prop where
  host : n.kind.isHost = true
  children : ∀ c ∈ n.children, c.Seated

variable {n c : Node} {kind : NodeKind} {line : Nat} {children : List Node}

theorem Inert.seated (inert : n.Inert) : n.Seated :=
  .plain (NodeKind.isInert_iff.mp inert.top).1 fun _ member => inert.child member

theorem Open.seated (opened : n.Open) : n.Seated := .host opened.host opened.children

theorem Open.push (opened : n.Open) (seated : c.Seated) : (n.push c).Open := by
  refine ⟨opened.host, ?_⟩
  intro d member
  rcases List.mem_append.mp member with member | member
  · exact opened.children d member
  · rw [List.mem_singleton.mp member]
    exact seated

theorem open_new (host : kind.isHost = true) (inert : ∀ c ∈ children, c.Inert) :
    (new kind line children).Open :=
  ⟨host, fun c member => (inert c member).seated⟩

theorem Seated.plain_below (seated : n.Seated) (plain : n.kind.isHost = false) :
    ∀ m ∈ n.preorder, m.kind.isHost = false := by
  cases seated with
  | host host => simp [plain] at host
  | plain _ inert =>
      intro m member
      rcases mem_preorder_iff.mp member with rfl | ⟨c, below, member⟩
      · exact plain
      · exact (NodeKind.isInert_iff.mp (inert c below m member)).1

end Node

namespace Environment

variable {env after : Environment} {setting : Setting}

def Growing (env : Environment) : Prop := ∀ scope ∈ env.scopes.all, scope.node.Open

theorem Growing.updated (growing : env.Growing) (updated : env.Updated after) : after.Growing := by
  intro scope member
  obtain ⟨i, bound, rfl⟩ := List.getElem_of_mem member
  have each := updated.scopes.all
  have within : i < env.scopes.all.length := by
    rw [each.length_eq]
    exact bound
  rw [show after.scopes.all[i].node = env.scopes.all[i].node from (each.get within bound).node]
  exact growing _ (List.getElem_mem within)

theorem Growing.modifyCurrent (growing : env.Growing) {f : Scope → Scope}
    (opened : ∀ scope, scope.node.Open → (f scope).node.Open) :
    ({ env with scopes := env.scopes.modifyCurrent f } : Environment).Growing := by
  obtain ⟨outer, all, changed⟩ := env.scopes.all_eq_current
  unfold Growing at growing ⊢
  rw [all] at growing
  rw [changed]
  obtain ⟨current, around⟩ := List.forall_mem_cons.mp growing
  exact List.forall_mem_cons.mpr ⟨opened _ current, around⟩

theorem Growing.modifyBlock (growing : env.Growing) (f : Block → Block) :
    (env.modifyBlock f).Growing :=
  growing.modifyCurrent fun _ opened => opened

theorem Growing.append (growing : env.Growing) (setting : Setting) {c : Node} (seated : c.Seated) :
    (env.append setting c).Growing := by
  unfold Environment.append
  split
  · exact growing
  · exact growing.modifyCurrent fun _ opened => opened.push seated

theorem Growing.push (growing : env.Growing) (frame : Frame) {n : Node} (opened : n.Open) :
    (env.push frame n).Growing :=
  List.forall_mem_cons.mpr ⟨opened, growing⟩

end Environment

section Accepted

variable {env : Environment} {setting : Setting} {mods : LeadingModifiers} {first : Token}
  {rest : List Token} {accepted : Accepted}

-- Each statement of the second pass keeps the invariant.
theorem Accepts.growing (accepts : Accepts env setting mods first rest accepted)
    (bodies : setting.declaring = false) (wellTyped : env.WellTyped) (growing : env.Growing) :
    (accepted.settled setting).Growing := by
  have nonDeclaring : ¬setting.declaring = true := by simp [bodies]
  cases accepts with
  | moduleDeclared _ _ _ declaring => exact absurd declaring nonDeclaring
  | moduleEntered => exact growing.push _ (Node.open_new rfl (by simpa using name_inert))
  | classDeclared _ _ _ declaring => exact absurd declaring nonDeclaring
  | classEntered =>
      exact growing.push _ (Node.open_new rfl (by simpa using ⟨name_inert, mods.node_inert⟩))
  | classMissing => exact growing
  | enumDeclared _ _ _ declaring => exact absurd declaring nonDeclaring
  | enumEntered =>
      exact growing.push _ (Node.open_new rfl (by simpa using ⟨name_inert, mods.node_inert⟩))
  | enumMissing => exact growing
  | membersDeclared _ _ _ declaring => exact absurd declaring nonDeclaring
  | membersKept => exact growing.append setting (membersNode_inert _).seated
  | functionDeclared _ _ _ declaring => exact absurd declaring nonDeclaring
  | @functionOpened h _ _ _ _ read =>
      have opened : (Node.new .functionDefinition first.streamLine
          (h.parts mods first.streamLine)).Open :=
        Node.open_new rfl (h.parts_inert (Header.read_eq_ok read).2.1)
      exact (growing.push _ opened).updated (env.updated_openBody _ _ _ _ _)
  | nativeDeclared _ _ _ declaring => exact absurd declaring nonDeclaring
  | @nativeKept h host _ _ _ _ read =>
      refine growing.append setting (.plain rfl ?_)
      intro c member
      rcases List.mem_append.mp member with member | member
      · exact h.parts_inert (Header.read_eq_ok read).2.1 c member
      · rw [List.mem_singleton.mp member]
        exact Node.inert_leaf rfl
  | constructorDeclared _ _ _ declaring => exact absurd declaring nonDeclaring
  | @constructorOpened _ _ h _ _ _ _ _ _ _ list =>
      have opened : (Node.new .createConstructor first.streamLine
          (constructorParts mods h first.streamLine)).Open :=
        Node.open_new rfl (constructorParts_inert (Parameter.readList_shown list).1)
      exact (growing.push _ opened).updated (env.updated_openBody _ _ _ _ _)
  | conditional starts _ _ decides =>
      rcases conditional_eq_some starts with ⟨_, _, rfl⟩ | ⟨_, _, rfl⟩ <;>
        exact growing.push _ (Node.open_new rfl (by simpa using decides.inert))
  | doLoop => exact growing.push _ (Node.open_new rfl (by simp))
  | @forLoop defined stepped start condition step _ _ _ block defines decides advances =>
      have head : (env.push (.block .loopHead {}) (.new .forFakeScope first.streamLine)).Growing :=
        growing.push _ (Node.open_new rfl (by simp))
      have instruct : (Node.new .forInstruct first.streamLine [step]).Inert :=
        Node.inert_new rfl (by simpa using advances.inert)
      have filled := (((head.updated (defines.updated.trans advances.updated)).append setting
        defines.inert.seated).append setting decides.inert.seated).append setting instruct.seated
      exact filled.push _ (Node.open_new rfl (by simp))
  | @returned value _ _ _ means =>
      refine (growing.modifyBlock _).append setting (.plain rfl ?_)
      intro c member
      obtain ⟨e, same, rfl⟩ := Option.map_eq_some_iff.mp (Option.mem_toList.mp member)
      exact (means e same).correct.inert
  | exited starts =>
      rcases exitKind_eq_some starts with ⟨_, rfl⟩ | ⟨_, rfl⟩ <;>
        exact (growing.modifyBlock _).append setting (.plain rfl nofun)
  | used =>
      exact (growing.updated (env.updated_use _)).append setting (Node.inert_leaf rfl).seated
  | libraryEnded =>
      have ended : Environment.Growing { env with inLibrary := false } := growing
      exact ended.append setting (Node.inert_leaf rfl).seated
  | variableDefined _ _ _ isLocal defines =>
      rcases isLocal with declaring | rfl
      · exact absurd declaring nonDeclaring
      · exact (growing.updated defines.updated).append setting defines.inert.seated
  | variableKept =>
      unfold Accepted.settled
      dsimp only
      split
      next node known =>
        obtain ⟨name, v, rfl, typed⟩ := wellTyped.knownVariable known
        exact growing.append setting (variableNode_inert typed).seated
      next => exact growing
  | called _ _ _ calls => exact growing.append setting calls.inert.seated
  | assigned _ _ _ assigns =>
      exact (growing.updated assigns.updated).append setting assigns.inert.seated

end Accepted

theorem Environment.Closes.growing {setting : Setting} {env after : Environment} {scope : Scope}
    {waiting : Option Node} (closes : Environment.Closes setting env scope after waiting)
    (closed : scope.node.Open) (growing : env.Growing) :
    after.Growing ∧ ∀ block, waiting = some block → block.Open := by
  -- The modules take no part in this.
  have leaves : ∀ modules,
      (({ env with modules } : Environment).append setting scope.node).Growing := by
    intro modules
    have same : ({ env with modules } : Environment).Growing := growing
    exact same.append setting closed.seated
  cases closes with
  | discarded => exact ⟨growing, nofun⟩
  | «class» | enum | function => exact ⟨leaves _, nofun⟩
  | module | bare | block => exact ⟨growing.append setting closed.seated, nofun⟩
  | doLoop =>
      refine ⟨growing, ?_⟩
      rintro _ ⟨⟩
      exact closed
  | @forLoop _ head scopes _ _ popped =>
      have whole := growing.append setting closed.seated
      unfold Environment.Growing at whole
      rw [ScopeStack.all_of_pop? popped] at whole
      obtain ⟨opened, outer⟩ := List.forall_mem_cons.mp whole
      have left : Environment.Growing { env.append setting scope.node with scopes } := outer
      exact ⟨left.append setting opened.seated, nofun⟩

namespace AnalysisState

variable {s t : AnalysisState}

structure Growing (s : AnalysisState) : Prop where
  environment : s.environment.Growing
  waiting : ∀ block, s.pendingDo = some block → block.Open

theorem Moves.growing (moves : s.Moves t) (bodies : s.declaring = false) (wellTyped : s.WellTyped)
    (growing : s.Growing) : t.Growing := by
  have idle : ∀ {pendingDo : Option Node}, pendingDo = none →
      ∀ block, pendingDo = some block → block.Open := by
    intro _ free block waiting
    rw [free] at waiting
    cases waiting
  have reads : ∀ {warned : Environment} {mods : LeadingModifiers} {head : Token}
      {tail : List Token} {accepted : Accepted}, s.environment.Warned warned →
      Accepts warned s.setting mods head tail accepted → (accepted.settled s.setting).Growing :=
    fun warns accepts => accepts.growing bodies (warns.updated.wellTyped wellTyped.environment)
      (growing.environment.updated warns.updated)
  cases moves with
  | completes _ waiting _ _ _ decides =>
      have whole := (growing.waiting _ waiting).push decides.inert.seated
      exact ⟨growing.environment.append s.setting whole.seated, idle rfl⟩
  | closes _ _ _ _ popped closes =>
      have stack := growing.environment
      unfold Environment.Growing at stack
      rw [ScopeStack.all_of_pop? popped] at stack
      obtain ⟨closed, outer⟩ := List.forall_mem_cons.mp stack
      obtain ⟨after, waiting⟩ := closes.growing closed outer
      exact ⟨after, waiting⟩
  | accepts _ free _ _ warns _ accepts => exact ⟨reads warns accepts, idle free⟩
  | skips _ free _ _ warns _ accepts => exact ⟨reads warns accepts, idle free⟩

theorem Leads.growing (leads : s.Leads t) (bodies : s.declaring = false) (wellTyped : s.WellTyped)
    (growing : s.Growing) : t.Growing := by
  induction leads with
  | refl => exact growing
  | tail leads step ih =>
      exact step.moves.growing ((Leads.declaring leads).trans bodies)
        (Leads.wellTyped leads wellTyped) ih

end AnalysisState

namespace Analysis

theorem startPass_growing (setting : Setting) (modules : ModuleTree) (log : DiagnosticLog)
    (tokens : List Token) : (startPass setting modules log tokens).Growing := by
  refine ⟨?_, by simp [startPass]⟩
  intro scope member
  rw [List.mem_singleton.mp (show scope ∈ [_] from member)]
  exact Node.open_new rfl (by simp)

theorem runPass_seated {host : Host} {modules : ModuleTree} {log : DiagnosticLog}
    {tokens : List Token} (typed : modules.WellTyped)
    (clean : (runPass ⟨.bodies, host⟩ modules log tokens).Clean) :
    (runPass ⟨.bodies, host⟩ modules log tokens).root.Open := by
  obtain ⟨leads, _, closed, _⟩ := runPass_leads clean
  have growing := leads.growing rfl (startPass_wellTyped _ typed _ _) (startPass_growing _ _ _ _)
  have bodies : (runPass ⟨.bodies, host⟩ modules log tokens).declaring = false := leads.declaring
  generalize runPass ⟨.bodies, host⟩ modules log tokens = last at closed bodies growing
  have root : last.root = last.environment.scopes.base.node := by
    simp [AnalysisState.root, bodies, closed, AnalysisState.closeAll]
  rw [root]
  exact growing.environment last.environment.scopes.base (by simp [ScopeStack.all])

end Analysis

end MiLanguage
