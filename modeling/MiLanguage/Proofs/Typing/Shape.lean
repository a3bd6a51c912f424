import MiLanguage.Proofs.Control.Run
import MiLanguage.Proofs.Naming.Environment
import MiLanguage.Proofs.Symbols.Run

set_option autoImplicit false

namespace MiLanguage

theorem ScopeStack.mem_of_upTo {p : Scope → Bool} {scopes : List Scope} {scope : Scope}
    (member : scope ∈ upTo p scopes) : scope ∈ scopes := by
  induction scopes with
  | nil => simp [upTo] at member
  | cons head outer ih =>
      unfold upTo at member
      split at member
      next => simp_all
      next =>
        split at member
        next => simp at member
        next found _ =>
          rcases List.mem_cons.mp member with rfl | member
          · simp
          · exact List.mem_cons_of_mem _ (ih member)

theorem ScopesWellFormed.frame {scopes : List Scope} (wellFormed : ScopesWellFormed scopes)
    {scope : Scope} (member : scope ∈ scopes) : ∃ home, scope.frame.WellFormed home := by
  induction scopes with
  | nil => cases member
  | cons head outer ih =>
      rcases List.mem_cons.mp member with rfl | member
      · exact ⟨_, wellFormed.1⟩
      · exact ih wellFormed.2 member

namespace Environment

variable {env : Environment} {place : Token}

section Storable

variable (wellFormed : env.WellFormed)

include wellFormed

theorem WellFormed.field {id : ModuleId} {c : ClassDeclaration} {name : String} {v : Variable}
    (around : env.scopes.class? = some (id, c)) (found : c.fields.find? name = some v) :
    v.type.Storable := by
  obtain ⟨scope, member, frame⟩ := List.exists_of_findSome?_eq_some around
  obtain ⟨home, declared⟩ := wellFormed.scopes.frame member
  cases same : scope.frame with
  | «class» =>
      rw [same] at frame declared
      cases frame
      exact (declared.fields name v found).stored
  | _ => rw [same] at frame; cases frame

theorem WellFormed.localVariable {name : String} {l : LocalVariable}
    (found : env.scopes.lookupLocal? name = some l) : l.declaration.type.Storable := by
  obtain ⟨scope, member, here⟩ := List.exists_of_findSome?_eq_some
    (show env.scopes.functionScopes.findSome? _ = some l from found)
  obtain ⟨home, declared⟩ := wellFormed.scopes.frame (ScopeStack.mem_of_upTo member)
  cases same : scope.frame with
  | block kind b =>
      rw [same] at here declared
      exact (declared name l here).stored
  | _ => rw [same] at here; cases here

theorem WellFormed.variable {v : ResolvedVariable} (found : env.resolveVariable place = .ok v) :
    v.type.Storable := by
  unfold resolveVariable at found
  dsimp only at found
  split at found
  next near =>
    cases found
    split at near
    next => cases near
    next =>
      simp only [Option.orElse_eq_orElse, Option.orElse_eq_or, Option.or_eq_some_iff] at near
      rcases near with near | ⟨_, near⟩
      · obtain ⟨l, there, rfl⟩ := Option.map_eq_some_iff.mp near
        exact wellFormed.localVariable there
      · simp only [fieldVariable?, Option.bind_eq_bind, Option.bind_eq_some_iff,
          Option.some.injEq] at near
        obtain ⟨⟨id, c⟩, around, field, there, rfl⟩ := near
        exact wellFormed.field around there
  next =>
    simp only [Checked.bind_eq_ok] at found
    obtain ⟨⟨id, v⟩, there, _, _, same⟩ := found
    cases same
    obtain ⟨here, _⟩ := lookup_eq_ok (lookupOrBlame_eq_ok there)
    exact ((wellFormed.modules.members id).globals _ v here).stored

theorem WellFormed.member {placement : Placement} {name : String} {v : Variable}
    (found : env.findMember? placement name = some v) : v.type.Storable := by
  unfold findMember? at found
  split at found
  next =>
    obtain ⟨⟨id, c⟩, around, there⟩ := Option.bind_eq_some_iff.mp found
    exact wellFormed.field around there
  next => exact ((wellFormed.modules.members _).globals name v found).stored

end Storable

end Environment

section Values

variable {a b : Datatype} {e : Typed}

theorem Datatype.Storable.of_assignable (storable : b.Storable) (taken : a.assignable b = true) :
    a.isVoid = false := by
  cases a with
  | null => rfl
  | of x m =>
      cases b with
      | null => cases taken
      | of y n =>
          obtain ⟨_, value⟩ := storable
          cases x with
          | named => rfl
          | primitive p =>
              cases p <;> first | rfl | (cases y <;>
                simp_all [assignable, promotable, rank, primitive?, Primitive.rank, isVoid])

theorem Datatype.Storable.of_kept (storable : b.Storable) (kept : a.KeptIn b) :
    a.isVoid = false := by
  rcases kept with null | taken
  · cases a with
    | null => rfl
    | of => cases null
  · have value := storable.of_assignable taken
    rwa [isVoid, primitive?_withNullable] at value

theorem Datatype.binaryResult_void {op : BinaryOperator} {type : Datatype}
    (result : binaryResult op a b = some type) (void : a.isVoid = true ∨ b.isVoid = true) :
    op.operatorClass = .equality ∧ a.sameBase b = true := by
  have valueless : ∀ t : Datatype, t.isVoid = true → t.rank = none ∧ t.isString = false ∧
      t.isJoinable = false ∧ t.isIntegral = false ∧ t.isBool = false ∧ t.isNumeric = false := by
    intro t same
    have void : t.primitive? = some .void := by simpa [isVoid] using same
    simp [rank, isString, isJoinable, isIntegral, isBool, isNumeric, void, Primitive.rank]
  unfold binaryResult heavier at result
  rcases void with void | void
  all_goals
    obtain ⟨rank, string, joinable, integral, bool, numeric⟩ := valueless _ void
    cases found : op.operatorClass <;> simp_all

theorem TokenKind.Suits.not_void {op : TokenKind} (suits : op.Suits b a) (storable : b.Storable) :
    a.isVoid = false := by
  cases suits with
  | plain _ kept => exact storable.of_kept kept
  | @applied binary _ applied result =>
      by_contra void
      have equality := (Datatype.binaryResult_void result (.inr (by simpa using void))).1
      cases op with
      | compound c => cases applied; cases c <;> cases equality
      | increment | decrement => cases applied; cases equality
      | _ => cases applied
  | stepsChar _ _ same => rw [same]; rfl

theorem Typed.Correct.not_isVoid (correct : e.Correct) (value : e.type.isVoid = false) :
    ¬e.node.IsVoid := by
  rintro ⟨_, type, same, void⟩
  rw [show e.node.type = some e.type from correct.type] at same
  cases same
  rw [value] at void
  cases void

end Values

section Parts

variable {mods : LeadingModifiers} {line : Nat} {name : Token}

theorem LeadingModifiers.node_shaped : (mods.node line).Every Node.Shaped := by
  refine Node.shaped_new rfl rfl ?_
  intro c member
  obtain ⟨t, _, rfl⟩ := List.mem_map.mp member
  exact ⟨rfl, Node.shaped_leaf rfl⟩

theorem typeNode_shaped {token : Option Token} {type : Datatype} :
    (typeNode token type line).Every Node.Shaped := by
  cases token <;>
    exact Node.every_iff.mpr ⟨Node.shaped_of_places rfl rfl (by simp [typeNode, Node.leaf, Node.new]),
      by simp [typeNode, Node.leaf, Node.new]⟩

theorem kind_typeNode {token : Option Token} {type : Datatype} :
    (typeNode token type line).kind = .type := by
  cases token <;> rfl

theorem shaped_name : (Node.leaf .identifier name).Every Node.Shaped := Node.shaped_leaf rfl

theorem shaped_setting {kind : NodeKind} (parts : List Node) {valueLine : Nat} {e : Typed}
    (sets : kind.setsVariable = true) (correct : e.Correct) (value : e.type.isVoid = false)
    (below : ∀ c ∈ parts, c.kind.isLoose = true ∧ c.Every Node.Shaped) :
    (Node.new kind line (parts ++ [.new .value valueLine [e.node]])).Every Node.Shaped := by
  have stored : (Node.new .value valueLine [e.node]).Every Node.Shaped :=
    Node.shaped_new rfl rfl (by simpa using correct.standsIn rfl)
  have other : kind ≠ .functionCall := by
    rintro rfl
    cases sets
  have cases : ∀ c ∈ (Node.new kind line (parts ++ [.new .value valueLine [e.node]])).children,
      c.kind.isLoose = true ∧ c.Every Node.Shaped ∨ c = .new .value valueLine [e.node] := by
    intro c member
    rcases List.mem_append.mp member with member | member
    · exact .inl (below c member)
    · exact .inr (List.mem_singleton.mp member)
  refine Node.every_iff.mpr ⟨⟨?_, fun call => absurd call other, ?_, ?_⟩, ?_⟩
  · intro c member
    rcases cases c member with ⟨loose, _⟩ | rfl
    · exact NodeKind.standsIn_of_loose loose _
    · exact sets
  · intro _ c member same
    rcases cases c member with ⟨loose, _⟩ | rfl
    · rw [same] at loose
      cases loose
    · cases same
  · intro c member same
    rcases cases c member with ⟨loose, _⟩ | rfl
    · rw [same] at loose
      cases loose
    · simpa [Node.new] using correct.not_isVoid value
  · intro c member
    rcases cases c member with ⟨_, shaped⟩ | rfl
    · exact shaped
    · exact stored

theorem Header.parametersNode_shaped {h : Header} (shown : ∀ p ∈ h.parameters, p.Shown)
    (line : Nat) :
    (h.parametersNode line).Every Node.Shaped ∧
      ∀ c ∈ (h.parametersNode line).children, c.kind.isExpression = false := by
  have each : ∀ c ∈ (h.parametersNode line).children,
      c.kind = .parameter ∧ c.Every Node.Shaped := by
    intro c member
    obtain ⟨p, parameter, rfl⟩ := List.mem_map.mp member
    obtain ⟨mods, typeToken, name, line, same⟩ := shown p parameter
    rw [same]
    refine ⟨rfl, Node.shaped_new rfl rfl ?_⟩
    simpa [kind_typeNode] using
      ⟨⟨rfl, mods.node_shaped⟩, ⟨rfl, shaped_name⟩, rfl, typeNode_shaped⟩
  refine ⟨Node.every_new.mpr ⟨Node.shaped_of_places rfl rfl ?_, fun c member => (each c member).2⟩, ?_⟩
  · intro c member
    rw [(each c member).1]
    rfl
  · intro c member
    rw [(each c member).1]
    rfl

theorem shaped_function {h : Header} {kind : NodeKind} (front behind : List Node)
    (parameters : kind.hasParameters = true) (other : kind ≠ .functionCall)
    (shown : ∀ p ∈ h.parameters, p.Shown)
    (below : ∀ c ∈ front ++ behind, c.kind.isLoose = true ∧ c.Every Node.Shaped) :
    (Node.new kind line (front ++ h.parametersNode line :: behind)).Every Node.Shaped := by
  obtain ⟨list, plain⟩ := Header.parametersNode_shaped shown line
  have cases : ∀ c ∈ (Node.new kind line (front ++ h.parametersNode line :: behind)).children,
      c = h.parametersNode line ∨ c.kind.isLoose = true ∧ c.Every Node.Shaped := by
    intro c member
    rcases List.mem_append.mp member with member | member
    · exact .inr (below c (List.mem_append_left _ member))
    · rcases List.mem_cons.mp member with rfl | member
      · exact .inl rfl
      · exact .inr (below c (List.mem_append_right _ member))
  refine Node.every_iff.mpr ⟨⟨?_, fun call => absurd call other, ?_, ?_⟩, ?_⟩
  · intro c member
    rcases cases c member with rfl | ⟨loose, _⟩
    · exact parameters
    · exact NodeKind.standsIn_of_loose loose _
  · intro _ c member same
    rcases cases c member with rfl | ⟨loose, _⟩
    · exact plain
    · rw [same] at loose
      cases loose
  · intro c member same
    rcases cases c member with rfl | ⟨loose, _⟩
    · cases same
    · rw [same] at loose
      cases loose
  · intro c member
    rcases cases c member with rfl | ⟨_, shaped⟩
    · exact list
    · exact shaped

theorem variableNode_shaped {typeToken : Token} {v : Variable} (typed : v.WellTyped)
    (storable : v.type.Storable) :
    (variableNode typeToken name mods v.type v.value).kind.isLoose = true ∧
      (variableNode typeToken name mods v.type v.value).Every Node.Shaped := by
  have parts : ∀ c ∈ [mods.node typeToken.streamLine, .leaf .identifier name,
      typeNode (some typeToken) v.type typeToken.streamLine],
      c.kind.isLoose = true ∧ c.Every Node.Shaped := by
    simpa [kind_typeNode] using
      ⟨⟨rfl, mods.node_shaped⟩, ⟨rfl, shaped_name⟩, rfl, typeNode_shaped⟩
  cases value : v.value with
  | none =>
      refine ⟨rfl, Node.shaped_new rfl rfl fun c member => ?_⟩
      obtain ⟨loose, shaped⟩ := parts c member
      exact ⟨NodeKind.standsIn_of_loose loose _, shaped⟩
  | some node =>
      obtain ⟨e, rfl, correct, assignable⟩ := typed node value
      exact ⟨rfl, shaped_setting _ rfl correct (storable.of_assignable assignable) parts⟩

end Parts

namespace Environment

variable {env : Environment}

theorem Decides.shaped {node : Node} (decides : env.Decides node) :
    node.kind = .condition ∧ node.Every Node.Shaped := by
  obtain ⟨e, line, means, _, rfl⟩ := decides
  exact ⟨rfl, Node.shaped_new rfl rfl (by simpa using means.correct.standsIn rfl)⟩

theorem Calls.shaped {node : Node} (calls : env.Calls node) :
    node.kind = .functionCall ∧ node.Every Node.Shaped := by
  obtain ⟨e, means, call, rfl⟩ := calls
  exact ⟨call, means.correct.shaped⟩

theorem Defines.shaped {placement : Placement} {declared : Environment} {node : Node}
    (defines : env.Defines placement declared node) :
    node.kind.isLoose = true ∧ node.Every Node.Shaped := by
  obtain ⟨typeToken, _, introduces, _, word⟩ := defines
  exact variableNode_shaped introduces.initializes.wellTyped (introduces.stored word)

theorem Assigns.shaped {implied : Bool} {after : Environment} {node : Node}
    (assigns : env.Assigns implied after node) (wellFormed : env.WellFormed) :
    node.kind = .varSetValue ∧ node.Every Node.Shaped := by
  obtain ⟨op, line, valueLine, resolved, _, _, means, suits⟩ := assigns
  have value := suits.not_void (wellFormed.variable resolved)
  refine ⟨rfl, shaped_setting [_, _] rfl means.correct value ?_⟩
  simpa using ⟨⟨rfl, shaped_name⟩, rfl, Node.shaped_leaf rfl⟩

theorem Advances.shaped {implied : Bool} {after : Environment} {node : Node}
    (advances : env.Advances implied after node) (wellFormed : env.WellFormed) (line : Nat) :
    (Node.new .forInstruct line [node]).Every Node.Shaped := by
  refine Node.shaped_new rfl rfl ?_
  simp only [List.mem_singleton, forall_eq]
  cases advances with
  | assigns assigns =>
      obtain ⟨kind, shaped⟩ := assigns.shaped wellFormed
      exact ⟨by rw [kind]; rfl, shaped⟩
  | calls calls =>
      obtain ⟨kind, shaped⟩ := calls.shaped
      exact ⟨by rw [kind]; rfl, shaped⟩

end Environment

/-- What a scope builds, and that it can stand anywhere once it is closed. -/
structure Scope.Shaped (scope : Scope) : Prop where
  node : scope.node.Every Node.Shaped
  loose : scope.node.kind.isLoose = true
  block : scope.frame.isBlock = true → scope.node.kind.isBlock = true

theorem Scope.Shaped.ne_call {scope : Scope} (shaped : scope.Shaped) :
    scope.node.kind ≠ .functionCall := by
  intro call
  have loose := shaped.loose
  rw [call] at loose
  cases loose

theorem Scope.Shaped.updated {old new : Scope} (shaped : old.Shaped) (updated : old.Updated new) :
    new.Shaped := by
  refine ⟨?_, ?_, ?_⟩
  · rw [updated.node]
    exact shaped.node
  · rw [updated.node]
    exact shaped.loose
  · rw [updated.node, isBlock_iff, updated.frame.kind, ← isBlock_iff]
    exact shaped.block

namespace Environment

variable {env after : Environment} {setting : Setting}

def Shaped (env : Environment) : Prop := ∀ scope ∈ env.scopes.all, scope.Shaped

theorem Shaped.updated (shaped : env.Shaped) (updated : env.Updated after) : after.Shaped := by
  intro scope member
  obtain ⟨i, bound, rfl⟩ := List.getElem_of_mem member
  have each := updated.scopes.all
  have within : i < env.scopes.all.length := by
    rw [each.length_eq]
    exact bound
  exact (shaped _ (List.getElem_mem within)).updated (each.get within bound)

theorem Shaped.modifyBlock (shaped : env.Shaped) (f : Block → Block) :
    (env.modifyBlock f).Shaped := by
  obtain ⟨outer, all, changed⟩ := env.scopes.all_eq_current
  intro scope member
  unfold Shaped at shaped
  rw [all] at shaped
  rw [show (env.modifyBlock f).scopes.all = _ from changed _] at member
  rcases List.mem_cons.mp member with rfl | member
  · obtain ⟨node, loose, block⟩ := shaped env.scopes.current (by simp)
    refine ⟨node, loose, fun same => block ?_⟩
    cases frame : env.scopes.current.frame <;> simp_all [Frame.modifyBlock, Frame.isBlock, Frame.block?]
  · exact shaped scope (by simp [member])

theorem Shaped.push (shaped : env.Shaped) {frame : Frame} {node : Node}
    (every : node.Every Node.Shaped) (loose : node.kind.isLoose = true)
    (block : frame.isBlock = true → node.kind.isBlock = true) : (env.push frame node).Shaped := by
  intro scope member
  rcases List.mem_cons.mp member with rfl | member
  · exact ⟨every, loose, block⟩
  · exact shaped scope member

theorem Shaped.append (shaped : env.Shaped) (setting : Setting) {node : Node}
    (every : node.Every Node.Shaped)
    (stands : node.kind.isLoose = true ∨ node.kind = .functionCall ∧ env.frame.isBlock = true) :
    (env.append setting node).Shaped := by
  unfold Environment.append
  split
  next => exact shaped
  next =>
    obtain ⟨outer, all, changed⟩ := env.scopes.all_eq_current
    intro scope member
    unfold Shaped at shaped
    rw [all] at shaped
    have current := shaped env.scopes.current (by simp)
    rw [show env.scopes.append node = env.scopes.modifyCurrent _ from rfl, changed] at member
    rcases List.mem_cons.mp member with rfl | member
    · refine ⟨Node.every_push current.node current.ne_call ?_ every, current.loose, current.block⟩
      rcases stands with loose | ⟨call, block⟩
      · exact .inl loose
      · exact .inr ⟨call, current.block block⟩
    · exact shaped scope (by simp [member])

theorem Shaped.append_loose (shaped : env.Shaped) (setting : Setting) {node : Node}
    (part : node.kind.isLoose = true ∧ node.Every Node.Shaped) : (env.append setting node).Shaped :=
  shaped.append setting part.2 (.inl part.1)

end Environment

section Accepted

variable {env : Environment} {setting : Setting} {mods : LeadingModifiers} {first : Token}
  {rest : List Token} {accepted : Accepted}

theorem titledNode_shaped {kind : NodeKind} {name : Token} {line : Nat}
    (parameters : kind.hasParameters = false) (sets : kind.setsVariable = false) :
    (Node.new kind line [.leaf .identifier name, mods.node line]).Every Node.Shaped := by
  refine Node.shaped_new parameters sets ?_
  simpa using ⟨⟨NodeKind.standsIn_of_loose rfl _, shaped_name⟩,
    NodeKind.standsIn_of_loose rfl _, mods.node_shaped⟩

theorem membersNode_shaped (names : List Token) (line : Nat) :
    (Node.new .enumValues line (names.map (Node.leaf .identifier))).Every Node.Shaped := by
  refine Node.shaped_new rfl rfl ?_
  intro c member
  obtain ⟨t, _, rfl⟩ := List.mem_map.mp member
  exact ⟨rfl, shaped_name⟩

theorem Header.front_shaped {h : Header} {line : Nat} :
    ∀ c ∈ [Node.leaf .identifier h.name, h.returnNode line, mods.node line],
      c.kind.isLoose = true ∧ c.Every Node.Shaped := by
  simpa [Header.returnNode, kind_typeNode] using
    ⟨⟨rfl, shaped_name⟩, ⟨rfl, typeNode_shaped⟩, rfl, mods.node_shaped⟩

-- Each statement of the second pass keeps the invariant.
theorem Accepts.shaped (accepts : Accepts env setting mods first rest accepted)
    (bodies : setting.declaring = false) (wellTyped : env.WellTyped) (wellFormed : env.WellFormed)
    (shaped : env.Shaped) : (accepted.settled setting).Shaped := by
  have nonDeclaring : ¬setting.declaring = true := by simp [bodies]
  cases accepts with
  | moduleDeclared _ _ _ declaring => exact absurd declaring nonDeclaring
  | moduleEntered =>
      refine shaped.push (Node.shaped_new rfl rfl ?_) rfl nofun
      simpa using ⟨rfl, shaped_name⟩
  | classDeclared _ _ _ declaring => exact absurd declaring nonDeclaring
  | classEntered => exact shaped.push (titledNode_shaped rfl rfl) rfl nofun
  | classMissing => exact shaped
  | enumDeclared _ _ _ declaring => exact absurd declaring nonDeclaring
  | enumEntered => exact shaped.push (titledNode_shaped rfl rfl) rfl nofun
  | enumMissing => exact shaped
  | membersDeclared _ _ _ declaring => exact absurd declaring nonDeclaring
  | membersKept => exact shaped.append_loose setting ⟨rfl, membersNode_shaped _ _⟩
  | functionDeclared _ _ _ declaring => exact absurd declaring nonDeclaring
  | @functionOpened h _ _ _ _ read =>
      have shown := (Header.read_eq_ok read).2.1
      have opened : (Node.new .functionDefinition first.streamLine
          (h.parts mods first.streamLine)).Every Node.Shaped :=
        shaped_function [_, _, _] [] rfl nofun shown (by
          rw [List.append_nil]
          exact h.front_shaped)
      exact (shaped.push opened rfl fun _ => rfl).updated (env.updated_openBody _ _ _ _ _)
  | nativeDeclared _ _ _ declaring => exact absurd declaring nonDeclaring
  | @nativeKept h host _ _ _ _ read =>
      have shown := (Header.read_eq_ok read).2.1
      refine shaped.append_loose setting ⟨rfl, ?_⟩
      refine shaped_function [_, _, _] [.leaf .nativeHostClass host] rfl nofun shown ?_
      intro c member
      rcases List.mem_append.mp member with member | member
      · exact h.front_shaped c member
      · rw [List.mem_singleton.mp member]
        exact ⟨rfl, Node.shaped_leaf rfl⟩
  | constructorDeclared _ _ _ declaring => exact absurd declaring nonDeclaring
  | @constructorOpened _ _ h _ _ _ _ _ _ _ list =>
      have shown := (Parameter.readList_shown list).1
      have opened : (Node.new .createConstructor first.streamLine
          (constructorParts mods h first.streamLine)).Every Node.Shaped :=
        shaped_function [_] [] rfl nofun shown (by simpa using ⟨rfl, mods.node_shaped⟩)
      exact (shaped.push opened rfl fun _ => rfl).updated (env.updated_openBody _ _ _ _ _)
  | @conditional kind nodeKind condition starts _ _ decides =>
      obtain ⟨kind, every⟩ := decides.shaped
      have stands : ∀ outer, condition.kind.standsIn outer = true := by
        rw [kind]
        exact fun outer => rfl
      rcases conditional_eq_some starts with ⟨_, _, rfl⟩ | ⟨_, _, rfl⟩ <;>
        exact shaped.push (Node.shaped_new rfl rfl (by simpa using ⟨stands _, every⟩)) rfl
          fun _ => rfl
  | doLoop => exact shaped.push (Node.shaped_new rfl rfl (by simp)) rfl fun _ => rfl
  | @forLoop defined stepped start condition step _ _ _ block defines decides advances =>
      let head := env.push (.block .loopHead {}) (.new .forFakeScope first.streamLine)
      have opened : head.Shaped :=
        shaped.push (Node.shaped_new rfl rfl (by simp)) rfl fun _ => rfl
      have headFormed : head.WellFormed := wellFormed.pushBlock .loopHead {} rfl _
      have filled := ((opened.updated (defines.updated.trans advances.updated)).append_loose setting
        defines.shaped).append_loose setting ⟨by rw [decides.shaped.1]; rfl, decides.shaped.2⟩
      have stepNode := advances.shaped (headFormed.definesLocal defines) first.streamLine
      exact (filled.append_loose setting ⟨rfl, stepNode⟩).push (Node.shaped_new rfl rfl (by simp)) rfl
        fun _ => rfl
  | @returned value _ _ _ means =>
      refine (shaped.modifyBlock _).append_loose setting ⟨rfl, Node.shaped_new rfl rfl ?_⟩
      intro c member
      obtain ⟨e, same, rfl⟩ := Option.map_eq_some_iff.mp (Option.mem_toList.mp member)
      exact (means e same).correct.standsIn rfl
  | @exited nodeKind starts =>
      rcases exitKind_eq_some starts with ⟨_, rfl⟩ | ⟨_, rfl⟩ <;>
        exact (shaped.modifyBlock _).append_loose setting ⟨rfl, Node.shaped_leaf rfl⟩
  | used =>
      exact (shaped.updated (env.updated_use _)).append_loose setting ⟨rfl, Node.shaped_leaf rfl⟩
  | libraryEnded =>
      have ended : Environment.Shaped { env with inLibrary := false } := shaped
      exact ended.append_loose setting ⟨rfl, Node.shaped_leaf rfl⟩
  | @variableDefined placement _ _ _ _ _ _ isLocal defines =>
      rcases isLocal with declaring | rfl
      · exact absurd declaring nonDeclaring
      · exact (shaped.updated defines.updated).append_loose setting defines.shaped
  | variableKept =>
      unfold Accepted.settled
      dsimp only
      split
      next node known =>
        obtain ⟨name, v, found, rfl⟩ := Environment.knownVariable_eq_some known
        exact shaped.append_loose setting
          (variableNode_shaped (wellTyped.member found) (wellFormed.member found))
      next => exact shaped
  | called _ _ block calls =>
      exact shaped.append setting calls.shaped.2 (.inr ⟨calls.shaped.1, block⟩)
  | assigned _ _ _ assigns =>
      obtain ⟨kind, every⟩ := assigns.shaped wellFormed
      exact (shaped.updated assigns.updated).append_loose setting ⟨by rw [kind]; rfl, every⟩

end Accepted

-- A block that waits for its condition.
def Node.Pending (block : Node) : Prop := block.kind.isLoose = true ∧ block.Every Node.Shaped

theorem Environment.Closes.shaped {setting : Setting} {env after : Environment} {scope : Scope}
    {waiting : Option Node} (closes : Environment.Closes setting env scope after waiting)
    (closed : scope.Shaped) (shaped : env.Shaped) :
    after.Shaped ∧ ∀ block, waiting = some block → block.Pending := by
  have part : scope.node.Pending := ⟨closed.loose, closed.node⟩
  -- The modules take no part in this.
  have leaves : ∀ modules,
      (({ env with modules } : Environment).append setting scope.node).Shaped := by
    intro modules
    have same : ({ env with modules } : Environment).Shaped := shaped
    exact same.append_loose setting part
  cases closes with
  | discarded => exact ⟨shaped, nofun⟩
  | «class» | enum | function => exact ⟨leaves _, nofun⟩
  | module | bare | block => exact ⟨shaped.append_loose setting part, nofun⟩
  | doLoop =>
      refine ⟨shaped, ?_⟩
      rintro _ ⟨⟩
      exact part
  | @forLoop _ head scopes _ _ popped =>
      have whole := shaped.append_loose setting part
      unfold Environment.Shaped at whole
      rw [ScopeStack.all_of_pop? popped] at whole
      obtain ⟨headShaped, outer⟩ := List.forall_mem_cons.mp whole
      have left : Environment.Shaped { env.append setting scope.node with scopes } := outer
      exact ⟨left.append_loose setting ⟨headShaped.loose, headShaped.node⟩, nofun⟩

namespace AnalysisState

variable {s t : AnalysisState}

structure Shaped (s : AnalysisState) : Prop where
  environment : s.environment.Shaped
  waiting : ∀ block, s.pendingDo = some block → block.Pending

theorem Moves.shaped (moves : s.Moves t) (bodies : s.declaring = false) (wellTyped : s.WellTyped)
    (wellFormed : s.environment.WellFormed) (shaped : s.Shaped) : t.Shaped := by
  have idle : ∀ {pendingDo : Option Node}, pendingDo = none →
      ∀ block, pendingDo = some block → block.Pending := by
    intro _ free block waiting
    rw [free] at waiting
    cases waiting
  have reads : ∀ {warned : Environment} {mods : LeadingModifiers} {head : Token}
      {tail : List Token} {accepted : Accepted}, s.environment.Warned warned →
      Accepts warned s.setting mods head tail accepted → (accepted.settled s.setting).Shaped := by
    intro warned _ _ _ _ warns accepts
    have formed : warned.WellFormed := by
      cases warns with
      | same => exact wellFormed
      | marked => exact wellFormed.modifyBlock fun _ => rfl
    exact accepts.shaped bodies (warns.updated.wellTyped wellTyped.environment) formed
      (shaped.environment.updated warns.updated)
  cases moves with
  | completes _ waiting _ _ _ decides =>
      obtain ⟨loose, every⟩ := shaped.waiting _ waiting
      obtain ⟨kind, condition⟩ := decides.shaped
      have call : ∀ block : Node, block.kind.isLoose = true → block.kind ≠ .functionCall := by
        intro block loose same
        rw [same] at loose
        cases loose
      have pushed := Node.every_push every (call _ loose) (.inl (by rw [kind]; rfl)) condition
      exact ⟨shaped.environment.append_loose s.setting ⟨loose, pushed⟩, idle rfl⟩
  | closes _ _ _ _ popped closes =>
      have stack := shaped.environment
      unfold Environment.Shaped at stack
      rw [ScopeStack.all_of_pop? popped] at stack
      obtain ⟨closed, outer⟩ := List.forall_mem_cons.mp stack
      obtain ⟨after, waiting⟩ := closes.shaped closed outer
      exact ⟨after, waiting⟩
  | accepts _ free _ _ warns _ accepts => exact ⟨reads warns accepts, idle free⟩
  | skips _ free _ _ warns _ accepts => exact ⟨reads warns accepts, idle free⟩

theorem Leads.wellFormed (leads : s.Leads t) (wellFormed : s.environment.WellFormed) :
    t.environment.WellFormed := by
  induction leads with
  | refl => exact wellFormed
  | tail _ step ih => exact (step_evolves step.1).keeps (fun _ _ shifts env => env.shifts shifts) ih

theorem Leads.shaped (leads : s.Leads t) (bodies : s.declaring = false) (wellTyped : s.WellTyped)
    (wellFormed : s.environment.WellFormed) (shaped : s.Shaped) : t.Shaped := by
  induction leads with
  | refl => exact shaped
  | @tail middle last leads step ih =>
      exact step.moves.shaped ((Leads.declaring leads).trans bodies)
        (Leads.wellTyped leads wellTyped) (Leads.wellFormed leads wellFormed) ih

end AnalysisState

namespace Analysis

theorem startPass_shaped (setting : Setting) (modules : ModuleTree) (log : DiagnosticLog)
    (tokens : List Token) : (startPass setting modules log tokens).Shaped := by
  refine ⟨?_, by simp [startPass]⟩
  intro scope member
  rw [List.mem_singleton.mp (show scope ∈ [_] from member)]
  refine ⟨Node.shaped_new rfl rfl (by simp), rfl, ?_⟩
  intro same
  cases same

theorem runPass_shaped {host : Host} {modules : ModuleTree} {log : DiagnosticLog}
    {tokens : List Token} (typed : modules.WellTyped) (wellFormed : modules.WellFormed)
    (clean : (runPass ⟨.bodies, host⟩ modules log tokens).Clean) :
    (runPass ⟨.bodies, host⟩ modules log tokens).root.kind.isLoose = true ∧
      (runPass ⟨.bodies, host⟩ modules log tokens).root.Every Node.Shaped := by
  obtain ⟨leads, _, closed, _⟩ := runPass_leads clean
  have shaped := leads.shaped rfl (startPass_wellTyped _ typed _ _)
    (startPass_wellFormed _ wellFormed _ _) (startPass_shaped _ _ _ _)
  have bodies : (runPass ⟨.bodies, host⟩ modules log tokens).declaring = false := leads.declaring
  generalize runPass ⟨.bodies, host⟩ modules log tokens = last at closed bodies shaped
  have root : last.root = last.environment.scopes.base.node := by
    simp [AnalysisState.root, bodies, closed, AnalysisState.closeAll]
  rw [root]
  have base := shaped.environment last.environment.scopes.base (by simp [ScopeStack.all])
  exact ⟨base.loose, base.node⟩

end Analysis

end MiLanguage
