import MiLanguage.Proofs.Naming.Sight
import MiLanguage.Proofs.Visibility.Statement

set_option autoImplicit false

namespace MiLanguage

/-- What an accepted statement makes of the scopes in the second pass, and which files it names types
in: it adds a node to the current scope, or opens a scope, or the two scopes of a `for`. -/
inductive Writes (files : FileId → Prop) (env : Environment) (head : Token) (tail : List Token) :
    Accepted → Prop
  | adds {after : Environment} {node : Option Node} :
      env.Kept after → (∀ n, node = some n → n.Within files) →
      Writes files env head tail ⟨after, node⟩
  | opens {frame : Frame} {n : Node} {opened : Environment} :
      Ends head tail .leftBrace →
      frame.blockKind? ≠ some .loopHead → frame.blockKind? ≠ some .forLoop →
      n.kind.namesType = false → (∀ c ∈ n.children, c.Within files) →
      (n.kind = .createClass → head.kind = .keyword .«class» ∧
        (∃ name, n.title? = some name ∧ Titled tail name) ∧
        ∀ files, ∀ c ∈ n.children, c.Within files) →
      (env.push frame n).Kept opened → Writes files env head tail ⟨opened, none⟩
  | loops {start condition step : Node} {stepped : Environment} {line : Nat} :
      Ends head tail .leftBrace → start.Within files → condition.Within files → step.Within files →
      (env.push (.block .loopHead {}) (.new .forFakeScope line)).Kept stepped →
      Writes files env head tail
        ⟨(stepped.grow [start, condition, step]).push (.block .forLoop {}) (.new .forStatement line),
          none⟩

variable {files : FileId → Prop} {env : Environment} {setting : Setting} {mods : LeadingModifiers}
  {first head : Token} {tail rest : List Token} {accepted : Accepted} {n : Node}

theorem writes_of_neutral {frame : Frame} {kind : NodeKind} {line : Nat} {children : List Node}
    {opened : Environment} (ends : Ends head rest .leftBrace) (noHead : frame.blockKind? ≠ some .loopHead)
    (noLoop : frame.blockKind? ≠ some .forLoop) (neutral : kind.isNeutral = true)
    (within : ∀ c ∈ children, c.Within files)
    (kept : (env.push frame (.new kind line children)).Kept opened) :
    Writes files env head rest ⟨opened, none⟩ := by
  simp only [NodeKind.isNeutral, Bool.and_eq_true, Bool.not_eq_true', decide_eq_true_eq] at neutral
  exact .opens ends noHead noLoop neutral.1 within (fun same => absurd same neutral.2) kept

theorem writes_node {after : Environment} (kept : env.Kept after) (within : n.Within files) :
    Writes files env head rest ⟨after, some n⟩ := by
  refine .adds kept ?_
  rintro m same
  cases same
  exact within

namespace Environment

theorem conditional_writes {kind : BlockKind} {nodeKind : NodeKind}
    (ends : Ends head rest .leftBrace) (inside : Tokens.In files rest)
    (neutral : nodeKind.isNeutral = true) (plain : kind ≠ .loopHead ∧ kind ≠ .forLoop)
    (read : env.openConditional mods kind nodeKind head rest = .ok accepted) :
    Writes files env head rest accepted := by
  simp only [openConditional, Checked.bind_eq_ok] at read
  obtain ⟨_, _, _, _, header, dropped, condition, wrapped, same⟩ := read
  cases same
  rw [(dropLastOf_eq_ok dropped).2] at wrapped
  have within := wrappedCondition_within inside.dropLast wrapped
  refine writes_of_neutral ends ?_ ?_ neutral (by simpa using within) (kept_refl _)
  · simpa [Frame.blockKind?] using plain.1
  · simpa [Frame.blockKind?] using plain.2

theorem for_writes (pass : setting.declaring = false) (ends : Ends head rest .leftBrace)
    (inside : Tokens.In files rest) (read : env.openFor setting mods head rest = .ok accepted) :
    Writes files env head rest accepted := by
  simp only [openFor, Checked.bind_eq_ok] at read
  obtain ⟨_, _, _, _, header, dropped, read⟩ := read
  rw [(dropLastOf_eq_ok dropped).2] at read
  split at read
  next wrapped =>
    simp only [Checked.bind_eq_ok] at read
    obtain ⟨inner, same, parts, split, ⟨defined, start⟩, definition, condition, decides,
      ⟨stepped, step⟩, advances, made⟩ := read
    cases same
    have within := ForHead.read_in (Tokens.in_unwrap inside.dropLast wrapped) split
    have kept := ((loopDefinition_defines definition).updated.trans
      (loopStep_advances advances).updated).kept
    have step : (Node.new .forInstruct head.streamLine [step]).Within files :=
      Node.within_new rfl (by simpa using loopStep_within within.step advances)
    cases made
    simp only [List.foldl_cons, List.foldl_nil, append_bodies pass, grow_grow, List.cons_append,
      List.nil_append]
    exact .loops ends (loopDefinition_within within.start definition)
      (conditionNode_within within.condition decides) step kept
  next => simp at read

theorem returned_within (inside : Tokens.In files rest)
    (read : env.returnStatement mods head rest = .ok accepted) (same : accepted.node = some n) :
    n.Within files := by
  have returns : ∀ {value : Option Typed} {line : Nat} {after : Environment},
      accepted = ⟨after, some (.new .returnValue line (value.map Typed.node).toList)⟩ →
      (∀ e, value = some e → e.node.Within files) → n.Within files := by
    rintro value line after rfl within
    cases same
    refine Node.within_new rfl ?_
    intro c member
    obtain ⟨e, found, rfl⟩ := Option.map_eq_some_iff.mp (Option.mem_toList.mp member)
    exact within e found
  simp only [returnStatement, Checked.bind_eq_ok] at read
  obtain ⟨_, _, _, _, value, dropped, read⟩ := read
  have within := inside.dropLast
  rw [← (dropLastOf_eq_ok dropped).2] at within
  split at read
  next =>
    simp only [Checked.bind_eq_ok, Except.ok.injEq, exists_eq_left'] at read
    split at read
    next =>
      simp only [Checked.bind_eq_ok] at read
      obtain ⟨_, _, made⟩ := read
      cases made
      exact returns rfl (by simp)
    next =>
      cases read
      exact returns rfl (by simp)
  next =>
    simp only [Checked.bind_eq_ok, Except.ok.injEq, exists_eq_left'] at read
    obtain ⟨e, value, read⟩ := read
    have valued : ∀ found, some e = some found → found.node.Within files := by
      rintro found same
      cases same
      exact expression_within within value
    split at read
    next =>
      simp only [Checked.bind_eq_ok] at read
      obtain ⟨_, _, made⟩ := read
      cases made
      exact returns rfl valued
    next =>
      cases read
      exact returns rfl valued

theorem called_within (inside : Tokens.In files (head :: rest))
    (read : env.callStatement mods head rest = .ok accepted) (same : accepted.node = some n) :
    n.Within files := by
  simp only [callStatement, Checked.bind_eq_ok] at read
  obtain ⟨_, _, _, _, call, dropped, e, value, _, _, made⟩ := read
  cases made
  cases same
  rw [(dropLastOf_eq_ok dropped).2] at value
  exact expression_within inside.dropLast value

theorem assigned_within {op : Token} (inside : Tokens.In files rest)
    (read : env.assignment mods head op rest = .ok accepted) (same : accepted.node = some n) :
    n.Within files := by
  simp only [assignment, Checked.bind_eq_ok] at read
  obtain ⟨_, _, _, _, value, dropped, ⟨assigned, node⟩, found, made⟩ := read
  cases made
  cases same
  rw [(dropLastOf_eq_ok dropped).2] at found
  exact assign_within inside.dropLast found

theorem defined_within (inside : Tokens.In files (head :: rest))
    (read : env.variableStatement setting mods head rest = .ok accepted)
    (reads : setting.declaring = true ∨ ∀ placement, env.placement head = .ok placement →
      placement = .inBlock) (same : accepted.node = some n) : n.Within files := by
  obtain ⟨here, behind⟩ := Tokens.in_cons.mp inside
  simp only [variableStatement, Checked.bind_eq_ok] at read
  obtain ⟨definition, dropped, placement, placed, read⟩ := read
  have reads := reads.imp_right fun inBlock => inBlock placement placed
  rw [if_pos (by simpa using reads), (dropLastOf_eq_ok dropped).2] at read
  simp only [Checked.bind_eq_ok] at read
  obtain ⟨⟨declared, node⟩, found, made⟩ := read
  cases made
  cases same
  exact newVariable_within (Tokens.in_cons.mpr ⟨here, behind.dropLast⟩) found

-- A statement that a name or a type starts.
theorem starts_within (inside : Tokens.In files (head :: rest))
    (starts : startsVariable head = true)
    (block : env.frame.isBlock = true)
    (read : env.read setting mods head rest = .ok accepted) (same : accepted.node = some n) :
    n.Within files := by
  cases read_starts starts read with
  | defines _ read =>
      refine defined_within inside read (.inr fun placement placed => ?_) same
      unfold Environment.placement at placed
      cases frame : env.frame <;> simp_all [Frame.isBlock, Frame.block?]
  | calls _ _ calls => exact called_within inside calls same
  | assigns _ second _ assigns =>
      subst second
      exact assigned_within (Tokens.in_cons.mp (Tokens.in_cons.mp inside).2).2 assigns same

end Environment

theorem membersNode_within {names : List Token} {line : Nat} :
    (Node.new .enumValues line (names.map (Node.leaf .identifier))).Within files := by
  apply Node.within_new rfl
  intro c member
  obtain ⟨_, _, rfl⟩ := List.mem_map.mp member
  exact Node.within_leaf rfl

theorem nativeNode_within {h : Header} {host : Token} {line : Nat}
    (within : ∀ c ∈ h.parts mods line, c.Within files) :
    (Node.new .nativeFunctionDefinition line
      (h.parts mods line ++ [.leaf .nativeHostClass host])).Within files := by
  refine Node.within_new rfl ?_
  intro c member
  rcases List.mem_append.mp member with member | member
  · exact within c member
  · rw [List.mem_singleton.mp member]
    exact Node.within_leaf rfl

open Environment in
theorem body_writes {kind : NodeKind} {children : List Node} {type : Datatype} {owner : BodyOwner}
    {parameters : List FunctionParameter} {place : Token} (ends : Ends head rest .leftBrace)
    (neutral : kind.isNeutral = true) (within : ∀ c ∈ children, c.Within files) :
    Writes files env head rest
      ⟨env.openBody type owner parameters place (.new kind head.streamLine children), none⟩ := by
  obtain ⟨b, kept⟩ := openBody_kept env type owner parameters place
    (.new kind head.streamLine children)
  exact writes_of_neutral ends (by simp [Frame.blockKind?]) (by simp [Frame.blockKind?]) neutral
    within kept

open Environment in
-- A statement names types in the files of its own tokens. It stands where a global or a field has
-- been declared, with the value that the declaration gave it.
theorem Accepts.writes (pass : setting.declaring = false)
    (inside : Tokens.In files (head :: rest))
    (modifiers : LeadingModifiers.read (first :: tail) = .ok (mods, head :: rest))
    (read : env.statement setting first tail = ⟨accepted.environment, .ok accepted.node⟩)
    (known : startsVariable head = true → ∀ placement place,
      env.placement place = .ok placement → placement ≠ .inBlock →
      ∀ n, accepted.node = some n → n.Within files)
    (accepts : Accepts env setting mods head rest accepted) :
    Writes files env head rest accepted := by
  have declaring : ¬setting.declaring = true := by simp [pass]
  obtain ⟨_, behind⟩ := Tokens.in_cons.mp inside
  have dispatched : ∀ {kind}, head.kind = kind → kind ≠ .identifier →
      env.read setting mods head rest = .ok accepted :=
    fun same other => statement_read read modifiers (.inl (by rw [same]; exact other))
  have starts : startsVariable head = true → env.frame.isBlock = true →
      ∀ n, accepted.node = some n → n.Within files := by
    intro starts block n same
    refine starts_within inside starts block (statement_read read modifiers (.inr ?_)) same
    intro id e frame
    rw [frame] at block
    cases block
  cases accepts with
  | moduleDeclared _ _ _ first | classDeclared _ _ _ first | enumDeclared _ _ _ first
  | membersDeclared _ _ _ first | functionDeclared _ _ _ first | nativeDeclared _ _ _ first
  | constructorDeclared _ _ _ first => exact absurd first declaring
  | moduleEntered _ titled =>
      refine writes_of_neutral titled.ends (by simp [Frame.blockKind?]) (by simp [Frame.blockKind?]) rfl ?_
        (kept_refl _)
      simpa using Node.within_leaf rfl
  | @classEntered name _ kind titled =>
      have parts : ∀ files, ∀ c ∈ [Node.leaf .identifier name, mods.node head.streamLine],
          c.Within files := by
        intro files
        simpa using ⟨Node.within_leaf rfl, mods.within_node _⟩
      exact .opens titled.ends (by simp [Frame.blockKind?]) (by simp [Frame.blockKind?]) rfl
        (parts files) (fun _ => ⟨kind, ⟨_, rfl, titled⟩, parts⟩) (kept_refl _)
  | enumEntered _ titled =>
      refine writes_of_neutral titled.ends (by simp [Frame.blockKind?]) (by simp [Frame.blockKind?]) rfl ?_
        (kept_refl _)
      simpa using ⟨Node.within_leaf rfl, mods.within_node _⟩
  | classMissing | enumMissing => exact .adds env.kept_refl (by simp)
  | membersKept => exact writes_node env.kept_refl membersNode_within
  | functionOpened _ ends _ _ header => exact body_writes ends rfl (Header.read_within behind header _)
  | constructorOpened _ ends _ _ _ _ list =>
      refine body_writes ends rfl ?_
      simpa [constructorParts] using ⟨mods.within_node _,
        Header.parametersNode_within (Parameter.readList_within behind list) _⟩
  | nativeKept _ _ _ _ header =>
      exact writes_node env.kept_refl (nativeNode_within (Header.read_within behind header _))
  | conditional branches ends =>
      rcases conditional_eq_some branches with ⟨kind, rfl, rfl⟩ | ⟨kind, rfl, rfl⟩
      all_goals
        have opens := dispatched kind (by simp)
        simp only [Environment.read, kind] at opens
        exact conditional_writes ends behind rfl (by simp) opens
  | doLoop _ ends =>
      exact writes_of_neutral ends (by simp [Frame.blockKind?]) (by simp [Frame.blockKind?]) rfl
        (by simp) (kept_refl _)
  | forLoop kind ends =>
      have opens := dispatched kind (by simp)
      simp only [Environment.read, kind] at opens
      exact for_writes pass ends behind opens
  | returned kind =>
      have returns := dispatched kind (by simp)
      simp only [Environment.read, kind] at returns
      exact .adds (env.kept_modifyBlock _) fun n same => returned_within behind returns same
  | exited exits =>
      rcases exitKind_eq_some exits with ⟨_, rfl⟩ | ⟨_, rfl⟩ <;>
        exact writes_node (env.kept_modifyBlock _) (Node.within_leaf rfl)
  | used => exact writes_node (env.updated_use _).kept (Node.within_leaf rfl)
  | libraryEnded =>
      exact writes_node ⟨env.kept_refl.scopes, env.modules.keeps_refl⟩ (Node.within_leaf rfl)
  | @variableDefined placement place _ _ isVariable _ placed inBlock defines =>
      obtain rfl : placement = .inBlock := inBlock.resolve_left declaring
      refine .adds defines.updated.kept (starts isVariable ?_)
      unfold Environment.placement at placed
      cases frame : env.frame <;>
        simp_all [Frame.isBlock, Frame.block?, Checked.bind_eq_ok]
  | variableKept isVariable _ placed _ outside =>
      exact .adds env.kept_refl (known isVariable _ _ placed outside)
  | called kind _ block =>
      exact .adds env.kept_refl (starts (by simp [startsVariable, kind]) block)
  | assigned kind _ block assigns =>
      exact .adds assigns.updated.kept (starts (by simp [startsVariable, kind]) block)

end MiLanguage
