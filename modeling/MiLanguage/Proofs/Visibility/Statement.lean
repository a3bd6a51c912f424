import MiLanguage.Proofs.Outline.Blocks
import MiLanguage.Proofs.Visibility.Expression

set_option autoImplicit false

namespace MiLanguage

variable {files : FileId → Prop} {env : Environment} {setting : Setting} {mods : LeadingModifiers}
  {place keyword : Token} {tokens rest : List Token} {n : Node}

namespace Tokens

theorem in_cons {t : Token} : In files (t :: tokens) ↔ files t.span.fileId ∧ In files tokens := by
  simp [In]

theorem in_append {more : List Token} :
    In files (tokens ++ more) ↔ In files tokens ∧ In files more := by
  simp only [In, List.mem_append, or_imp, forall_and]

theorem In.tail (inside : In files tokens) : In files tokens.tail :=
  inside.suffix (List.tail_suffix tokens)

theorem In.dropLast (inside : In files tokens) : In files tokens.dropLast :=
  fun t member => inside t (List.dropLast_subset tokens member)

theorem in_prepended {t : Token} {parts : List (List Token)} (here : files t.span.fileId)
    (within : ∀ part ∈ parts, In files part) :
    ∀ part ∈ (match parts with
      | [] => [[t]]
      | part :: parts => (t :: part) :: parts), In files part := by
  cases parts with
  | nil => simpa [In] using here
  | cons first parts =>
      rw [List.forall_mem_cons] at within ⊢
      exact ⟨in_cons.mpr ⟨here, within.1⟩, within.2⟩

theorem in_splitParts (inside : In files tokens) (depth : Nat) :
    ∀ part ∈ splitParts depth tokens, In files part := by
  induction tokens generalizing depth with
  | nil => simp [splitParts, In]
  | cons t rest ih =>
      obtain ⟨here, inside⟩ := in_cons.mp inside
      have later := ih inside
      unfold splitParts
      split
      next => simpa [In] using later 0
      next => exact in_prepended here (later _)

theorem in_splitClosing {depth : Nat} {inner after : List Token} (inside : In files tokens)
    (found : splitClosing depth tokens = some (inner, after)) : In files inner := by
  induction tokens generalizing depth inner with
  | nil => cases found
  | cons t rest ih =>
      obtain ⟨here, inside⟩ := in_cons.mp inside
      unfold splitClosing at found
      split at found
      next => cases found; simp [In]
      next =>
        obtain ⟨⟨inner, _⟩, later, same⟩ := Option.map_eq_some_iff.mp found
        cases same
        exact in_cons.mpr ⟨here, ih inside later⟩

theorem in_unwrap {opening : Token} {inner : List Token} (inside : In files tokens)
    (found : unwrap tokens = some (opening, inner)) : In files inner := by
  cases tokens with
  | nil => cases found
  | cons t rest =>
      simp only [unwrap] at found
      split at found
      next split =>
        cases found
        exact in_splitClosing (in_cons.mp inside).2 split
      next => cases found

end Tokens

theorem LeadingModifiers.within_node (mods : LeadingModifiers) (line : Nat) :
    (mods.node line).Within files := by
  apply Node.within_new rfl
  intro c member
  obtain ⟨_, _, rfl⟩ := List.mem_map.mp member
  exact Node.within_leaf rfl

theorem within_typeNode {token : Option Token} {type : Datatype} {line : Nat}
    (named : ∀ t, token = some t → files t.span.fileId) : (typeNode token type line).Within files := by
  refine Node.every_iff.mpr ⟨⟨?_, ?_⟩, ?_⟩
  · cases token <;> nofun
  · intro _ t same
    cases token <;> cases same
    exact named _ rfl
  · cases token <;> nofun

theorem within_variableNode {typeToken name : Token} {type : Datatype} {value : Option Node}
    (named : files typeToken.span.fileId) (within : ∀ v, value = some v → v.Within files) :
    (variableNode typeToken name mods type value).Within files := by
  have type : (typeNode (some typeToken) type typeToken.streamLine).Within files :=
    within_typeNode fun t same => Option.some.inj same ▸ named
  have parts : (mods.node typeToken.streamLine).Within files := mods.within_node _
  unfold variableNode
  cases value with
  | none => exact Node.within_new rfl (by simpa using ⟨parts, Node.within_leaf rfl, type⟩)
  | some v =>
      have value : (Node.new .value typeToken.streamLine [v]).Within files :=
        Node.within_new rfl (by simpa using within v rfl)
      exact Node.within_new rfl (by simpa using ⟨parts, Node.within_leaf rfl, type, value⟩)

theorem Node.Within.initialValue {typeToken name : Token} {type : Datatype} {v : Node}
    (within : (variableNode typeToken name mods type (some v)).Within files) : v.Within files := by
  have value : (Node.new .value typeToken.streamLine [v]).Within files :=
    within.child (by simp [variableNode, Node.new])
  exact value.child (by simp [Node.new])

namespace Parameter

theorem readModifiers_suffix {found : LeadingModifiers}
    (read : readModifiers mods tokens = .ok (found, rest)) : rest <:+ tokens := by
  induction tokens generalizing mods with
  | nil =>
      cases read
      exact List.suffix_rfl
  | cons t later ih =>
      have tail : later <:+ t :: later := List.suffix_cons t later
      unfold readModifiers at read
      split at read
      next =>
        split at read
        next => simp at read
        next =>
          split at read
          next => exact (ih read).trans tail
          next => simp at read
      next => cases read; exact List.suffix_rfl

theorem read_within {others : List ReadParameter} {part : List Token} {p : ReadParameter}
    (inside : Tokens.In files part) (found : read env others place part = .ok p) :
    p.node.Within files := by
  cases part with
  | nil => simp [read] at found
  | cons first tail =>
      simp only [read, Checked.bind_eq_ok] at found
      obtain ⟨_, _, ⟨mods, rest⟩, modifiers, found⟩ := found
      have inside := inside.suffix (readModifiers_suffix modifiers)
      cases rest with
      | nil => simp at found
      | cons typeToken later =>
          simp only [Checked.bind_eq_ok] at found
          obtain ⟨⟨shown, _⟩, same, _, _, type, _, name, _, found⟩ := found
          cases same
          have named := (Tokens.in_cons.mp inside).1
          split at found
          next => simp at found
          next =>
            simp only [Checked.bind_eq_ok] at found
            obtain ⟨_, _, same⟩ := found
            cases same
            have type : (typeNode (some typeToken) type name.streamLine).Within files :=
              within_typeNode fun t same => Option.some.inj same ▸ named
            refine Node.within_new rfl ?_
            simpa using ⟨mods.within_node _, Node.within_leaf rfl, type⟩

theorem readAll_within {before found : List ReadParameter} {parts : List (List Token)}
    (inside : ∀ part ∈ parts, Tokens.In files part)
    (within : ∀ p ∈ before, p.node.Within files)
    (read : readAll env place before parts = .ok found) : ∀ p ∈ found, p.node.Within files := by
  induction parts generalizing before with
  | nil =>
      cases read
      exact within
  | cons part parts ih =>
      simp only [readAll, Checked.bind_eq_ok] at read
      obtain ⟨p, head, read⟩ := read
      refine ih (fun part member => inside part (by simp [member])) ?_ read
      intro q member
      rcases List.mem_append.mp member with member | member
      · exact within q member
      · rw [List.mem_singleton.mp member]
        exact read_within (inside part (by simp)) head

theorem readList_within {parameters : List ReadParameter} (inside : Tokens.In files tokens)
    (read : readList env tokens = .ok (parameters, rest)) : ∀ p ∈ parameters, p.node.Within files := by
  unfold readList at read
  split at read
  next => cases read; simp
  next opening later =>
    have tail := (Tokens.in_cons.mp inside).2
    split at read
    next =>
      split at read
      next => simp at read
      next => cases read; simp
      next inner after _ found =>
        simp only [Checked.bind_eq_ok] at read
        obtain ⟨all, readAll, same⟩ := read
        cases same
        have inner := Tokens.in_splitClosing tail found
        exact readAll_within (Tokens.in_splitParts inner 0) (by simp) readAll
    next => cases read; simp

end Parameter

namespace Header

theorem parametersNode_within {h : Header} (within : ∀ p ∈ h.parameters, p.node.Within files)
    (line : Nat) : (h.parametersNode line).Within files := by
  apply Node.within_new rfl
  intro c member
  obtain ⟨p, inside, rfl⟩ := List.mem_map.mp member
  exact within p inside

theorem readReturn_within {last : Token} {type : Datatype} {token : Option Token}
    (inside : Tokens.In files tokens)
    (read : readReturn env mods tokens last = .ok (type, token, rest)) :
    ∀ t, token = some t → files t.span.fileId := by
  unfold readReturn at read
  split at read
  next => simp at read
  next t later =>
    split at read
    next => cases read; simp
    next =>
      split at read
      next => simp at read
      next name after =>
        split at read
        all_goals
          simp only [Checked.bind_eq_ok] at read
          obtain ⟨_, _, same⟩ := read
          cases same
          intro t same
          cases same
          exact inside name (by simp)
    next => cases read; simp
    next => cases read; simp
    next => cases read; simp
    next => simp at read

theorem read_within {h : Header} (inside : Tokens.In files tokens)
    (read : Header.read env mods keyword tokens = .ok h) (line : Nat) :
    ∀ c ∈ h.parts mods line, c.Within files := by
  simp only [Header.read, Checked.bind_eq_ok] at read
  obtain ⟨name, named, ⟨type, token, later⟩, returned, ⟨parameters, rest⟩, list, hostClass, _, _, _,
    _, _, same⟩ := read
  cases same
  have spelled := readReturn_within inside.tail returned
  have listed := Parameter.readList_within
    (inside.tail.suffix (readReturn_suffix returned)) list
  simpa [Header.parts] using ⟨Node.within_leaf rfl, within_typeNode spelled, mods.within_node line,
    parametersNode_within listed line⟩

end Header

theorem initialTokens_in {initial : Option (Token × List Token)} (inside : Tokens.In files tokens)
    (read : initialTokens tokens = .ok initial) :
    ∀ equals value, initial = some (equals, value) → Tokens.In files value := by
  cases tokens with
  | nil => cases read; simp
  | cons t later =>
      simp only [initialTokens] at read
      split at read
      next =>
        cases read
        rintro _ _ same
        cases same
        exact (Tokens.in_cons.mp inside).2
      next => simp at read

namespace Environment

theorem declared_within {placement : Placement} {typeToken name : Token} {type : Datatype}
    {value : Option Typed} {v : Variable} {fault : Fault} {after : Environment}
    (found : (match env.declareVariable? placement v with
      | none => blame fault name
      | some env => .ok (env, variableNode typeToken name mods type (value.map Typed.node)) :
        Checked (Environment × Node)) = .ok (after, n))
    (named : files typeToken.span.fileId) (within : ∀ e, value = some e → e.node.Within files) :
    n.Within files := by
  split at found
  next => simp at found
  next =>
    cases found
    apply within_variableNode named
    intro v same
    obtain ⟨e, rfl, rfl⟩ := Option.map_eq_some_iff.mp same
    exact within e rfl

theorem newVariable_within {placement : Placement} {typeToken stop : Token} {after : Environment}
    (inside : Tokens.In files (typeToken :: tokens))
    (read : env.newVariable placement mods typeToken tokens stop = .ok (after, n)) :
    n.Within files := by
  obtain ⟨named, inside⟩ := Tokens.in_cons.mp inside
  unfold newVariable at read
  cases native : mods.first? (· = .nat) with
  | some t => simp [native] at read
  | none =>
      simp only [native, Checked.bind_eq_ok] at read
      obtain ⟨name, _, initial, initially, read⟩ := read
      have behind := initialTokens_in inside.tail initially
      cases initial with
      | none =>
          split at read
          all_goals
            simp only [Checked.bind_eq_ok, Except.ok.injEq, exists_eq_left'] at read
          next =>
            obtain ⟨type, _, _, _, found⟩ := read
            exact declared_within found named (by simp)
          next =>
            obtain ⟨spelled, _, type, _, _, _, found⟩ := read
            exact declared_within found named (by simp)
      | some initial =>
          have starts : ∀ {e}, env.expression initial.2 initial.1 = .ok e →
              ∀ found, some e = some found → found.node.Within files := by
            intro e value found same
            cases same
            exact expression_within (behind _ _ rfl) value
          split at read
          all_goals
            simp only [Checked.bind_eq_ok, Except.ok.injEq, exists_eq_left'] at read
          next =>
            obtain ⟨e, value, type, _, _, _, found⟩ := read
            exact declared_within found named (starts value)
          next =>
            obtain ⟨spelled, _, e, value, type, _, _, _, found⟩ := read
            exact declared_within found named (starts value)

theorem conditionNode_within (inside : Tokens.In files tokens)
    (read : env.conditionNode tokens place = .ok n) : n.Within files := by
  simp only [conditionNode, Checked.bind_eq_ok] at read
  obtain ⟨e, value, _, _, same⟩ := read
  cases same
  exact Node.within_new rfl (by simpa using expression_within inside value)

theorem wrappedCondition_within (inside : Tokens.In files tokens)
    (read : env.wrappedCondition tokens keyword = .ok n) : n.Within files := by
  unfold wrappedCondition at read
  split at read
  next found => exact conditionNode_within (Tokens.in_unwrap inside found) read
  next => simp at read

theorem assign_within {implied : Bool} {target op : Token} {after : Environment}
    (inside : Tokens.In files tokens) (read : env.assign implied target op tokens = .ok (after, n)) :
    n.Within files := by
  have stores : ∀ {name : Token} {line valueLine : Nat} {value : Node}, value.Within files →
      (Node.new .varSetValue line [.leaf .identifier name, .leaf .operator op,
        .new .value valueLine [value]]).Within files := by
    intro name line valueLine value within
    have value : (Node.new .value valueLine [value]).Within files :=
      Node.within_new rfl (by simpa using within)
    exact Node.within_new rfl (by simpa using ⟨Node.within_leaf rfl, Node.within_leaf rfl, value⟩)
  have steps : ∀ {v : ResolvedVariable} {binary : BinaryOperator} {value : Node},
      stepValue v binary op tokens = .ok value → value.Within files := by
    intro v binary value found
    unfold stepValue at found
    split at found
    next => simp at found
    next =>
      simp only [Checked.bind_eq_ok] at found
      obtain ⟨_, _, same⟩ := found
      cases same
      exact (Node.within_iff rfl).mpr (by simp [Node.leaf, Node.typed])
  simp only [assign, Checked.bind_eq_ok] at read
  obtain ⟨_, _, v, _, _, _, _, _, read⟩ := read
  split at read
  all_goals
    simp only [Checked.bind_eq_ok] at read
    obtain ⟨value, found, same⟩ := read
    cases same
  · exact stores (steps found)
  · exact stores (steps found)
  · simp only [assignedValue, Checked.bind_eq_ok] at found
    obtain ⟨e, valued, found⟩ := found
    have within := expression_within inside valued
    split at found
    next =>
      simp only [Checked.bind_eq_ok] at found
      obtain ⟨_, _, _, _, same⟩ := found
      cases same
      exact stores within
    next =>
      split at found
      next =>
        simp only [Checked.bind_eq_ok] at found
        obtain ⟨_, _, _, _, same⟩ := found
        cases same
        exact stores within
      next => simp at found

end Environment

/-- The parts of a loop's head, and what stands for a range, are in the files of its tokens. -/
structure ForHead.In (files : FileId → Prop) (head : ForHead) : Prop where
  start : Tokens.In files head.start
  condition : Tokens.In files head.condition
  step : Tokens.In files head.step

theorem ForHead.read_in {head : ForHead} (inside : Tokens.In files tokens)
    (read : ForHead.read keyword tokens = .ok head) : head.In files := by
  have parts := Tokens.in_splitParts inside 0
  unfold ForHead.read at read
  split at read
  next start condition step split =>
    rw [show splitParts 0 tokens = _ from split] at parts
    cases read
    exact ⟨parts _ (by simp), parts _ (by simp), parts _ (by simp)⟩
  next start range split =>
    rw [show splitParts 0 tokens = _ from split] at parts
    have ranges := parts range (by simp)
    simp only [Checked.bind_eq_ok] at read
    obtain ⟨⟨condition, step⟩, desugared, same⟩ := read
    cases same
    unfold desugarRange at desugared
    cases range with
    | nil => simp at desugared
    | cons v rest =>
        simp only [Checked.bind_eq_ok] at desugared
        obtain ⟨_, _, desugared⟩ := desugared
        cases rest with
        | nil => simp at desugared
        | cons arrow stop =>
            simp only [Checked.bind_eq_ok] at desugared
            obtain ⟨_, _, same⟩ := desugared
            cases same
            simp only [Tokens.in_cons] at ranges
            obtain ⟨here, around, inner⟩ := ranges
            refine ⟨parts _ (by simp), ?_, ?_⟩
            · simpa [Tokens.In, or_imp, forall_and, here, around] using inner
            · simp [Tokens.In, here, around]
  next => simp at read

namespace Environment

variable {after : Environment}

theorem loopDefinition_within (inside : Tokens.In files tokens)
    (read : env.loopDefinition tokens keyword = .ok (after, n)) : n.Within files := by
  simp only [loopDefinition, Checked.bind_eq_ok] at read
  obtain ⟨⟨mods, rest⟩, modifiers, read⟩ := read
  rw [(LeadingModifiers.read_append modifiers).1] at inside
  have inside := (Tokens.in_append.mp inside).2
  cases rest with
  | nil => simp at read
  | cons first rest =>
      simp only [Checked.bind_eq_ok] at read
      obtain ⟨_, _, ⟨defined, definition⟩, found, _, _, same⟩ := read
      cases same
      exact newVariable_within inside found

theorem loopStep_within {implied : Bool} (inside : Tokens.In files tokens)
    (read : env.loopStep implied tokens keyword = .ok (after, n)) : n.Within files := by
  have called : ∀ {place}, env.callStep tokens place = .ok (after, n) → n.Within files := by
    intro place read
    simp only [callStep, Checked.bind_eq_ok] at read
    obtain ⟨e, value, _, _, same⟩ := read
    cases same
    exact expression_within inside value
  simp only [loopStep] at read
  split at read
  next => simp at read
  next => exact called read
  next target op rest =>
    split at read
    next => exact assign_within (inside.suffix ⟨[target, op], rfl⟩) read
    next => exact called read

end Environment

end MiLanguage
