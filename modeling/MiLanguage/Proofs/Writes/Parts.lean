import MiLanguage.Proofs.Statement.Names
import MiLanguage.Proofs.Writes.Ledger

set_option autoImplicit false

namespace MiLanguage

namespace Node

variable {n : Node}

theorem NodeKind.quiet_of_inExpression {kind : NodeKind} (inside : kind.inExpression = true) :
    kind ≠ .varSetValue ∧ kind.encloses = false := by
  cases kind <;> simp_all [NodeKind.inExpression, NodeKind.isExpression, NodeKind.encloses]

theorem definitions_of_inExpression (every : n.Every (·.kind.inExpression = true)) :
    n.definitions = [] := by
  have top := every.top
  unfold Node.definitions
  split
  next kind => simp [kind, NodeKind.inExpression, NodeKind.isExpression] at top
  next kind => simp [kind, NodeKind.inExpression, NodeKind.isExpression] at top
  next =>
    rw [List.filter_eq_nil_iff]
    intro c member
    have inside := (every.child member).top
    rw [decide_eq_true_eq]
    intro parameter
    simp [parameter, NodeKind.inExpression, NodeKind.isExpression] at inside
  next => rfl

theorem still_of_inExpression (every : n.Every (·.kind.inExpression = true)) : n.Still :=
  ⟨every.mono fun _ inside => NodeKind.quiet_of_inExpression inside,
    fun _ member => definitions_of_inExpression (every.below member)⟩

theorem still_iff : n.Still ↔ ((n.kind ≠ .varSetValue ∧ n.kind.encloses = false) ∧
    n.definitions = []) ∧ ∀ c ∈ n.children, c.Still := by
  unfold Still Quiet
  rw [every_iff, every_iff (P := fun m : Node => m.definitions = [])]
  exact ⟨fun ⟨⟨top, below⟩, silent, quiet⟩ =>
      ⟨⟨top, silent⟩, fun c member => ⟨below c member, quiet c member⟩⟩,
    fun ⟨⟨top, silent⟩, below⟩ => ⟨⟨top, fun c member => (below c member).1⟩, silent,
      fun c member => (below c member).2⟩⟩

theorem still_of_parts (other : decide (n.kind = .varSetValue) = false) (flat : n.kind.encloses = false)
    (silent : n.kind.introduces = false) (each : ∀ c ∈ n.children, c.Still) : n.Still :=
  still_iff.mpr ⟨⟨⟨of_decide_eq_false other, flat⟩, definitions_of_kind silent⟩, each⟩

theorem still_of_leaf (other : decide (n.kind = .varSetValue) = false) (flat : n.kind.encloses = false)
    (silent : n.kind.introduces = false) (childless : n.children = []) : n.Still :=
  still_of_parts other flat silent (by simp [childless])

theorem still_name {token : Token} : (leaf .identifier token).Still :=
  still_of_leaf rfl rfl rfl rfl

theorem quiet_of_parts (other : decide (n.kind = .varSetValue) = false) (flat : n.kind.encloses = false)
    (parts : ∀ c ∈ n.children, c.Still) : n.Quiet :=
  every_iff.mpr ⟨⟨of_decide_eq_false other, flat⟩, fun c member => (parts c member).1⟩

end Node

theorem typeNode_still {token : Option Token} {type : Datatype} {line : Nat} :
    (typeNode token type line).Still := by
  cases token with
  | none | some => exact Node.still_of_leaf rfl rfl rfl rfl

namespace LeadingModifiers

variable {mods found : LeadingModifiers} {tokens rest : List Token} {line : Nat}

theorem node_still : (mods.node line).Still := by
  refine Node.still_of_parts rfl rfl rfl fun c member => ?_
  obtain ⟨token, _, rfl⟩ := List.mem_map.mp member
  exact Node.still_of_leaf rfl rfl rfl rfl

-- The tokens spell the modifiers.
def Spelled (mods : LeadingModifiers) : Prop :=
  mods.tokens.filterMap (·.kind.modifier?) = mods.set.toList

theorem spelled_empty : Spelled {} := rfl

theorem Spelled.concat {t : Token} {m : Modifier} {set : Modifiers} (spelled : mods.Spelled)
    (kind : t.kind = .modifier m) (inserted : mods.set.insert m = .ok set) :
    Spelled ⟨set, mods.tokens ++ [t]⟩ := by
  unfold Spelled at spelled ⊢
  rw [Modifiers.toList_insert inserted, ← spelled]
  simp [kind, TokenKind.modifier?]

theorem readFrom_spelled {conflict : Modifier → Modifier → Fault} (spelled : mods.Spelled)
    (read : readFrom conflict mods tokens = .ok (found, rest)) : found.Spelled := by
  induction tokens generalizing mods with
  | nil =>
      cases read
      exact spelled
  | cons t later ih =>
      unfold readFrom at read
      split at read
      next m kind =>
        split at read
        next set inserted => exact ih (spelled.concat kind inserted) read
        next => simp at read
      next =>
        cases read
        exact spelled

theorem read_spelled (readAll : read tokens = .ok (found, rest)) : found.Spelled :=
  readFrom_spelled spelled_empty readAll

theorem Spelled.words {n : Node} {parts : List Node} (spelled : mods.Spelled)
    (children : n.children = mods.node line :: parts) : n.modifierWords = mods.set.toList := by
  rw [← spelled]
  unfold Node.modifierWords Node.child?
  rw [children, List.find?_cons_of_pos (by simp [LeadingModifiers.node, Node.new])]
  show (mods.tokens.map (Node.leaf .modifier)).filterMap _ = _
  rw [List.filterMap_map]
  rfl

end LeadingModifiers

/-- A parameter whose node shows its name and its modifiers. -/
structure ReadParameter.Spelled (p : ReadParameter) : Prop where
  kind : p.node.kind = .parameter
  title : p.node.title = some p.parameter.name
  words : p.node.modifierWords = p.parameter.modifiers.toList
  parts : ∀ c ∈ p.node.children, c.Still

namespace Parameter

variable {env : Environment} {tokens rest : List Token} {mods found : LeadingModifiers}

theorem readModifiers_spelled (spelled : mods.Spelled)
    (read : readModifiers mods tokens = .ok (found, rest)) : found.Spelled := by
  induction tokens generalizing mods with
  | nil =>
      cases read
      exact spelled
  | cons t later ih =>
      unfold readModifiers at read
      split at read
      next m kind =>
        split at read
        next => simp at read
        next =>
          split at read
          next set inserted => exact ih (spelled.concat kind inserted) read
          next => simp at read
      next =>
        cases read
        exact spelled

theorem read_spelled {others : List ReadParameter} {place : Token} {part : List Token}
    {p : ReadParameter} (read : Parameter.read env others place part = .ok p) : p.Spelled := by
  cases part with
  | nil => simp [Parameter.read] at read
  | cons first tail =>
      simp only [Parameter.read, Checked.bind_eq_ok] at read
      obtain ⟨_, _, ⟨mods, rest⟩, modifiers, read⟩ := read
      cases rest with
      | nil => simp at read
      | cons typeToken later =>
          simp only [Checked.bind_eq_ok] at read
          obtain ⟨⟨shown, _⟩, same, _, _, type, _, name, _, read⟩ := read
          cases same
          split at read
          next => simp at read
          next =>
            simp only [Checked.bind_eq_ok] at read
            obtain ⟨_, _, same⟩ := read
            cases same
            have spelled := readModifiers_spelled LeadingModifiers.spelled_empty modifiers
            refine ⟨rfl, rfl, spelled.words rfl, ?_⟩
            simpa [Node.new] using ⟨LeadingModifiers.node_still, Node.still_name, typeNode_still⟩

theorem readAll_spelled {place : Token} {before found : List ReadParameter}
    {parts : List (List Token)} (spelled : ∀ p ∈ before, p.Spelled)
    (read : readAll env place before parts = .ok found) : ∀ p ∈ found, p.Spelled := by
  induction parts generalizing before with
  | nil =>
      cases read
      exact spelled
  | cons part parts ih =>
      simp only [readAll, Checked.bind_eq_ok] at read
      obtain ⟨p, first, later⟩ := read
      refine ih (fun q member => ?_) later
      rcases List.mem_append.mp member with member | member
      · exact spelled q member
      · rw [List.mem_singleton.mp member]
        exact read_spelled first

theorem readList_spelled {parameters : List ReadParameter}
    (read : readList env tokens = .ok (parameters, rest)) : ∀ p ∈ parameters, p.Spelled := by
  unfold readList at read
  split at read
  next =>
    cases read
    simp
  next =>
    split at read
    next =>
      split at read
      next => simp at read
      next =>
        cases read
        simp
      next =>
        simp only [Checked.bind_eq_ok] at read
        obtain ⟨all, found, same⟩ := read
        cases same
        exact readAll_spelled (by simp) found
    next =>
      cases read
      simp

end Parameter

theorem Header.read_spelled {env : Environment} {mods : LeadingModifiers} {keyword : Token}
    {tokens : List Token} {h : Header} (read : Header.read env mods keyword tokens = .ok h) :
    ∀ p ∈ h.parameters, p.Spelled := by
  simp only [Header.read, Checked.bind_eq_ok] at read
  obtain ⟨name, _, ⟨type, token, later⟩, _, ⟨parameters, rest⟩, list, hostClass, _, _, _, _, _, same⟩ :=
    read
  cases same
  exact Parameter.readList_spelled list

theorem Header.parametersNode_parts {h : Header} {line : Nat} (spelled : ∀ p ∈ h.parameters, p.Spelled) :
    ∀ c ∈ (h.parametersNode line).children, c.Still := by
  intro c member
  obtain ⟨p, inside, rfl⟩ := List.mem_map.mp member
  obtain ⟨kind, _, _, parts⟩ := spelled p inside
  exact Node.still_of_parts (by rw [kind]; rfl) (by rw [kind]; rfl) (by rw [kind]; rfl) parts

theorem Header.definitions_parametersNode {h : Header} {line : Nat}
    (spelled : ∀ p ∈ h.parameters, p.Spelled) :
    (h.parametersNode line).definitions = h.parameters.map ReadParameter.node := by
  show (h.parameters.map ReadParameter.node).filter (·.kind = .parameter) = _
  rw [List.filter_eq_self]
  intro c member
  obtain ⟨p, inside, rfl⟩ := List.mem_map.mp member
  simpa using (spelled p inside).kind

section Tokens

variable {tokens inner after part : List Token} {t : Token}

theorem subset_splitClosing {depth : Nat}
    (found : splitClosing depth tokens = some (inner, after)) : inner ⊆ tokens := by
  induction tokens generalizing depth inner with
  | nil => cases found
  | cons t rest ih =>
      unfold splitClosing at found
      split at found
      next =>
        cases found
        exact List.nil_subset _
      next =>
        obtain ⟨⟨inner, _⟩, later, same⟩ := Option.map_eq_some_iff.mp found
        cases same
        exact List.cons_subset_cons t (ih later)

theorem subset_unwrap (found : unwrap tokens = some (t, inner)) : inner ⊆ tokens := by
  unfold unwrap at found
  split at found
  next => cases found
  next opening rest =>
    split at found
    next closing =>
      cases found
      exact List.Subset.trans (subset_splitClosing closing) (List.subset_cons_self _ _)
    next => cases found

theorem mem_of_splitCommas (member : part ∈ splitCommas tokens) (inside : t ∈ part)
    (other : t.kind ≠ .comma) : t ∈ tokens := by
  have comma : ∀ u : Token, u.kind = .comma → decide (u.kind ≠ .comma) = false := by
    intro u kind
    simp [kind]
  have kept : t ∈ tokens.filter (·.kind ≠ .comma) := by
    rw [← filter_splitParts comma 0]
    exact List.mem_filter.mpr ⟨List.mem_flatten.mpr ⟨part, member, inside⟩, by simpa using other⟩
  exact (List.mem_filter.mp kept).1

theorem mem_of_dropLastOf {kind : TokenKind} {first : Token} {place : String} {rest kept : List Token}
    (dropped : dropLastOf kind first rest place = .ok kept) (member : t ∈ kept) : t ∈ rest := by
  obtain ⟨_, rfl⟩ := dropLastOf_eq_ok dropped
  exact List.dropLast_subset rest member

theorem ForHead.read_implied {keyword : Token} {head : ForHead}
    (read : ForHead.read keyword tokens = .ok head) (implied : head.implied = true) :
    ∃ v, ∃ arrow ∈ tokens, arrow.kind = .arrow ∧
      head.step = [v, .synthetic .increment "++" arrow] := by
  unfold ForHead.read at read
  split at read
  next =>
    cases read
    cases implied
  next start range parts =>
    simp only [Checked.bind_eq_ok] at read
    obtain ⟨⟨condition, step⟩, desugared, same⟩ := read
    cases same
    unfold desugarRange at desugared
    cases range with
    | nil => simp at desugared
    | cons v rest =>
        simp only [Checked.bind_eq_ok] at desugared
        obtain ⟨_, _, desugared⟩ := desugared
        cases rest with
        | nil => simp at desugared
        | cons arrow stop =>
            simp only [Checked.bind_eq_ok, Checked.require_eq_ok, Bool.and_eq_true, Token.is_iff]
              at desugared
            obtain ⟨_, ⟨_, kind⟩, same⟩ := desugared
            cases same
            have inside : v :: arrow :: stop ∈ splitCommas tokens := by simp [parts]
            exact ⟨v, arrow, mem_of_splitCommas inside (by simp)
              (by rw [kind]; decide), kind, rfl⟩
  next => simp at read

end Tokens

/-- The node of a definition shows the variable. -/
structure Variable.ShownBy (v : Variable) (n : Node) : Prop where
  title : n.title = some v.name
  words : n.modifierWords = v.modifiers.toList
  kind : n.kind = .varDefinition ∧ v.initialized = false ∨
    n.kind = .varDefAndSetValue ∧ v.initialized = true
  parts : ∀ c ∈ n.children, c.Still

namespace Environment

variable {env defined stepped after : Environment} {setting : Setting} {mods : LeadingModifiers}
  {typeToken stop keyword : Token} {tokens rest : List Token} {n start condition step : Node}
  {implied : Bool} {accepted : Accepted}

section Still

theorem Means.still {e : Typed} (means : env.Means e) : e.node.Still :=
  Node.still_of_inExpression means.correct.inside

theorem Decides.still (decides : env.Decides n) : n.Still := by
  obtain ⟨e, line, means, _, rfl⟩ := decides
  exact Node.still_of_parts rfl rfl rfl (by simpa [Node.new] using means.still)

theorem Calls.still (calls : env.Calls n) : n.Still := by
  obtain ⟨e, means, _, rfl⟩ := calls
  exact means.still

theorem Assigns.parts (assigns : env.Assigns implied after n) :
    n.kind = .varSetValue ∧ ∀ c ∈ n.children, c.Still := by
  obtain ⟨op, _, valueLine, _, _, _, means⟩ := assigns
  have operator : (Node.leaf .operator op).Still := Node.still_of_leaf rfl rfl rfl rfl
  have value : (Node.new .value valueLine [_]).Still :=
    Node.still_of_parts rfl rfl rfl (by simpa [Node.new] using means.still)
  exact ⟨rfl, by simpa [Node.new] using ⟨Node.still_name, operator, value⟩⟩

end Still

-- A block takes a variable that its node shows.
def Places (env declared : Environment) (n : Node) : Prop :=
  ∃ v : Variable, v.ShownBy n ∧ env.declareVariable? .inBlock v = some declared

theorem newVariable_places (spelled : mods.Spelled)
    (read : env.newVariable .inBlock mods typeToken tokens stop = .ok (defined, n)) :
    env.Places defined n := by
  obtain ⟨v, name, _, _, _, _, introduces, added, rfl⟩ := newVariable_eq_ok read
  refine ⟨v, ?_, added⟩
  have words : ∀ {m : Node} {more : List Node}, m.children = mods.node typeToken.streamLine :: more →
      m.modifierWords = v.modifiers.toList := by
    intro m more children
    rw [spelled.words children, introduces.modifiers]
  have initialized := introduces.initialized
  have initializes := introduces.initializes
  have title := introduces.named.symm
  cases value : v.value with
  | none =>
      rw [value] at initialized
      refine ⟨congrArg some title, words rfl, .inl ⟨rfl, initialized⟩, ?_⟩
      simpa [variableNode, Node.new] using
        ⟨LeadingModifiers.node_still, Node.still_name, typeNode_still⟩
  | some value' =>
      rw [value] at initialized
      obtain ⟨e, means, rfl, _⟩ := initializes value' value
      refine ⟨congrArg some title, words rfl, .inr ⟨rfl, initialized⟩, ?_⟩
      have stored : (Node.new .value typeToken.streamLine [e.node]).Still :=
        Node.still_of_parts rfl rfl rfl (by simpa [Node.new] using means.still)
      simpa [variableNode, Node.new] using
        ⟨LeadingModifiers.node_still, Node.still_name, typeNode_still, stored⟩

theorem loopDefinition_places (read : env.loopDefinition tokens keyword = .ok (defined, n)) :
    env.Places defined n := by
  simp only [loopDefinition, Checked.bind_eq_ok] at read
  obtain ⟨⟨mods, rest⟩, modifiers, read⟩ := read
  cases rest with
  | nil => simp at read
  | cons first rest =>
      simp only [Checked.bind_eq_ok] at read
      obtain ⟨_, _, ⟨defined, definition⟩, found, _, _, same⟩ := read
      cases same
      exact newVariable_places (LeadingModifiers.read_spelled modifiers) found

theorem Assigns.not_definition (assigns : env.Assigns implied after n) :
    n.kind ≠ .varDefinition ∧ n.kind ≠ .varDefAndSetValue := by
  rw [assigns.parts.1]
  exact ⟨nofun, nofun⟩

theorem statement_places {first head : Token} {tail : List Token} {placement : Placement}
    {node : Node} (read : env.statement setting first rest = ⟨defined, .ok (some node)⟩)
    (modifiers : LeadingModifiers.read (first :: rest) = .ok (mods, head :: tail))
    (starts : startsVariable head = true) (block : env.frame.isBlock = true)
    (defines : env.Defines placement defined node) : env.Places defined node := by
  have noEnum : ∀ id e, env.frame ≠ .enum id e := by
    intro id e frame
    rw [frame] at block
    cases block
  have kind : node.kind = .varDefinition ∨ node.kind = .varDefAndSetValue := by
    obtain ⟨_, _, _⟩ := defines
    unfold variableNode
    split <;> simp [Node.new]
  have found : env.read setting mods head tail = .ok ⟨defined, some node⟩ :=
    statement_read read modifiers (.inr noEnum)
  cases read_starts starts found with
  | defines _ found =>
      simp only [variableStatement, Checked.bind_eq_ok] at found
      obtain ⟨definition, _, placement, placed, found⟩ := found
      have inBlock : placement = .inBlock := by
        unfold Environment.placement at placed
        cases frame : env.frame with
        | block =>
            rw [frame] at placed
            cases placed
            rfl
        | _ => rw [frame] at block; cases block
      subst inBlock
      simp only [decide_true, Bool.or_true, if_true, Checked.bind_eq_ok] at found
      obtain ⟨⟨_, _⟩, made, same⟩ := found
      cases same
      exact newVariable_places (LeadingModifiers.read_spelled modifiers) made
  | calls _ _ found =>
      simp only [callStatement, Checked.bind_eq_ok, Checked.require_eq_ok, decide_eq_true_eq] at found
      obtain ⟨_, _, _, _, _, _, e, _, _, call, same⟩ := found
      cases same
      rcases kind with kind | kind <;> (rw [call] at kind; cases kind)
  | assigns _ _ _ found =>
      simp only [assignment, Checked.bind_eq_ok] at found
      obtain ⟨_, _, _, _, _, _, ⟨_, _⟩, assigned, same⟩ := found
      cases same
      obtain ⟨first, second⟩ := (assign_assigns assigned).not_definition
      rcases kind with kind | kind
      · exact absurd kind first
      · exact absurd kind second

theorem assign_operator {target op : Token}
    (read : env.assign implied target op tokens = .ok (after, n)) :
    (n.child? .operator).bind Node.token = some op := by
  simp only [assign, Checked.bind_eq_ok] at read
  obtain ⟨_, _, _, _, _, _, _, _, read⟩ := read
  split at read
  all_goals
    simp only [Checked.bind_eq_ok] at read
    obtain ⟨_, _, same⟩ := read
    cases same
    rfl

/-- The head of a loop: a variable, a condition and a step, which is implied for a range only. -/
structure Loops (env : Environment) (tokens : List Token) (defined : Environment) (implied : Bool)
    (stepped : Environment) (start condition step : Node) : Prop where
  places : env.Places defined start
  defines : env.Defines .inBlock defined start
  decides : defined.Decides condition
  advances : defined.Advances implied stepped step
  steps : implied = true → step.StepsRange tokens

theorem openFor_loops (read : env.openFor setting mods keyword rest = .ok accepted) :
    ∃ defined stepped start condition step implied,
      (env.push (.block .loopHead {}) (.new .forFakeScope keyword.streamLine)).Loops rest defined
        implied stepped start condition step ∧
      accepted = ⟨([start, condition, .new .forInstruct keyword.streamLine [step]].foldl
        (fun env node => env.append setting node) stepped).push (.block .forLoop {})
          (.new .forStatement keyword.streamLine), none⟩ := by
  simp only [openFor, Checked.bind_eq_ok] at read
  obtain ⟨_, _, _, _, header, dropped, read⟩ := read
  split at read
  next wrapped =>
    simp only [Checked.bind_eq_ok, Except.ok.injEq, exists_eq_left'] at read
    obtain ⟨head, parts, ⟨defined, start⟩, definition, condition, decides, ⟨stepped, step⟩,
      advances, same⟩ := read
    refine ⟨defined, stepped, start, condition, step, head.implied,
      ⟨loopDefinition_places definition, loopDefinition_defines definition,
        conditionNode_decides decides, loopStep_advances advances, ?_⟩, same.symm⟩
    intro implied
    obtain ⟨v, arrow, member, kind, range⟩ := ForHead.read_implied parts implied
    rw [range] at advances
    exact ⟨arrow, mem_of_dropLastOf dropped (subset_unwrap wrapped member), kind,
      assign_operator advances⟩
  next => simp at read

end Environment

end MiLanguage
