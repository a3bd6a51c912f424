import MiLanguage.Proofs.Statement.Accepts

set_option autoImplicit false

namespace MiLanguage

section Members

theorem filter_prepend {p : Token → Bool} {t : Token} {tokens : List Token}
    {parts : List (List Token)} (same : parts.flatten.filter p = tokens.filter p) :
    (match parts with
      | [] => [[t]]
      | part :: parts => (t :: part) :: parts).flatten.filter p = (t :: tokens).filter p := by
  rw [List.filter_cons, ← same]
  cases parts <;> simp [List.filter_cons]

theorem filter_splitParts {p : Token → Bool} (comma : ∀ t, t.kind = .comma → p t = false) (depth : Nat)
    (tokens : List Token) : (splitParts depth tokens).flatten.filter p = tokens.filter p := by
  induction tokens generalizing depth with
  | nil => rfl
  | cons t tokens ih =>
      unfold splitParts
      split
      next kind =>
        rw [List.flatten_cons, List.nil_append, List.filter_cons_of_neg (by simp [comma t kind])]
        exact ih 0
      next =>
        exact filter_prepend (ih _)

namespace Environment

theorem memberNames_eq_ok {last : Token} {parts : List (List Token)} {names : List Token}
    (read : memberNames last parts = .ok names) :
    parts.flatten = names ∧ ∀ name ∈ names, name.kind = .identifier := by
  induction parts generalizing names with
  | nil =>
      cases read
      exact ⟨rfl, by simp⟩
  | cons part parts ih =>
      match part with
      | [] => simp [memberNames] at read
      | _ :: _ :: _ => simp [memberNames] at read
      | [t] =>
          simp only [memberNames, Checked.bind_eq_ok] at read
          obtain ⟨name, declared, later, rest, same⟩ := read
          cases same
          obtain ⟨here, kind, _⟩ := declaredName_eq_ok declared
          cases here
          obtain ⟨parts, identifiers⟩ := ih rest
          refine ⟨by simp [parts], ?_⟩
          intro u member
          rcases List.mem_cons.mp member with rfl | member
          · exact kind
          · exact identifiers u member

theorem readMembers_eq_ok {mods : LeadingModifiers} {first : Token} {rest names : List Token}
    (read : readMembers mods first rest = .ok names) :
    names = (first :: rest).filter (·.kind = .identifier) := by
  simp only [readMembers, Checked.bind_eq_ok] at read
  obtain ⟨_, _, dropped, drops, read⟩ := read
  obtain ⟨parts, identifiers⟩ := memberNames_eq_ok read
  obtain ⟨kind, rfl⟩ := dropLastOf_eq_ok drops
  have all : names.filter (·.kind = .identifier) = names := by
    rw [List.filter_eq_self]
    simpa using identifiers
  have comma : ∀ t : Token, t.kind = .comma → decide (t.kind = .identifier) = false := by
    intro t kind
    simp [kind]
  rw [← all, ← parts, splitCommas, filter_splitParts comma]
  have last := List.dropLast_append_getLast? ((first :: rest).getLast (by simp))
    (List.getLast?_eq_some_getLast (by simp))
  have kind : ((first :: rest).getLast (by simp)).kind = .semicolon := by
    rw [List.getLast?_eq_some_getLast (by simp)] at kind
    exact kind
  conv_rhs => rw [← last]
  simp [kind]

theorem addMembers_eq {e extended : EnumDeclaration} {names : List Token}
    (added : addMembers e names = (extended, none)) :
    extended = { e with members := e.members ++ names.map Token.lexeme } := by
  induction names generalizing e with
  | nil =>
      cases added
      simp
  | cons name names ih =>
      unfold addMembers EnumDeclaration.addMember? at added
      split at added
      next found =>
        split at found
        next => cases found
        next =>
          cases found
          rw [ih added]
          simp
      next => cases added

end Environment

end Members

-- The text behind the word that a variable's definition starts with: a name, and `=` if there is a
-- value.
def Names (tail : List Token) (v : Variable) (name : Token) : Prop :=
  tail.head? = some name ∧ name.kind = .identifier ∧ v.name = name.lexeme ∧
    v.value.isSome = tail.tail.head?.any (·.is .assign)

-- The semicolon at the end is no `=`.
theorem Names.of_dropLast {first name : Token} {rest : List Token} {v : Variable}
    (names : Names rest.dropLast v name) (ends : Ends first rest .semicolon) :
    Names rest v name := by
  obtain ⟨head, identifier, named, valued⟩ := names
  match rest with
  | [] => simp at head
  | [_] => simp at head
  | [_, last] =>
      have last : last.kind = .semicolon := ends
      exact ⟨by simpa using head, identifier, named, by simpa [Token.is, last] using valued⟩
  | _ :: _ :: _ :: _ => exact ⟨by simpa using head, identifier, named, by simpa using valued⟩

theorem Names.length {first name : Token} {rest : List Token} {v : Variable}
    (names : Names rest v name) (ends : Ends first rest .semicolon) : 2 ≤ rest.length := by
  obtain ⟨head, identifier, _⟩ := names
  match rest with
  | [] => cases head
  | [_] =>
      cases head
      have kind : name.kind = .semicolon := ends
      rw [identifier] at kind
      cases kind
  | _ :: _ :: _ => simp

theorem initialTokens_eq_ok {rest : List Token} {initial : Option (Token × List Token)}
    (read : initialTokens rest = .ok initial) :
    initial.isSome = rest.head?.any (·.is .assign) := by
  cases rest with
  | nil =>
      cases read
      rfl
  | cons t rest =>
      simp only [initialTokens] at read
      split at read
      next assign =>
        cases read
        simpa using assign.symm
      next => simp at read

namespace Environment

variable {env : Environment} {setting : Setting} {mods : LeadingModifiers}

theorem newVariable_names {placement : Placement} {typeToken stop : Token} {tokens : List Token}
    {after : Environment} {node : Node}
    (read : env.newVariable placement mods typeToken tokens stop = .ok (after, node)) :
    ∃ v name, Names tokens v name ∧ env.Introduces typeToken name mods v ∧
      env.declareVariable? placement v = some after ∧
      node = variableNode typeToken name mods v.type v.value := by
  obtain ⟨v, name, initial, named, initially, valued, introduces, added, same⟩ :=
    newVariable_eq_ok read
  obtain ⟨head, kind, _⟩ := declaredName_eq_ok named
  have value := valued.trans (initialTokens_eq_ok initially)
  exact ⟨v, name, ⟨head, kind, introduces.named, value⟩, introduces, added, same⟩

theorem variableStatement_eq_ok {typeToken : Token} {rest : List Token} {accepted : Accepted}
    (read : env.variableStatement setting mods typeToken rest = .ok accepted) :
    ∃ placement, env.placement typeToken = .ok placement ∧
      (((setting.declaring = true ∨ placement = .inBlock) ∧ ∃ v name declared,
          Names rest v name ∧ env.Introduces typeToken name mods v ∧
          env.declareVariable? placement v = some declared ∧
          accepted = ⟨declared, some (variableNode typeToken name mods v.type v.value)⟩) ∨
        (setting.declaring = false ∧ placement ≠ .inBlock ∧ Ends typeToken rest .semicolon ∧
          accepted = ⟨env, env.knownVariable placement mods typeToken rest.dropLast⟩)) := by
  simp only [variableStatement, Checked.bind_eq_ok] at read
  obtain ⟨definition, drops, placement, place, read⟩ := read
  refine ⟨placement, place, ?_⟩
  obtain ⟨kind, rfl⟩ := dropLastOf_eq_ok drops
  split at read
  next reads =>
    simp only [Checked.bind_eq_ok] at read
    obtain ⟨⟨declared, node⟩, found, same⟩ := read
    cases same
    obtain ⟨v, name, names, introduces, added, rfl⟩ := newVariable_names found
    exact .inl ⟨by simpa using reads, v, name, declared, names.of_dropLast kind, introduces, added,
      rfl⟩
  next kept =>
    simp only [Bool.or_eq_true, decide_eq_true_eq, not_or, Bool.not_eq_true] at kept
    cases read
    exact .inr ⟨kept.1, kept.2, kind, rfl⟩

theorem nameStatement_eq_ok {first : Token} {rest : List Token} {accepted : Accepted}
    (read : env.nameStatement setting mods first rest = .ok accepted) :
    ∃ second later, rest = second :: later ∧
      ((second.kind = .identifier ∧ env.variableStatement setting mods first rest = .ok accepted) ∨
        (second.kind = .leftParen ∧ env.callStatement mods first rest = .ok accepted) ∨
        (second.kind.isAssignment = true ∧
          env.assignment mods first second later = .ok accepted)) := by
  cases rest with
  | nil => simp [nameStatement] at read
  | cons second later =>
      refine ⟨second, later, rfl, ?_⟩
      simp only [nameStatement] at read
      split at read
      next kind => exact .inl ⟨kind, read⟩
      next kind => exact .inr (.inl ⟨kind, read⟩)
      next =>
        split at read
        next assigns => exact .inr (.inr ⟨assigns, read⟩)
        next => simp at read

theorem statement_read {first head : Token} {tail rest : List Token} {accepted : Accepted}
    (read : env.statement setting first tail = ⟨accepted.environment, .ok accepted.node⟩)
    (modifiers : LeadingModifiers.read (first :: tail) = .ok (mods, head :: rest))
    (other : head.kind ≠ .identifier ∨ ∀ id e, env.frame ≠ .enum id e) :
    env.read setting mods head rest = .ok accepted := by
  simp only [statement, modifiers, dispatch] at read
  split at read
  next id e kind frame =>
    rcases other with other | other
    · exact absurd kind other
    · exact absurd frame (other id e)
  next =>
    cases found : env.read setting mods head rest with
    | ok accepted' =>
        cases accepted'
        cases accepted
        simp only [found, Outcome.ofChecked] at read
        cases read
        rfl
    | error => simp [found, Outcome.ofChecked] at read

theorem statement_members {first head : Token} {tail rest : List Token} {accepted : Accepted}
    {id : ModuleId} {e : EnumDeclaration}
    (read : env.statement setting first tail = ⟨accepted.environment, .ok accepted.node⟩)
    (modifiers : LeadingModifiers.read (first :: tail) = .ok (mods, head :: rest))
    (kind : head.kind = .identifier) (frame : env.frame = .enum id e) :
    env.declareMembers setting id e mods head rest =
      (accepted.environment, .ok accepted.node) := by
  simp only [statement, modifiers, dispatch, kind, frame] at read
  generalize env.declareMembers setting id e mods head rest = outcome at read
  obtain ⟨after, result⟩ := outcome
  cases accepted
  cases read
  rfl

/-- The three statements that a name may start; a type starts the first one. -/
inductive Starts (env : Environment) (setting : Setting) (mods : LeadingModifiers) (head : Token)
    (rest : List Token) (accepted : Accepted) : Prop
  | defines :
      (head.kind = .identifier → rest.head?.map Token.kind = some .identifier) →
      env.variableStatement setting mods head rest = .ok accepted →
      Starts env setting mods head rest accepted
  | calls :
      head.kind = .identifier → rest.head?.map Token.kind = some .leftParen →
      env.callStatement mods head rest = .ok accepted → Starts env setting mods head rest accepted
  | assigns {op : Token} {later : List Token} :
      head.kind = .identifier → rest = op :: later → op.kind.isAssignment = true →
      env.assignment mods head op later = .ok accepted → Starts env setting mods head rest accepted

theorem read_starts {head : Token} {rest : List Token} {accepted : Accepted}
    (starts : startsVariable head = true)
    (read : env.read setting mods head rest = .ok accepted) :
    Starts env setting mods head rest accepted := by
  simp only [startsVariable, Bool.or_eq_true, decide_eq_true_eq] at starts
  rcases starts with (kind | kind) | kind
  · exact .defines (by simp [kind]) (by simpa [Environment.read, kind] using read)
  · simp only [Environment.read, kind] at read
    obtain ⟨second, later, rfl, ⟨name, read⟩ | ⟨paren, read⟩ | ⟨assigns, read⟩⟩ :=
      nameStatement_eq_ok read
    · exact .defines (by simp [name]) read
    · exact .calls kind (by simp [paren]) read
    · exact .assigns kind rfl assigns read
  · refine .defines (by intro same; simp [same, TokenKind.isDatatype] at kind) ?_
    unfold Environment.read at read
    split at read
    all_goals simp_all [TokenKind.isDatatype]

-- Outside of functions, what starts as the definition of a variable is one.
theorem read_variable {head : Token} {rest : List Token} {accepted : Accepted}
    (starts : startsVariable head = true) (bare : env.frame.isBlock = false)
    (read : env.read setting mods head rest = .ok accepted) :
    (head.kind = .identifier → rest.head?.map Token.kind = some .identifier) ∧
      env.variableStatement setting mods head rest = .ok accepted := by
  have outside : ∀ done : Unit, env.requireBlock head ≠ .ok done := by
    intro done block
    rw [requireBlock_eq_ok block] at bare
    cases bare
  cases read_starts starts read with
  | defines second read => exact ⟨second, read⟩
  | calls _ _ read =>
      simp only [callStatement, Checked.bind_eq_ok] at read
      obtain ⟨_, _, done, block, _⟩ := read
      exact absurd block (outside done)
  | assigns _ _ _ read =>
      simp only [assignment, Checked.bind_eq_ok] at read
      obtain ⟨_, _, done, block, _⟩ := read
      exact absurd block (outside done)

end Environment

end MiLanguage
