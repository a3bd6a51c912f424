import MiLanguage.Proofs.Checked
import MiLanguage.Statement.Header

set_option autoImplicit false

namespace MiLanguage

-- A statement that starts with `first` has a last token of that kind.
def Ends (first : Token) (rest : List Token) (kind : TokenKind) : Prop :=
  (rest.getLast?.getD first).kind = kind

theorem ends_of_suffix {first last : Token} {rest : List Token} (suffix : [last] <:+ rest) :
    Ends first rest last.kind := by
  obtain ⟨front, same⟩ := suffix
  simp [Ends, ← same]

namespace LeadingModifiers

theorem readFrom_append {conflict : Modifier → Modifier → Fault} {mods found : LeadingModifiers}
    {tokens rest : List Token} (read : readFrom conflict mods tokens = .ok (found, rest)) :
    ∃ more, found.tokens = mods.tokens ++ more ∧ tokens = more ++ rest ∧
      (∀ t ∈ more, t.kind.isModifier = true) ∧ ∀ t, rest.head? = some t → t.kind.isModifier = false := by
  induction tokens generalizing mods with
  | nil =>
      cases read
      exact ⟨[], by simp⟩
  | cons t later ih =>
      unfold readFrom at read
      split at read
      next m kind =>
        split at read
        next set _ =>
          obtain ⟨more, tokens, rest, all, stops⟩ := ih read
          refine ⟨t :: more, by simp [tokens], by simp [rest], ?_, stops⟩
          intro u member
          rcases List.mem_cons.mp member with same | member
          · rw [same, kind]; rfl
          · exact all u member
        next => simp at read
      next other =>
        cases read
        refine ⟨[], by simp, rfl, by simp, ?_⟩
        intro u head
        cases head
        cases kind : t.kind with
        | modifier m => exact absurd kind (other m)
        | _ => rfl

-- Modifiers stand in front of a statement, and all of them do.
theorem read_append {mods : LeadingModifiers} {tokens rest : List Token}
    (found : read tokens = .ok (mods, rest)) :
    tokens = mods.tokens ++ rest ∧ (∀ t ∈ mods.tokens, t.kind.isModifier = true) ∧
      ∀ t, rest.head? = some t → t.kind.isModifier = false := by
  obtain ⟨more, same, tokens, facts⟩ := readFrom_append found
  simp only [List.nil_append] at same
  rw [same]
  exact ⟨tokens, facts⟩

end LeadingModifiers

theorem ends_of_read {first head : Token} {rest tail : List Token} {mods : LeadingModifiers}
    {kind : TokenKind} (ends : Ends head tail kind)
    (read : LeadingModifiers.read (first :: rest) = .ok (mods, head :: tail)) :
    Ends first rest kind := by
  have last := congrArg List.getLast? (LeadingModifiers.read_append read).1
  rw [List.getLast?_append, List.getLast?_cons, List.getLast?_cons] at last
  unfold Ends at ends ⊢
  rw [Option.some.inj last]
  exact ends

theorem not_ends_of_read {first head : Token} {rest tail : List Token} {mods : LeadingModifiers}
    {kind other : TokenKind} (ends : Ends first rest kind)
    (read : LeadingModifiers.read (first :: rest) = .ok (mods, head :: tail))
    (apart : kind ≠ other) : ¬Ends head tail other :=
  fun ends' => apart (ends.symm.trans (ends_of_read ends' read))

-- The node of a parameter shows its type.
def ReadParameter.Shown (p : ReadParameter) : Prop :=
  ∃ (mods : LeadingModifiers) (typeToken name : Token) (line : Nat),
    p.node = .new .parameter line
      [mods.node line, .leaf .identifier name, typeNode (some typeToken) p.parameter.type line]

-- The full meaning of a token that spells a type.
def Environment.Spells (env : Environment) (place : Token) (type : Datatype) : Prop :=
  ∃ nullable, env.resolveDatatype place nullable = .ok type

/-- The types that a variable may have. -/
structure Datatype.Storable (type : Datatype) : Prop where
  notNull : type.isNull = false
  notVoid : type.isVoid = false

namespace Environment.Spells

variable {env : Environment} {place : Token} {type : Datatype}

theorem cases (spells : env.Spells place type) :
    ∃ base nullable, type = .of base nullable ∧
      ∀ p, base = .primitive p → place.kind = .datatype p := by
  obtain ⟨nullable, resolved⟩ := spells
  unfold resolveDatatype at resolved
  split at resolved
  next kind =>
    cases resolved
    exact ⟨_, nullable, rfl, fun p same => by cases same; exact kind⟩
  next =>
    split at resolved
    next =>
      simp only [Checked.bind_eq_ok] at resolved
      obtain ⟨_, _, same⟩ := resolved
      cases same
      exact ⟨_, nullable, rfl, by simp⟩
    next =>
      split at resolved
      next =>
        simp only [Checked.bind_eq_ok] at resolved
        obtain ⟨_, _, same⟩ := resolved
        cases same
        exact ⟨_, nullable, rfl, by simp⟩
      next => simp at resolved
  next => simp at resolved

theorem notNull (spells : env.Spells place type) : type.isNull = false := by
  obtain ⟨base, nullable, rfl, _⟩ := spells.cases
  rfl

theorem storable (spells : env.Spells place type) (kind : place.kind ≠ .datatype .void) :
    type.Storable := by
  refine ⟨spells.notNull, ?_⟩
  obtain ⟨base, nullable, rfl, primitive⟩ := spells.cases
  cases base with
  | named => rfl
  | primitive p =>
      have isNot : p ≠ .void := fun same => kind (same ▸ primitive p rfl)
      simpa [Datatype.isVoid, Datatype.primitive?] using isNot

end Environment.Spells

/-- What a parameter takes from its tokens. -/
structure ReadParameter.Introduced (env : Environment) (p : ReadParameter) : Prop where
  shown : ∃ (mods : LeadingModifiers) (typeToken name : Token) (line : Nat),
    name.lexeme = p.parameter.name ∧ p.parameter.modifiers = mods.set ∧
      env.Spells typeToken p.parameter.type ∧ p.node = .new .parameter line
        [mods.node line, .leaf .identifier name, typeNode (some typeToken) p.parameter.type line]
  plain : isDotted p.parameter.name = false
  stored : p.parameter.type.Storable

theorem ReadParameter.Introduced.node {env : Environment} {p : ReadParameter}
    (introduced : p.Introduced env) : p.Shown := by
  obtain ⟨mods, typeToken, name, line, _, _, _, same⟩ := introduced.shown
  exact ⟨mods, typeToken, name, line, same⟩

namespace Parameter

theorem splitClosing_suffix {depth : Nat} {tokens inner after : List Token}
    (found : splitClosing depth tokens = some (inner, after)) : after <:+ tokens := by
  induction tokens generalizing depth inner with
  | nil => simp [splitClosing] at found
  | cons t rest ih =>
      unfold splitClosing at found
      split at found
      next => cases found; exact List.suffix_cons t after
      next =>
        obtain ⟨⟨inner, _⟩, later, same⟩ := Option.map_eq_some_iff.mp found
        cases same
        exact (ih later).trans (List.suffix_cons t rest)

theorem not_void_of_requireType {t : Token} {done : Unit} (typed : requireType t = .ok done) :
    t.kind ≠ .datatype .void := by
  intro void
  simp [requireType, void, TokenKind.isDatatype] at typed

theorem read_introduced {env : Environment} {others : List ReadParameter} {place : Token}
    {part : List Token} {p : ReadParameter} (found : read env others place part = .ok p) :
    p.Introduced env ∧ ∀ q ∈ others, q.parameter.name ≠ p.parameter.name := by
  cases part with
  | nil => simp [read] at found
  | cons first tail =>
      simp only [read, Checked.bind_eq_ok] at found
      obtain ⟨_, _, ⟨mods, rest⟩, _, found⟩ := found
      cases rest with
      | nil => simp at found
      | cons typeToken later =>
          simp only [Checked.bind_eq_ok] at found
          obtain ⟨⟨shown, _⟩, same, _, typed, type, resolved, name, named, found⟩ := found
          cases same
          split at found
          next => simp at found
          next =>
            simp only [Checked.bind_eq_ok, Checked.require_eq_ok] at found
            obtain ⟨_, fresh, same⟩ := found
            cases same
            refine ⟨⟨⟨mods, typeToken, name, name.streamLine, rfl, rfl, ⟨_, resolved⟩, rfl⟩, ?_, ?_⟩, ?_⟩
            · exact (declaredName_eq_ok named).2.2
            · exact Environment.Spells.storable ⟨_, resolved⟩ (not_void_of_requireType typed)
            · simpa using fresh

theorem readAll_introduced {env : Environment} {place : Token} {before found : List ReadParameter}
    {parts : List (List Token)} (introduced : ∀ p ∈ before, p.Introduced env)
    (distinct : (before.map (·.parameter.name)).Nodup)
    (read : readAll env place before parts = .ok found) :
    (∀ p ∈ found, p.Introduced env) ∧ (found.map (·.parameter.name)).Nodup := by
  induction parts generalizing before with
  | nil =>
      cases read
      exact ⟨introduced, distinct⟩
  | cons part parts ih =>
      simp only [readAll, Checked.bind_eq_ok] at read
      obtain ⟨p, head, read⟩ := read
      obtain ⟨here, fresh⟩ := read_introduced head
      refine ih ?_ ?_ read
      · intro q member
        rcases List.mem_append.mp member with member | member
        · exact introduced q member
        · rw [List.mem_singleton.mp member]
          exact here
      · simp only [List.map_append, List.map_cons, List.map_nil, List.nodup_append, distinct]
        simpa using fresh

theorem readList_introduced {env : Environment} {tokens rest : List Token}
    {parameters : List ReadParameter} (read : readList env tokens = .ok (parameters, rest)) :
    ((∀ p ∈ parameters, p.Introduced env) ∧ (parameters.map (·.parameter.name)).Nodup) ∧
      rest <:+ tokens := by
  unfold readList at read
  split at read
  next => cases read; exact ⟨by simp, List.suffix_rfl⟩
  next opening later =>
    have tail : later <:+ opening :: later := List.suffix_cons opening later
    split at read
    next =>
      split at read
      next => simp at read
      next found => cases read; exact ⟨by simp, (splitClosing_suffix found).trans tail⟩
      next inner after _ found =>
        simp only [Checked.bind_eq_ok] at read
        obtain ⟨all, readAll, same⟩ := read
        cases same
        exact ⟨readAll_introduced (by simp) (by simp) readAll,
          (splitClosing_suffix found).trans tail⟩
    next => cases read; exact ⟨by simp, List.suffix_rfl⟩

theorem readList_shown {env : Environment} {tokens rest : List Token}
    {parameters : List ReadParameter} (read : readList env tokens = .ok (parameters, rest)) :
    (∀ p ∈ parameters, p.Shown) ∧ rest <:+ tokens :=
  ⟨fun p member => ((readList_introduced read).1.1 p member).node, (readList_introduced read).2⟩

end Parameter

namespace Header

theorem readReturn_suffix {env : Environment} {mods : LeadingModifiers} {tokens rest : List Token}
    {last : Token} {type : Datatype} {token : Option Token}
    (read : readReturn env mods tokens last = .ok (type, token, rest)) : rest <:+ tokens := by
  unfold readReturn at read
  split at read
  next => simp at read
  next t later =>
    split at read
    next => cases read; exact List.suffix_cons t rest
    next =>
      split at read
      next => simp at read
      next name after =>
        have tail : after <:+ t :: name :: after :=
          (List.suffix_cons name after).trans (List.suffix_cons t _)
        split at read
        all_goals
          simp only [Checked.bind_eq_ok] at read
          obtain ⟨_, _, same⟩ := read
          cases same
          exact tail
    next => cases read; exact List.suffix_rfl
    next => cases read; exact List.suffix_rfl
    next => cases read; exact List.suffix_rfl
    next => simp at read

theorem readTail_ends {tokens : List Token} {last : Token} {hostClass : Option Token}
    (read : readTail tokens last = .ok hostClass) :
    (hostClass = none ∧ ∃ brace, tokens = [brace] ∧ brace.kind = .leftBrace) ∨
      ((∃ host, hostClass = some host) ∧ last.kind = .semicolon) := by
  cases tokens with
  | nil => simp [readTail] at read
  | cons t rest =>
      simp only [readTail] at read
      split at read
      next kind => cases read; exact .inl ⟨rfl, t, rfl, kind⟩
      next =>
        split at read
        next => simp at read
        next =>
          simp only [Checked.bind_eq_ok, Checked.require_eq_ok, Bool.and_eq_true,
            Token.is_iff] at read
          obtain ⟨_, _, _, ends, same⟩ := read
          cases same
          exact .inr ⟨⟨_, rfl⟩, ends.2⟩
      next => simp at read

/-- What a header says is read in the place where it stands. -/
structure Introduced (env : Environment) (h : Header) : Prop where
  plain : isDotted h.name.lexeme = false
  returnType : h.returnType = .void ∨ ∃ place, env.Spells place h.returnType
  returnToken : ∀ place, h.returnToken = some place → place.kind = .identifier →
    env.Spells place h.returnType
  parameters : ∀ p ∈ h.parameters, p.Introduced env
  distinct : (h.parameters.map (·.parameter.name)).Nodup

theorem readReturn_introduced {env : Environment} {mods : LeadingModifiers}
    {tokens rest : List Token} {last : Token} {type : Datatype} {token : Option Token}
    (read : readReturn env mods tokens last = .ok (type, token, rest)) :
    (type = .void ∨ ∃ place, env.Spells place type) ∧
      ∀ place, token = some place → place.kind = .identifier → env.Spells place type := by
  unfold readReturn at read
  split at read
  next => simp at read
  next t later =>
    split at read
    next => cases read; exact ⟨.inl rfl, by simp⟩
    next =>
      split at read
      next => simp at read
      next name after =>
        split at read
        all_goals
          simp only [Checked.bind_eq_ok] at read
          obtain ⟨found, resolved, same⟩ := read
          cases same
        next void =>
          cases resolved
          refine ⟨.inl rfl, ?_⟩
          rintro _ same kind
          cases same
          rw [(Token.is_iff _ _).mp void] at kind
          cases kind
        next =>
          refine ⟨.inr ⟨name, _, resolved⟩, ?_⟩
          rintro _ same _
          cases same
          exact ⟨_, resolved⟩
    next => cases read; exact ⟨.inl rfl, by simp⟩
    next => cases read; exact ⟨.inl rfl, by simp⟩
    next => cases read; exact ⟨.inl rfl, by simp⟩
    next => simp at read

theorem read_introduced {env : Environment} {mods : LeadingModifiers} {keyword : Token}
    {tokens : List Token} {h : Header} (read : Header.read env mods keyword tokens = .ok h) :
    h.Introduced env := by
  simp only [Header.read, Checked.bind_eq_ok] at read
  obtain ⟨name, named, ⟨type, token, later⟩, returned, ⟨parameters, rest⟩, list, hostClass, _, _, _,
    _, _, same⟩ := read
  cases same
  obtain ⟨⟨introduced, distinct⟩, _⟩ := Parameter.readList_introduced list
  obtain ⟨returnType, returnToken⟩ := readReturn_introduced returned
  exact ⟨(declaredName_eq_ok named).2.2, returnType, returnToken, introduced, distinct⟩

theorem read_eq_ok {env : Environment} {mods : LeadingModifiers} {keyword : Token}
    {tokens : List Token} {h : Header} (read : Header.read env mods keyword tokens = .ok h) :
    tokens.head? = some h.name ∧ (∀ p ∈ h.parameters, p.Shown) ∧
      Ends keyword tokens (if h.hostClass.isSome then .semicolon else .leftBrace) := by
  simp only [Header.read, Checked.bind_eq_ok] at read
  obtain ⟨name, declared, ⟨type, token, later⟩, returned, ⟨parameters, rest⟩, list, hostClass, tail,
    _, _, _, _, same⟩ := read
  cases same
  obtain ⟨shown, suffix⟩ := Parameter.readList_shown list
  refine ⟨(declaredName_eq_ok declared).1, shown, ?_⟩
  rcases readTail_ends tail with ⟨rfl, brace, rfl, kind⟩ | ⟨⟨host, rfl⟩, kind⟩
  · have all : [brace] <:+ tokens :=
      suffix.trans ((readReturn_suffix returned).trans (List.tail_suffix tokens))
    simpa [kind] using ends_of_suffix all
  · exact kind

end Header

end MiLanguage
