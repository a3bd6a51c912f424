import MiLanguage.Proofs.Expression.ReadBack
import MiLanguage.Proofs.Statement.Names

set_option autoImplicit false

namespace MiLanguage

-- The words that open a statement. Of all keywords, `new` may stand inside of one as well.
def TokenKind.isWord : TokenKind → Bool
  | keyword k => k ≠ .new
  | _ => false

-- None of the words that open a statement is in the text.
def Wordless (tokens : List Token) : Prop := ∀ t ∈ tokens, t.kind.isWord = false

section Wordless

variable {t first : Token} {tokens more inner after : List Token} {kind : TokenKind}

theorem wordless_nil : Wordless [] := by simp [Wordless]

theorem wordless_cons : Wordless (t :: tokens) ↔ t.kind.isWord = false ∧ Wordless tokens :=
  List.forall_mem_cons

theorem wordless_append : Wordless (tokens ++ more) ↔ Wordless tokens ∧ Wordless more :=
  List.forall_mem_append

theorem wordless_iff_filter : Wordless tokens ↔ tokens.filter (·.kind.isWord) = [] := by
  simp [Wordless, List.filter_eq_nil_iff]

theorem Wordless.one (same : t.kind = kind) (plain : kind.isWord = false) : Wordless [t] := by
  subst same
  exact wordless_cons.mpr ⟨plain, wordless_nil⟩

theorem Wordless.of_dropLast (front : Wordless tokens.dropLast)
    (last : (tokens.getLast?.getD first).kind = kind) (plain : kind.isWord = false) :
    Wordless tokens := by
  rcases List.eq_nil_or_concat tokens with rfl | ⟨front, final, rfl⟩
  · exact wordless_nil
  · rw [List.concat_eq_append] at front last ⊢
    rw [List.dropLast_concat] at front
    rw [List.getLast?_concat, Option.getD_some] at last
    exact wordless_append.mpr ⟨front, .one last plain⟩

-- Only commas are lost where a text is taken apart.
theorem Wordless.of_splitCommas (parts : ∀ part ∈ splitCommas tokens, Wordless part) :
    Wordless tokens := by
  have comma : ∀ t : Token, t.kind = .comma → t.kind.isWord = false := by
    intro t kind
    rw [kind]
    rfl
  rw [wordless_iff_filter, ← filter_splitParts comma 0, ← wordless_iff_filter]
  intro t member
  obtain ⟨part, here, inside⟩ := List.mem_flatten.mp member
  exact parts part here t inside

theorem Wordless.of_splitClosing {depth : Nat}
    (found : splitClosing depth tokens = some (inner, after)) (inside : Wordless inner)
    (behind : Wordless after) : Wordless tokens := by
  induction tokens generalizing depth inner with
  | nil => cases found
  | cons t rest ih =>
      unfold splitClosing at found
      split at found
      next kind =>
        cases found
        exact wordless_cons.mpr ⟨by rw [kind]; rfl, behind⟩
      next =>
        obtain ⟨⟨inner, after⟩, later, same⟩ := Option.map_eq_some_iff.mp found
        cases same
        obtain ⟨here, inside⟩ := wordless_cons.mp inside
        exact wordless_cons.mpr ⟨here, ih later inside⟩

theorem Wordless.of_unwrap (found : unwrap tokens = some (t, inner)) (inside : Wordless inner) :
    Wordless tokens := by
  unfold unwrap at found
  split at found
  next => cases found
  next opening rest =>
    split at found
    next kind closing =>
      cases found
      exact wordless_cons.mpr ⟨by rw [kind]; rfl, .of_splitClosing closing inside wordless_nil⟩
    next => cases found

end Wordless

section Expression

theorem mem_separated {parts : List (List TokenKind)} {kind : TokenKind}
    (member : kind ∈ separated parts) : kind = .comma ∨ ∃ part ∈ parts, kind ∈ part := by
  induction parts with
  | nil => cases member
  | cons part parts ih =>
      cases parts with
      | nil => exact .inr ⟨part, by simp, member⟩
      | cons next parts =>
          simp only [separated, List.mem_append, List.mem_cons] at member
          rcases member with here | comma | later
          · exact .inr ⟨part, by simp, here⟩
          · exact .inl comma
          · rcases ih later with comma | ⟨part, found, here⟩
            · exact .inl comma
            · exact .inr ⟨part, List.mem_cons_of_mem _ found, here⟩

namespace Typed

-- What an expression reads back as is made of other kinds.
def Wordless (e : Typed) : Prop := ∀ kind ∈ e.node.readBack, kind.isWord = false

variable {e first second third : Typed} {line : Nat} {type : Datatype} {t : Token}

theorem wordless_leaf {kind : NodeKind} (alone : ∀ k, kind.spell (some k) [] = [k])
    (plain : t.kind.isWord = false) : (of (.leaf kind t) type).Wordless := by
  simpa [Wordless, alone] using plain

theorem wordless_literal {l : LiteralToken} {kind : LiteralKind} (same : t.kind = .literal l) :
    (of (.leaf (.literal kind) t) type).Wordless :=
  wordless_leaf (fun _ => rfl) (by rw [same]; rfl)

theorem wordless_member {name member : Token} (named : name.kind = .identifier)
    (same : member.kind = .identifier) :
    (of (.new .getEnumMember line [.leaf .identifier name, .leaf .identifier member])
      type).Wordless := by
  simp [Wordless, NodeKind.spell, named, same, TokenKind.isWord]

theorem wordless_construct {name : Token} (named : name.kind = .identifier) :
    (of { Node.leaf .structConstruct name with line } type).Wordless := by
  simp [Wordless, Node.readBack_eq, Node.leaf, Node.typed, NodeKind.spell, named, TokenKind.isWord]

theorem wordless_call {name : Token} {args : List Typed} (named : name.kind = .identifier)
    (each : ∀ e ∈ args, e.Wordless) :
    (of (.new .functionCall line [.leaf .identifier name,
      .new .parameters line (args.map Typed.node)]) type).Wordless := by
  have spelled : (of (.new .functionCall line [.leaf .identifier name,
      .new .parameters line (args.map Typed.node)]) type).node.readBack =
        .identifier :: .leftParen :: separated (args.map fun e => e.node.readBack) ++
          [.rightParen] := by
    simp [NodeKind.spell, named, Function.comp_def]
  intro kind found
  rw [spelled] at found
  simp only [List.cons_append, List.mem_cons, List.mem_append, List.not_mem_nil, or_false] at found
  rcases found with rfl | rfl | found | rfl
  · rfl
  · rfl
  · rcases mem_separated found with rfl | ⟨part, member, here⟩
    · rfl
    · obtain ⟨e, argument, rfl⟩ := List.mem_map.mp member
      exact each e argument kind here
  · rfl

theorem wordless_cast {p : Primitive} (word : t.kind = .datatype p) (operand : e.Wordless) :
    (of ((Node.leaf .castValue t).push e.node) type).Wordless := by
  have spelled : (of ((Node.leaf .castValue t).push e.node) type).node.readBack =
      .datatype p :: e.node.readBack := by
    rw [of_node, Node.readBack_typed, Node.readBack_eq]
    simp [Node.leaf, Node.push, NodeKind.spell, word]
  rw [Wordless, spelled, List.forall_mem_cons]
  exact ⟨rfl, operand⟩

theorem wordless_unary (op : UnaryOperator) (operand : e.Wordless) :
    (of (.new (.unary op) line [e.node]) type).Wordless := by
  have spelled : (of (.new (.unary op) line [e.node]) type).node.readBack =
      op.sign :: e.node.readBack := by
    simp [NodeKind.spell]
  rw [Wordless, spelled, List.forall_mem_cons]
  exact ⟨by cases op <;> rfl, operand⟩

theorem wordless_binary (op : BinaryOperator) (left : first.Wordless) (right : second.Wordless) :
    (of (.new (.binary op) line [first.node, second.node]) type).Wordless := by
  have spelled : (of (.new (.binary op) line [first.node, second.node]) type).node.readBack =
      first.node.readBack ++ .binary op :: second.node.readBack := by
    simp [NodeKind.spell]
  rw [Wordless, spelled, List.forall_mem_append, List.forall_mem_cons]
  exact ⟨left, rfl, right⟩

theorem wordless_ternary {inner outer : Nat} (condition : first.Wordless) (yes : second.Wordless)
    (no : third.Wordless) :
    (of (.new .ternaryOperator line [first.node, .new .ternaryIf inner [second.node],
      .new .ternaryElse outer [third.node]]) type).Wordless := by
  have spelled : (of (.new .ternaryOperator line [first.node, .new .ternaryIf inner [second.node],
      .new .ternaryElse outer [third.node]]) type).node.readBack =
        first.node.readBack ++ .question :: (second.node.readBack ++
          .colon :: third.node.readBack) := by
    simp [NodeKind.spell]
  rw [Wordless, spelled, List.forall_mem_append, List.forall_mem_cons, List.forall_mem_append,
    List.forall_mem_cons]
  exact ⟨condition, rfl, yes, rfl, no⟩

end Typed

mutual

theorem Elaborates.wordless {env : Environment} :
    {surface : Surface} → {e : Typed} → Elaborates env surface e → e.Wordless
  | _, _, @Elaborates.integer _ text _ _ _ => Typed.wordless_literal text.property
  | _, _, @Elaborates.long _ text _ _ _ => Typed.wordless_literal text.property
  | _, _, @Elaborates.constant _ _ text _ _ _ => Typed.wordless_literal text.property
  | _, _, .reference _ => Typed.wordless_leaf (fun _ => rfl) rfl
  | _, _, @Elaborates.member _ _ member _ _ _ _ => Typed.wordless_member rfl member.property
  | _, _, .call arguments _ => Typed.wordless_call rfl (ElaboratesAll.wordless arguments)
  | _, _, .construct _ => Typed.wordless_construct rfl
  | _, _, @Elaborates.cast _ _ word _ _ _ operand =>
      Typed.wordless_cast word.property operand.wordless
  | _, _, @Elaborates.negative _ _ text _ _ _ =>
      Typed.wordless_unary _ (Typed.wordless_literal text.property)
  | _, _, .unary operand _ => Typed.wordless_unary _ operand.wordless
  | _, _, .binary left right _ => Typed.wordless_binary _ left.wordless right.wordless
  | _, _, .ternary condition yes no _ _ =>
      Typed.wordless_ternary condition.wordless yes.wordless no.wordless

theorem ElaboratesAll.wordless {env : Environment} :
    {surfaces : List Surface} → {args : List Typed} → ElaboratesAll env surfaces args →
      ∀ e ∈ args, e.Wordless
  | _, _, .nil => by simp
  | _, _, .cons first others => by
      intro e member
      rcases List.mem_cons.mp member with rfl | member
      · exact first.wordless
      · exact ElaboratesAll.wordless others e member

end

-- A word is significant wherever it stands.
theorem mem_significantFrom_word {tokens : List Token} {t : Token} (member : t ∈ tokens)
    (word : t.kind.isWord = true) (turn : Turn) (calls : List Bool) :
    t.kind ∈ significantFrom turn calls tokens := by
  induction tokens generalizing turn calls with
  | nil => cases member
  | cons u rest ih =>
      rcases List.mem_cons.mp member with rfl | member
      · have left : t.kind ≠ .leftParen := by rintro same; simp [same, TokenKind.isWord] at word
        have right : t.kind ≠ .rightParen := by rintro same; simp [same, TokenKind.isWord] at word
        have plus : t.kind ≠ .binary .add := by rintro same; simp [same, TokenKind.isWord] at word
        rw [significantFrom_kept left right plus]
        exact List.mem_cons_self
      · unfold significantFrom
        split
        next => split <;> simp [ih member]
        next => split <;> simp [ih member]
        next => split <;> simp [ih member]
        next => exact List.mem_cons_of_mem _ (ih member ..)

theorem Environment.expression_wordless {env : Environment} {tokens : List Token} {place : Token}
    {e : Typed} (read : env.expression tokens place = .ok e) : Wordless tokens := by
  obtain ⟨surface, elaborates⟩ := expression_means read
  intro t member
  cases word : t.kind.isWord with
  | false => rfl
  | true =>
      have noStep : t.kind.isStep = false := by
        cases kind : t.kind <;> simp_all [TokenKind.isWord, TokenKind.isStep]
      have found : t.kind ∈ e.node.readBack := by
        rw [expression_spells read, List.mem_filter]
        exact ⟨mem_significantFrom_word member word _ _, by simp [noStep]⟩
      rw [elaborates.wordless _ found] at word
      cases word

end Expression

namespace Environment

variable {env : Environment} {setting : Setting} {mods : LeadingModifiers}
  {first place keyword : Token} {tokens rest : List Token} {node : Node}

theorem conditionNode_wordless (read : env.conditionNode tokens place = .ok node) :
    Wordless tokens := by
  simp only [conditionNode, Checked.bind_eq_ok] at read
  obtain ⟨_, value, _⟩ := read
  exact expression_wordless value

theorem wrappedCondition_wordless (read : env.wrappedCondition tokens keyword = .ok node) :
    Wordless tokens := by
  unfold wrappedCondition at read
  split at read
  next wrapped => exact .of_unwrap wrapped (conditionNode_wordless read)
  next => simp at read

theorem stepValue_wordless {v : ResolvedVariable} {binary : BinaryOperator}
    (read : stepValue v binary place tokens = .ok node) : Wordless tokens := by
  cases tokens with
  | nil => exact wordless_nil
  | cons => simp [stepValue] at read

theorem assignedValue_wordless {v : ResolvedVariable}
    (read : env.assignedValue v place tokens = .ok node) : Wordless tokens := by
  simp only [assignedValue, Checked.bind_eq_ok] at read
  obtain ⟨_, value, _⟩ := read
  exact expression_wordless value

theorem assign_wordless {implied : Bool} {target op : Token} {after : Environment}
    (read : env.assign implied target op tokens = .ok (after, node)) :
    target.kind = .identifier ∧ Wordless tokens := by
  simp only [assign, Checked.bind_eq_ok, Checked.require_eq_ok, Token.is_iff] at read
  obtain ⟨_, name, _, _, _, _, _, _, read⟩ := read
  refine ⟨name, ?_⟩
  split at read
  all_goals
    simp only [Checked.bind_eq_ok] at read
    obtain ⟨_, value, _⟩ := read
  next => exact stepValue_wordless value
  next => exact stepValue_wordless value
  next => exact assignedValue_wordless value

theorem initialTokens_wordless {initial : Option (Token × List Token)}
    (read : initialTokens tokens = .ok initial)
    (value : ∀ pair, initial = some pair → Wordless pair.2) : Wordless tokens := by
  cases tokens with
  | nil => exact wordless_nil
  | cons t rest =>
      simp only [initialTokens] at read
      split at read
      next assign =>
        cases read
        rw [Token.is_iff] at assign
        exact wordless_cons.mpr ⟨by rw [assign]; rfl, value _ rfl⟩
      next => simp at read

theorem newVariable_wordless {placement : Placement} {typeToken stop : Token} {after : Environment}
    (read : env.newVariable placement mods typeToken tokens stop = .ok (after, node)) :
    Wordless tokens := by
  unfold newVariable at read
  cases native : mods.first? (· = .nat) with
  | some t => simp [native] at read
  | none =>
      simp only [native, Checked.bind_eq_ok] at read
      obtain ⟨name, named, initial, initially, read⟩ := read
      obtain ⟨head, kind, _⟩ := declaredName_eq_ok named
      have behind : Wordless tokens.tail := by
        refine initialTokens_wordless initially ?_
        rintro pair rfl
        split at read
        all_goals simp only [Checked.bind_eq_ok, Except.ok.injEq, exists_eq_left'] at read
        next =>
          obtain ⟨_, value, _⟩ := read
          exact expression_wordless value
        next =>
          obtain ⟨_, _, _, value, _⟩ := read
          exact expression_wordless value
      cases tokens with
      | nil => exact wordless_nil
      | cons t tokens =>
          cases head
          exact wordless_cons.mpr ⟨by rw [kind]; rfl, behind⟩

end Environment

theorem wordless_modifiers {mods : LeadingModifiers} {tokens rest : List Token}
    (read : LeadingModifiers.read tokens = .ok (mods, rest)) (behind : Wordless rest) :
    Wordless tokens := by
  obtain ⟨whole, modifiers, _⟩ := LeadingModifiers.read_append read
  rw [whole, wordless_append]
  refine ⟨fun t member => ?_, behind⟩
  have kind := modifiers t member
  cases same : t.kind <;> simp_all [TokenKind.isModifier, TokenKind.isWord]

namespace Parameter

variable {env : Environment} {mods found : LeadingModifiers} {tokens rest : List Token}

theorem readModifiers_wordless (read : readModifiers mods tokens = .ok (found, rest))
    (behind : Wordless rest) : Wordless tokens := by
  induction tokens generalizing mods with
  | nil => exact wordless_nil
  | cons t tokens ih =>
      unfold readModifiers at read
      split at read
      next kind =>
        split at read
        next => simp at read
        next =>
          split at read
          next => exact wordless_cons.mpr ⟨by rw [kind]; rfl, ih read⟩
          next => simp at read
      next =>
        cases read
        exact behind

theorem not_word_of_requireType {t : Token} {done : Unit} (typed : requireType t = .ok done) :
    t.kind.isWord = false := by
  cases kind : t.kind <;> simp_all [requireType, TokenKind.isWord, TokenKind.isDatatype]

theorem read_wordless {others : List ReadParameter} {place : Token} {p : ReadParameter}
    (read : read env others place tokens = .ok p) : Wordless tokens := by
  cases tokens with
  | nil => exact wordless_nil
  | cons first tail =>
      simp only [Parameter.read, Checked.bind_eq_ok] at read
      obtain ⟨_, _, ⟨mods, rest⟩, modifiers, read⟩ := read
      refine readModifiers_wordless modifiers ?_
      cases rest with
      | nil => exact wordless_nil
      | cons typeToken later =>
          simp only [Checked.bind_eq_ok] at read
          obtain ⟨⟨shown, _⟩, same, _, typed, _, _, name, named, read⟩ := read
          cases same
          obtain ⟨head, kind, _⟩ := declaredName_eq_ok named
          refine wordless_cons.mpr ⟨not_word_of_requireType typed, ?_⟩
          match later with
          | [] => cases head
          | [_] =>
              cases head
              exact .one kind rfl
          | _ :: _ :: _ => simp at read

theorem readAll_wordless {place : Token} {before found : List ReadParameter}
    {parts : List (List Token)} (read : readAll env place before parts = .ok found) :
    ∀ part ∈ parts, Wordless part := by
  induction parts generalizing before with
  | nil => simp
  | cons part parts ih =>
      simp only [readAll, Checked.bind_eq_ok] at read
      obtain ⟨_, head, read⟩ := read
      exact List.forall_mem_cons.mpr ⟨read_wordless head, ih read⟩

theorem readList_wordless {parameters : List ReadParameter}
    (read : readList env tokens = .ok (parameters, rest)) (behind : Wordless rest) :
    Wordless tokens := by
  unfold readList at read
  split at read
  next => exact wordless_nil
  next opening later =>
    split at read
    next left =>
      rw [Token.is_iff] at left
      refine wordless_cons.mpr ⟨by rw [left]; rfl, ?_⟩
      split at read
      next => simp at read
      next closing =>
        cases read
        exact .of_splitClosing closing wordless_nil behind
      next inner after _ closing =>
        simp only [Checked.bind_eq_ok] at read
        obtain ⟨_, all, same⟩ := read
        cases same
        exact .of_splitClosing closing (.of_splitCommas (readAll_wordless all)) behind
    next =>
      cases read
      exact behind

end Parameter

namespace Header

variable {env : Environment} {mods : LeadingModifiers} {tokens rest : List Token} {last : Token}

theorem readTail_wordless {hostClass : Option Token}
    (ends : ∀ t, tokens.getLast? = some t → t = last)
    (read : readTail tokens last = .ok hostClass) : Wordless tokens := by
  cases tokens with
  | nil => exact wordless_nil
  | cons t rest =>
      simp only [readTail] at read
      split at read
      next brace => exact .one brace rfl
      next arrow =>
        refine wordless_cons.mpr ⟨by rw [arrow]; rfl, ?_⟩
        split at read
        next => simp at read
        next name later =>
          simp only [Checked.bind_eq_ok, Checked.require_eq_ok, Bool.and_eq_true, Token.is_iff,
            decide_eq_true_eq] at read
          obtain ⟨_, text, _, ⟨single, semicolon⟩, _⟩ := read
          obtain ⟨final, rfl⟩ := List.length_eq_one_iff.mp single
          rw [← ends final rfl] at semicolon
          exact wordless_cons.mpr ⟨by rw [text]; rfl, .one semicolon rfl⟩
      next => simp at read

theorem not_word_of_resolved {name : Token} {nullable : Bool} {type : Datatype}
    (resolved : env.resolveDatatype name nullable = .ok type) : name.kind.isWord = false := by
  cases kind : name.kind <;> simp_all [Environment.resolveDatatype, TokenKind.isWord]

theorem readReturn_wordless {type : Datatype} {token : Option Token}
    (read : readReturn env mods tokens last = .ok (type, token, rest)) (behind : Wordless rest) :
    Wordless tokens := by
  unfold readReturn at read
  split at read
  next => simp at read
  next t later =>
    split at read
    next kind =>
      cases read
      exact wordless_cons.mpr ⟨by rw [kind]; rfl, behind⟩
    next kind =>
      refine wordless_cons.mpr ⟨by rw [kind]; rfl, ?_⟩
      split at read
      next => simp at read
      next name after =>
        split at read
        all_goals
          simp only [Checked.bind_eq_ok] at read
          obtain ⟨_, resolved, same⟩ := read
          cases same
        next void =>
          rw [Token.is_iff] at void
          exact wordless_cons.mpr ⟨by rw [void]; rfl, behind⟩
        next => exact wordless_cons.mpr ⟨not_word_of_resolved resolved, behind⟩
    next => cases read; exact behind
    next => cases read; exact behind
    next => cases read; exact behind
    next => simp at read

theorem read_wordless {keyword : Token} {h : Header}
    (read : Header.read env mods keyword tokens = .ok h) : Wordless tokens := by
  simp only [Header.read, Checked.bind_eq_ok] at read
  obtain ⟨name, named, ⟨type, token, later⟩, returned, ⟨parameters, rest⟩, list, hostClass, ending,
    _⟩ := read
  have suffix : rest <:+ tokens :=
    (Parameter.readList_shown list).2.trans ((readReturn_suffix returned).trans
      (List.tail_suffix tokens))
  have behind : Wordless rest := by
    refine readTail_wordless (fun t last => ?_) ending
    obtain ⟨front, rfl⟩ := suffix
    rw [List.getLast?_append, last]
    rfl
  obtain ⟨head, kind, _⟩ := declaredName_eq_ok named
  have whole := readReturn_wordless returned (Parameter.readList_wordless list behind)
  cases tokens with
  | nil => exact wordless_nil
  | cons t tokens =>
      cases head
      exact wordless_cons.mpr ⟨by rw [kind]; rfl, whole⟩

end Header

namespace Environment

variable {env : Environment} {setting : Setting} {mods : LeadingModifiers}
  {first head place keyword : Token} {tokens tail rest : List Token} {accepted : Accepted}

theorem loopDefinition_wordless {after : Environment} {node : Node}
    (read : env.loopDefinition tokens keyword = .ok (after, node)) : Wordless tokens := by
  simp only [loopDefinition, Checked.bind_eq_ok] at read
  obtain ⟨⟨mods, rest⟩, modifiers, read⟩ := read
  refine wordless_modifiers modifiers ?_
  cases rest with
  | nil => exact wordless_nil
  | cons first rest =>
      simp only [Checked.bind_eq_ok, Checked.require_eq_ok] at read
      obtain ⟨_, starts, ⟨_, _⟩, definition, _⟩ := read
      refine wordless_cons.mpr ⟨?_, newVariable_wordless definition⟩
      cases kind : first.kind <;>
        simp_all [Token.is, TokenKind.isWord, TokenKind.isDatatype]

theorem loopStep_wordless {implied : Bool} {after : Environment} {node : Node}
    (read : env.loopStep implied tokens keyword = .ok (after, node)) : Wordless tokens := by
  have called : ∀ {tokens place}, env.callStep tokens place = .ok (after, node) →
      Wordless tokens := by
    intro tokens place read
    simp only [callStep, Checked.bind_eq_ok] at read
    obtain ⟨_, value, _⟩ := read
    exact expression_wordless value
  simp only [loopStep] at read
  split at read
  next => simp at read
  next => exact called read
  next =>
    split at read
    next assigns =>
      obtain ⟨name, value⟩ := assign_wordless read
      refine wordless_cons.mpr ⟨by rw [name]; rfl, wordless_cons.mpr ⟨?_, value⟩⟩
      cases kind : Token.kind _ <;> simp_all [TokenKind.isAssignment, TokenKind.isWord]
    next => exact called read

theorem desugarRange_wordless {condition step : List Token}
    (read : desugarRange tokens keyword = .ok (condition, step)) (inside : Wordless condition) :
    Wordless tokens := by
  cases tokens with
  | nil => exact wordless_nil
  | cons v rest =>
      simp only [desugarRange, Checked.bind_eq_ok] at read
      obtain ⟨_, _, read⟩ := read
      cases rest with
      | nil => simp at read
      | cons arrow stop =>
          simp only [Checked.bind_eq_ok, Checked.require_eq_ok, Bool.and_eq_true, Token.is_iff] at read
          obtain ⟨_, ⟨name, mark⟩, same⟩ := read
          cases same
          simp only [List.cons_append, List.nil_append, wordless_cons, wordless_append] at inside
          exact wordless_cons.mpr ⟨by rw [name]; rfl,
            wordless_cons.mpr ⟨by rw [mark]; rfl, inside.2.2.2.1⟩⟩

theorem forHead_wordless {h : ForHead} (read : ForHead.read keyword tokens = .ok h)
    (start : Wordless h.start) (condition : Wordless h.condition) (step : Wordless h.step) :
    Wordless tokens := by
  refine .of_splitCommas ?_
  unfold ForHead.read at read
  split at read
  next parts =>
    cases read
    simp [parts, start, condition, step]
  next parts =>
    simp only [Checked.bind_eq_ok] at read
    obtain ⟨⟨_, _⟩, range, same⟩ := read
    cases same
    simp [parts, start, desugarRange_wordless range condition]
  next => simp at read

theorem openFor_wordless (read : env.openFor setting mods head rest = .ok accepted) :
    Wordless rest := by
  simp only [openFor, Checked.bind_eq_ok] at read
  obtain ⟨_, _, _, _, header, dropped, read⟩ := read
  obtain ⟨last, rfl⟩ := dropLastOf_eq_ok dropped
  refine .of_dropLast ?_ last rfl
  split at read
  next wrapped =>
    simp only [Checked.bind_eq_ok, Except.ok.injEq, exists_eq_left'] at read
    obtain ⟨h, parts, ⟨_, _⟩, definition, _, condition, ⟨_, _⟩, step, _⟩ := read
    exact .of_unwrap wrapped (forHead_wordless parts (loopDefinition_wordless definition)
      (conditionNode_wordless condition) (loopStep_wordless step))
  next => simp at read

theorem titled_wordless {before name : Token} {what position : String} {done : Unit}
    (declared : declaredName rest.head? before what = .ok name)
    (brace : requireBrace name rest.tail position = .ok done) : Wordless rest := by
  obtain ⟨head, kind, _⟩ := declaredName_eq_ok declared
  obtain ⟨last, same, braceKind⟩ := requireBrace_eq_ok brace
  cases rest with
  | nil => exact wordless_nil
  | cons t rest =>
      cases head
      rw [List.tail_cons] at same
      subst same
      exact wordless_cons.mpr ⟨by rw [kind]; rfl, .one braceKind rfl⟩

theorem openModule_wordless (read : env.openModule setting mods head rest = .ok accepted) :
    Wordless rest := by
  simp only [openModule, Checked.bind_eq_ok] at read
  obtain ⟨_, _, read⟩ := read
  cases frame : env.frame with
  | parent | module =>
      simp only [frame, Checked.bind_eq_ok] at read
      obtain ⟨name, declared, _, brace, _⟩ := read
      exact titled_wordless declared brace
  | _ => simp [frame] at read

theorem openClass_wordless (read : env.openClass setting mods head rest = .ok accepted) :
    Wordless rest := by
  simp only [openClass, Checked.bind_eq_ok] at read
  obtain ⟨_, _, _, _, name, declared, _, brace, _⟩ := read
  exact titled_wordless declared brace

theorem openEnum_wordless (read : env.openEnum setting mods head rest = .ok accepted) :
    Wordless rest := by
  simp only [openEnum, Checked.bind_eq_ok] at read
  obtain ⟨_, _, _, _, name, declared, _, brace, _⟩ := read
  exact titled_wordless declared brace

theorem function_wordless (read : env.function setting mods head rest = .ok accepted) :
    Wordless rest := by
  simp only [function, Checked.bind_eq_ok] at read
  obtain ⟨_, _, _, _, h, header, _⟩ := read
  exact Header.read_wordless header

theorem constructor_wordless (read : env.constructor setting mods head rest = .ok accepted) :
    Wordless rest := by
  cases frame : env.frame with
  | «class» id c =>
      simp only [constructor, frame, Checked.bind_eq_ok, Except.ok.injEq, exists_eq_left'] at read
      obtain ⟨_, _, ⟨_, _⟩, list, _, brace, _⟩ := read
      obtain ⟨brace, rfl, kind⟩ := requireBrace_eq_ok brace
      exact Parameter.readList_wordless list (.one kind rfl)
  | _ => simp [constructor, frame] at read

theorem openConditional_wordless {kind : BlockKind} {nodeKind : NodeKind}
    (read : env.openConditional mods kind nodeKind head rest = .ok accepted) : Wordless rest := by
  simp only [openConditional, Checked.bind_eq_ok] at read
  obtain ⟨_, _, _, _, front, dropped, _, condition, _⟩ := read
  obtain ⟨last, rfl⟩ := dropLastOf_eq_ok dropped
  exact .of_dropLast (wrappedCondition_wordless condition) last rfl

theorem openDo_wordless (read : env.openDo mods head rest = .ok accepted) : Wordless rest := by
  simp only [openDo, Checked.bind_eq_ok] at read
  obtain ⟨_, _, _, _, _, brace, _⟩ := read
  obtain ⟨brace, rfl, kind⟩ := requireBrace_eq_ok brace
  exact .one kind rfl

theorem returnStatement_wordless (read : env.returnStatement mods head rest = .ok accepted) :
    Wordless rest := by
  simp only [returnStatement, Checked.bind_eq_ok] at read
  obtain ⟨_, _, _, _, value, dropped, read⟩ := read
  obtain ⟨last, rfl⟩ := dropLastOf_eq_ok dropped
  refine .of_dropLast ?_ last rfl
  split at read
  next empty =>
    rw [empty]
    exact wordless_nil
  next =>
    simp only [Checked.bind_eq_ok, Except.ok.injEq, exists_eq_left'] at read
    obtain ⟨_, value, _⟩ := read
    exact expression_wordless value

theorem requireEnd_wordless {last : Token} {what : String} {done : Unit}
    (ends : requireEnd tokens last what = .ok done) : Wordless tokens := by
  obtain ⟨semicolon, rfl, kind⟩ := requireEnd_eq_ok ends
  exact .one kind rfl

theorem loopExit_wordless {nodeKind : NodeKind}
    (read : env.loopExit mods nodeKind head rest = .ok accepted) : Wordless rest := by
  simp only [loopExit, Checked.bind_eq_ok] at read
  obtain ⟨_, _, _, _, _, ends, _⟩ := read
  exact requireEnd_wordless ends

theorem useStatement_wordless (read : env.useStatement mods head rest = .ok accepted) :
    Wordless rest := by
  simp only [useStatement, Checked.bind_eq_ok] at read
  obtain ⟨_, _, _, _, read⟩ := read
  cases rest with
  | nil => exact wordless_nil
  | cons path tail =>
      simp only at read
      split at read
      next name =>
        simp only [Checked.bind_eq_ok, Except.ok.injEq, exists_eq_left'] at read
        obtain ⟨_, ends, _⟩ := read
        rw [Token.is_iff] at name
        exact wordless_cons.mpr ⟨by rw [name]; rfl, requireEnd_wordless ends⟩
      next => simp at read

theorem callStatement_wordless (read : env.callStatement mods head rest = .ok accepted) :
    Wordless rest := by
  simp only [callStatement, Checked.bind_eq_ok] at read
  obtain ⟨_, _, _, _, _, dropped, _, value, _⟩ := read
  obtain ⟨last, rfl⟩ := dropLastOf_eq_ok dropped
  exact (wordless_cons.mp (.of_dropLast (expression_wordless value) last rfl)).2

theorem assignment_wordless {op : Token} (assigns : op.kind.isAssignment = true)
    (read : env.assignment mods head op rest = .ok accepted) : Wordless (op :: rest) := by
  simp only [assignment, Checked.bind_eq_ok] at read
  obtain ⟨_, _, _, _, _, dropped, ⟨_, _⟩, assigned, _⟩ := read
  obtain ⟨last, rfl⟩ := dropLastOf_eq_ok dropped
  refine wordless_cons.mpr ⟨?_, .of_dropLast (assign_wordless assigned).2 last rfl⟩
  cases kind : op.kind <;> simp_all [TokenKind.isAssignment, TokenKind.isWord]

/-- The second pass knows this variable from the first and does not read its definition again. -/
structure Recalled (env : Environment) (setting : Setting) (head : Token) (rest : List Token)
    (accepted : Accepted) : Prop where
  pass : setting.declaring = false
  host : (env.frame.isModule || env.frame.isClass) = true
  ends : Ends head rest .semicolon
  left : accepted.environment = env

theorem variableStatement_wordless
    (read : env.variableStatement setting mods head rest = .ok accepted) :
    Wordless rest ∨ env.Recalled setting head rest accepted := by
  simp only [variableStatement, Checked.bind_eq_ok] at read
  obtain ⟨_, dropped, placement, placed, read⟩ := read
  obtain ⟨last, rfl⟩ := dropLastOf_eq_ok dropped
  split at read
  next =>
    simp only [Checked.bind_eq_ok] at read
    obtain ⟨⟨_, _⟩, definition, _⟩ := read
    exact .inl (.of_dropLast (newVariable_wordless definition) last rfl)
  next kept =>
    simp only [Bool.or_eq_true, decide_eq_true_eq, not_or, Bool.not_eq_true] at kept
    cases read
    refine .inr ⟨kept.1, ?_, last, rfl⟩
    cases frame : env.frame <;>
      simp_all [Environment.placement, Frame.isModule, Frame.isClass, Frame.class?]

theorem nameStatement_wordless
    (read : env.nameStatement setting mods head rest = .ok accepted) :
    Wordless rest ∨ env.Recalled setting head rest accepted := by
  obtain ⟨second, later, rfl, ⟨_, read⟩ | ⟨_, read⟩ | ⟨assigns, read⟩⟩ := nameStatement_eq_ok read
  · exact variableStatement_wordless read
  · exact .inl (callStatement_wordless read)
  · exact .inl (assignment_wordless assigns read)

theorem read_wordless (read : env.read setting mods head rest = .ok accepted) :
    Wordless rest ∨ env.Recalled setting head rest accepted := by
  cases kind : head.kind with
  | keyword k =>
      left
      simp only [Environment.read, kind] at read
      cases k with
      | module => exact openModule_wordless read
      | «class» => exact openClass_wordless read
      | enum => exact openEnum_wordless read
      | fn => exact function_wordless read
      | new => exact constructor_wordless read
      | «if» => exact openConditional_wordless read
      | «while» => exact openConditional_wordless read
      | «do» => exact openDo_wordless read
      | «for» => exact openFor_wordless read
      | ret => exact returnStatement_wordless read
      | «break» => exact loopExit_wordless read
      | «continue» => exact loopExit_wordless read
      | use => exact useStatement_wordless read
      | libraryEnd =>
          simp only [endLibrary, Checked.bind_eq_ok] at read
          obtain ⟨_, _, _, ends, _⟩ := read
          exact requireEnd_wordless ends
  | identifier =>
      simp only [Environment.read, kind] at read
      exact nameStatement_wordless read
  | datatype p =>
      simp only [Environment.read, kind] at read
      split at read
      next => exact variableStatement_wordless read
      next => simp at read
  | punctuation p =>
      cases p with
      | question =>
          simp only [Environment.read, kind] at read
          exact variableStatement_wordless read
      | _ => simp [Environment.read, kind, TokenKind.isDatatype] at read
  | _ => simp [Environment.read, kind, TokenKind.isDatatype] at read

theorem memberNames_wordless {last : Token} {parts : List (List Token)} {names : List Token}
    (read : memberNames last parts = .ok names) : ∀ part ∈ parts, Wordless part := by
  obtain ⟨same, identifiers⟩ := memberNames_eq_ok read
  intro part member t inside
  rw [identifiers t (same ▸ List.mem_flatten.mpr ⟨part, member, inside⟩)]
  rfl

theorem readMembers_wordless {names : List Token}
    (read : readMembers mods head rest = .ok names) : Wordless rest := by
  simp only [readMembers, Checked.bind_eq_ok] at read
  obtain ⟨_, _, _, dropped, read⟩ := read
  obtain ⟨last, rfl⟩ := dropLastOf_eq_ok dropped
  exact (wordless_cons.mp
    (.of_dropLast (.of_splitCommas (memberNames_wordless read)) last rfl)).2

theorem statement_wordless
    (read : env.statement setting first tail = ⟨accepted.environment, .ok accepted.node⟩)
    (modifiers : LeadingModifiers.read (first :: tail) = .ok (mods, head :: rest)) :
    Wordless rest ∨ env.Recalled setting head rest accepted := by
  by_cases members : head.kind = .identifier ∧ ∃ id e, env.frame = .enum id e
  · obtain ⟨kind, id, e, frame⟩ := members
    left
    have declared := statement_members read modifiers kind frame
    unfold declareMembers at declared
    split at declared
    next => cases declared
    next names => exact readMembers_wordless names
  · refine read_wordless (statement_read read modifiers ?_)
    by_cases kind : head.kind = .identifier
    · exact .inr fun id e frame => members ⟨kind, id, e, frame⟩
    · exact .inl kind

end Environment

end MiLanguage
