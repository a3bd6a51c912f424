import MiLanguage.Proofs.Relocation.Resolution

set_option autoImplicit false

namespace MiLanguage

variable {m : Relocation}

namespace Typed

@[simp] theorem binary_move (op : BinaryOperator) (left right : Typed) (t : Token) :
    Typed.binary op (move m left) (move m right) (move m t) =
      move m (Typed.binary op left right t) := by
  unfold Typed.binary
  simp only [typed_type_move]
  cases Datatype.binaryResult op left.type right.type with
  | none => rfl
  | some type =>
      exact congrArg Except.ok (typed_of_move (m := m) (.new _ _ [left.node, right.node]) type)

@[simp] theorem ternary_move (condition yes no : Typed) (t : Token) :
    Typed.ternary (move m condition) (move m yes) (move m no) (move m t) =
      move m (Typed.ternary condition yes no t) := by
  unfold Typed.ternary
  simp only [typed_type_move]
  refine bind_move (require_move _ _ t) fun _ => ?_
  refine bind_move (require_move _ _ t) fun _ => ?_
  have arms : [move m condition.node,
      Node.new .ternaryIf (m.streamLine t.streamLine) [move m yes.node],
      Node.new .ternaryElse (m.streamLine t.streamLine) [move m no.node]] =
      move m [condition.node, Node.new .ternaryIf t.streamLine [yes.node],
        Node.new .ternaryElse t.streamLine [no.node]] := by
    simp only [move_cons, move_nil, move_new]
  exact congrArg Except.ok (of_new_move _ _ arms _)

@[simp] theorem unary_move (op : UnaryOperator) (operand : Typed) (t : Token) :
    Typed.unary op (move m operand) (move m t) = move m (Typed.unary op operand t) :=
  of_new_move _ _ (by rfl) _

@[simp] theorem requireOperand_move (holds : Bool) (operand : Typed) (wanted : String) (t : Token) :
    Typed.requireOperand holds (move m operand) wanted (move m t) =
      move m (Typed.requireOperand holds operand wanted t) := by
  simp only [Typed.requireOperand, typed_type_move, lexeme_move, require_move]

@[simp] theorem cast_move (p : Primitive) (operand : Typed) (t : Token) :
    Typed.cast p (move m operand) (move m t) = move m (Typed.cast p operand t) := by
  simp only [Typed.cast, leaf_move, typed_node_move, push_move, typed_of_move]

@[simp] theorem intLiteral_move (t : Token) (negated : Bool) :
    Typed.intLiteral (move m t) negated = move m (Typed.intLiteral t negated) := by
  unfold Typed.intLiteral
  simp only [lexeme_move, leaf_move, typed_of_move]
  exact ite_move rfl rfl

@[simp] theorem literal_move (l : LiteralToken) (t : Token) :
    Typed.literal l (move m t) = move m (Typed.literal l t) := by
  cases l with
  | int => exact intLiteral_move t false
  | long =>
      simp only [Typed.literal, Typed.longLiteral, lexeme_move, leaf_move, typed_of_move]
      exact ite_move rfl rfl
  | _ => simp only [Typed.literal, leaf_move, typed_of_move, move_ok]

@[simp] theorem reference_move (env : Environment) (t : Token) :
    Typed.reference (move m env) (move m t) = move m (Typed.reference env t) := by
  refine bind_move (Environment.resolveVariable_move env t) fun v => ?_
  simp only [move_resolvedVariable, synthetic_move, leaf_move, typed_of_move, move_ok]

@[simp] theorem call_move (env : Environment) (t : Token) (args : List Typed) :
    Typed.call (move m env) (move m t) (move m args) = move m (Typed.call env t args) := by
  have types : (move m args).map Typed.type = args.map Typed.type := by
    rw [move_list, List.map_map]
    rfl
  have nodes : (move m args).map Typed.node = move m (args.map Typed.node) := by
    rw [move_list, move_list, List.map_map, List.map_map]
    rfl
  unfold Typed.call
  rw [types]
  refine bind_move (Environment.resolveCall_move env t _) fun callee => ?_
  simp only [nodes, move_resolvedCall, streamLine_move, synthetic_move, leaf_move, node_new_move]
  exact congrArg Except.ok (of_new_move _ _ (by rfl) _)

@[simp] theorem enumMember_move (env : Environment) (t member : Token) :
    Typed.enumMember (move m env) (move m t) (move m member) =
      move m (Typed.enumMember env t member) := by
  unfold Typed.enumMember
  refine bind_move (Environment.resolveEnum_move env t) ?_
  rintro ⟨qualified, members⟩
  simp only [move_pair, move_string, move_strings, lexeme_move]
  refine bind_move (require_move _ _ member) fun _ => ?_
  simp only [streamLine_move, synthetic_move, leaf_move]
  exact congrArg Except.ok (of_new_move _ _ (by rfl) _)

@[simp] theorem construct_move (env : Environment) (keyword t : Token) :
    Typed.construct (move m env) (move m keyword) (move m t) =
      move m (Typed.construct env keyword t) := by
  refine bind_move (Environment.resolveClass_move env t) fun qualified => ?_
  refine congrArg Except.ok ?_
  rw [← typed_of_move, move_node]
  rfl

end Typed

namespace Expression

@[simp] theorem expect_move (anchor : Token) (kind : TokenKind) (place : String)
    (tokens : List Token) :
    expect (move m anchor) kind place (move m tokens) = move m (expect anchor kind place tokens) := by
  cases tokens with
  | nil => rfl
  | cons t rest =>
      simp only [move_cons, expect, is_move, lexeme_move]
      exact ite_move rfl rfl

@[simp] theorem construct_move (env : Environment) (anchor keyword : Token) (tokens : List Token) :
    construct (move m env) (move m anchor) (move m keyword) (move m tokens) =
      move m (construct env anchor keyword tokens) := by
  unfold construct
  refine bind_move (expect_move anchor _ _ tokens) ?_
  rintro ⟨name, rest⟩
  cases rest with
  | nil =>
      refine bind_move (x := .ok []) rfl fun rest => ?_
      exact bind_move (Typed.construct_move env keyword name) fun _ => rfl
  | cons t later =>
      simp only [move_pair, move_cons, is_move]
      refine ite_move ?_ ?_
      · refine bind_move (expect_move anchor _ _ later) ?_
        rintro ⟨closing, rest⟩
        refine bind_move (x := .ok rest) rfl fun rest => ?_
        exact bind_move (Typed.construct_move env keyword name) fun _ => rfl
      · refine bind_move (x := .ok (t :: later)) rfl fun rest => ?_
        exact bind_move (Typed.construct_move env keyword name) fun _ => rfl

@[simp] theorem enumMember_move (env : Environment) (anchor name : Token) (tokens : List Token) :
    enumMember (move m env) (move m anchor) (move m name) (move m tokens) =
      move m (enumMember env anchor name tokens) := by
  unfold enumMember
  refine bind_move (expect_move anchor _ _ tokens) ?_
  rintro ⟨member, rest⟩
  exact bind_move (Typed.enumMember_move env name member) fun _ => rfl

/-- All that is read with this bound is read alike elsewhere. -/
structure Moves (m : Relocation) (env : Environment) (anchor : Token) (bound : Nat) : Prop where
  read : ∀ level tokens, Expression.read (move m env) (move m anchor) bound level (move m tokens) =
    move m (Expression.read env anchor bound level tokens)
  climb : ∀ level left tokens,
    Expression.climb (move m env) (move m anchor) bound level (move m left) (move m tokens) =
      move m (Expression.climb env anchor bound level left tokens)
  operand : ∀ tokens, Expression.operand (move m env) (move m anchor) bound (move m tokens) =
    move m (Expression.operand env anchor bound tokens)
  arguments : ∀ tokens, Expression.arguments (move m env) (move m anchor) bound (move m tokens) =
    move m (Expression.arguments env anchor bound tokens)
  argumentList : ∀ tokens,
    Expression.argumentList (move m env) (move m anchor) bound (move m tokens) =
      move m (Expression.argumentList env anchor bound tokens)

variable {env : Environment} {anchor : Token} {bound : Nat}

theorem climb_moves (moves : Moves m env anchor bound) (level : Nat) (left : Typed)
    (tokens : List Token) :
    climb (move m env) (move m anchor) (bound + 1) level (move m left) (move m tokens) =
      move m (climb env anchor (bound + 1) level left tokens) := by
  cases tokens with
  | nil => rfl
  | cons t rest =>
      simp only [move_cons, climb, kind_move]
      split
      · refine ite_move (bind_move (moves.read 0 rest) ?_) rfl
        rintro ⟨yes, rest⟩
        refine bind_move (expect_move anchor _ _ rest) ?_
        rintro ⟨colon, rest⟩
        refine bind_move (moves.read 0 rest) ?_
        rintro ⟨no, rest⟩
        refine bind_move (Typed.ternary_move left yes no t) fun e => ?_
        exact moves.climb level e rest
      · refine ite_move (bind_move (moves.read _ rest) ?_) rfl
        rintro ⟨right, rest⟩
        refine bind_move (Typed.binary_move _ left right t) fun e => ?_
        exact moves.climb level e rest
      · rfl

-- An operand that a sign stands in front of.
theorem signed_moves (moves : Moves m env anchor bound) {t : Token} (rest : List Token)
    (holds : Typed → Bool) (wanted : String) (build moved : Typed → Typed)
    (same : ∀ e, moved (move m e) = move m (build e)) (alike : ∀ e, holds (move m e) = holds e) :
    (do let (e, rest) ← operand (move m env) (move m anchor) bound (move m rest)
        Typed.requireOperand (holds e) e wanted (move m t)
        .ok (moved e, rest) : Checked (Typed × List Token)) =
      move m (do
        let (e, rest) ← operand env anchor bound rest
        Typed.requireOperand (holds e) e wanted t
        .ok (build e, rest) : Checked (Typed × List Token)) := by
  refine bind_move (moves.operand rest) ?_
  rintro ⟨e, rest⟩
  simp only [move_pair, alike, same]
  exact bind_move (Typed.requireOperand_move _ e _ t) fun _ => rfl

theorem minus_moves (moves : Moves m env anchor bound) {t : Token} (minus : t.kind = .binary .sub)
    (rest : List Token) :
    operand (move m env) (move m anchor) (bound + 1) (move m (t :: rest)) =
      move m (operand env anchor (bound + 1) (t :: rest)) := by
  cases rest with
  | nil =>
      simp only [move_cons, move_nil, operand, kind_move, minus]
      rfl
  | cons next later =>
      simp only [move_cons, operand, kind_move, minus, is_move]
      refine ite_move ?_ ?_
      · refine bind_move (Typed.intLiteral_move next true) fun e => ?_
        rw [Typed.unary_move]
        rfl
      · exact signed_moves moves (next :: later) (·.type.isSigned) _ (Typed.unary .negate · t)
          (Typed.unary .negate · (move m t)) (fun e => Typed.unary_move .negate e t) fun _ => rfl

theorem name_moves (moves : Moves m env anchor bound) {t : Token} (name : t.kind = .identifier)
    (rest : List Token) :
    operand (move m env) (move m anchor) (bound + 1) (move m (t :: rest)) =
      move m (operand env anchor (bound + 1) (t :: rest)) := by
  cases rest with
  | nil =>
      simp only [move_cons, move_nil, operand, kind_move, name]
      exact bind_move (Typed.reference_move env t) fun _ => rfl
  | cons next later =>
      simp only [move_cons, operand, kind_move, name]
      split
      · refine bind_move (moves.arguments later) ?_
        rintro ⟨args, rest⟩
        refine bind_move (expect_move anchor _ _ rest) ?_
        rintro ⟨closing, rest⟩
        exact bind_move (Typed.call_move env t args) fun _ => rfl
      · exact enumMember_move env anchor t later
      · exact bind_move (Typed.reference_move env t) fun _ => rfl

theorem operand_moves (moves : Moves m env anchor bound) (tokens : List Token) :
    operand (move m env) (move m anchor) (bound + 1) (move m tokens) =
      move m (operand env anchor (bound + 1) tokens) := by
  match tokens with
  | [] => rfl
  | t :: rest =>
      cases kind : t.kind with
      | identifier => exact name_moves moves kind rest
      | binary op =>
          cases op with
          | sub => exact minus_moves moves kind rest
          | add =>
              simp only [move_cons, operand, kind_move, kind]
              exact signed_moves moves rest (·.type.isNumeric) _ id id (fun _ => rfl) fun _ => rfl
          | _ => simp only [move_cons, operand, kind_move, kind]; rfl
      | increment | decrement =>
          simp only [move_cons, operand, kind_move, kind]
          exact signed_moves moves rest (·.type.isNumeric) _ id id (fun _ => rfl) fun _ => rfl
      | bang =>
          simp only [move_cons, operand, kind_move, kind]
          exact signed_moves moves rest (·.type.isBool) _ (Typed.unary .boolNot · t)
            (Typed.unary .boolNot · (move m t)) (fun e => Typed.unary_move .boolNot e t) fun _ => rfl
      | tilde =>
          simp only [move_cons, operand, kind_move, kind]
          exact signed_moves moves rest (·.type.isIntegral) _ (Typed.unary .bitNot · t)
            (Typed.unary .bitNot · (move m t)) (fun e => Typed.unary_move .bitNot e t) fun _ => rfl
      | datatype p =>
          simp only [move_cons, operand, kind_move, kind]
          refine ite_move rfl (bind_move (moves.operand rest) ?_)
          rintro ⟨e, rest⟩
          simp only [move_pair, Typed.cast_move]
          rfl
      | punctuation p =>
          cases p with
          | leftParen =>
              simp only [move_cons, operand, kind_move, kind]
              refine bind_move (moves.read 0 rest) ?_
              rintro ⟨e, rest⟩
              refine bind_move (expect_move anchor _ _ rest) ?_
              rintro ⟨closing, rest⟩
              rfl
          | _ => simp only [move_cons, operand, kind_move, kind]; rfl
      | keyword k =>
          cases k with
          | new =>
              simp only [move_cons, operand, kind_move, kind]
              exact construct_move env anchor t rest
          | _ => simp only [move_cons, operand, kind_move, kind]; rfl
      | literal l =>
          simp only [move_cons, operand, kind_move, kind]
          exact bind_move (Typed.literal_move l t) fun _ => rfl
      | _ => simp only [move_cons, operand, kind_move, kind]; rfl

theorem moves (env : Environment) (anchor : Token) (bound : Nat) : Moves m env anchor bound := by
  induction bound with
  | zero =>
      exact ⟨fun _ _ => rfl, fun _ _ tokens => by cases tokens <;> rfl, fun tokens => by cases tokens <;> rfl,
        fun _ => rfl, fun _ => rfl⟩
  | succ bound ih =>
      refine ⟨fun level tokens => ?_, climb_moves ih, operand_moves ih, fun tokens => ?_,
        fun tokens => ?_⟩
      · refine bind_move (ih.operand tokens) ?_
        rintro ⟨first, rest⟩
        exact ih.climb level first rest
      · simp only [arguments, head?_move]
        rw [option_any_move fun t => is_move t _]
        exact ite_move rfl (ih.argumentList tokens)
      · refine bind_move (ih.read 0 tokens) ?_
        rintro ⟨first, rest⟩
        cases rest with
        | nil => rfl
        | cons t later =>
            simp only [move_pair, move_cons, is_move]
            refine ite_move (bind_move (ih.argumentList later) ?_) rfl
            rintro ⟨others, rest⟩
            rfl

end Expression

@[simp] theorem Environment.expression_move (env : Environment) (tokens : List Token) (place : Token) :
    (move m env).expression (move m tokens) (move m place) = move m (env.expression tokens place) := by
  unfold Environment.expression
  rw [getLast?_move, length_move]
  cases tokens.getLast? with
  | none => rfl
  | some anchor =>
      refine bind_move ((Expression.moves env anchor _).read 0 tokens) ?_
      rintro ⟨e, rest⟩
      cases rest <;> rfl

section Parts

instance : Movable LeadingModifiers := ⟨fun m mods => { mods with tokens := move m mods.tokens }⟩

namespace LeadingModifiers

@[simp] theorem set_move (mods : LeadingModifiers) : (move m mods).set = mods.set := rfl
@[simp] theorem tokens_move (mods : LeadingModifiers) :
    (move m mods).tokens = move m mods.tokens := rfl

@[simp] theorem node_move (mods : LeadingModifiers) (line : Nat) :
    (move m mods).node (m.streamLine line) = move m (mods.node line) := by
  have leaves : (move m mods.tokens).map (Node.leaf .modifier) =
      move m (mods.tokens.map (Node.leaf .modifier)) := map_move (fun t => leaf_move _ t) mods.tokens
  rw [node, node, tokens_move, leaves, node_new_move]

theorem readFrom_move (conflict : Modifier → Modifier → Fault) (mods : LeadingModifiers)
    (tokens : List Token) :
    readFrom conflict (move m mods) (move m tokens) = move m (readFrom conflict mods tokens) := by
  induction tokens generalizing mods with
  | nil => rfl
  | cons t rest ih =>
      simp only [move_cons, readFrom, kind_move, set_move, tokens_move]
      split
      · split
        next set _ =>
          have next := ih ⟨set, mods.tokens ++ [t]⟩
          rw [← next]
          exact congrArg (fun tokens => readFrom conflict ⟨set, tokens⟩ (move m rest))
            (move_append mods.tokens [t]).symm
        next => rfl
      · rfl

@[simp] theorem read_move (tokens : List Token) :
    LeadingModifiers.read (move m tokens) = move m (LeadingModifiers.read tokens) :=
  readFrom_move _ {} tokens

@[simp] theorem first?_move (mods : LeadingModifiers) (p : Modifier → Bool) :
    (move m mods).first? p = move m (mods.first? p) :=
  find?_move (fun _ => rfl) mods.tokens

@[simp] theorem requireNone_move (mods : LeadingModifiers) :
    (move m mods).requireNone = move m mods.requireNone := by
  unfold requireNone
  rw [tokens_move]
  cases mods.tokens <;> rfl

@[simp] theorem requireNoMutability_move (mods : LeadingModifiers) (what : String) :
    (move m mods).requireNoMutability what = move m (mods.requireNoMutability what) := by
  unfold requireNoMutability
  rw [first?_move]
  cases mods.first? Modifier.isMutability <;> rfl

@[simp] theorem requireVisibilityOnly_move (mods : LeadingModifiers) (what : String) :
    (move m mods).requireVisibilityOnly what = move m (mods.requireVisibilityOnly what) := by
  refine bind_move (requireNoMutability_move mods what) fun _ => ?_
  rw [first?_move]
  cases mods.first? (!·.isVisibility) <;> rfl

end LeadingModifiers

-- Which parts there are shows in the kinds of the tokens alone.
theorem splitParts_move (depth : Nat) (tokens : List Token) :
    splitParts depth (move m tokens) = move m (splitParts depth tokens) := by
  induction tokens generalizing depth with
  | nil => rfl
  | cons t rest ih =>
      simp only [move_cons, splitParts, kind_move, ih]
      split
      · rfl
      · next depth' kind _ _ =>
        generalize splitParts _ rest = parts
        cases parts <;> rfl

@[simp] theorem splitCommas_move (tokens : List Token) :
    splitCommas (move m tokens) = move m (splitCommas tokens) := splitParts_move 0 tokens

@[simp] theorem splitClosing_move (depth : Nat) (tokens : List Token) :
    splitClosing depth (move m tokens) = move m (splitClosing depth tokens) := by
  induction tokens generalizing depth with
  | nil => rfl
  | cons t rest ih =>
      simp only [move_cons, splitClosing, kind_move, ih]
      split
      · rfl
      · generalize splitClosing _ rest = parts
        cases parts <;> rfl

@[simp] theorem unwrap_move (tokens : List Token) : unwrap (move m tokens) = move m (unwrap tokens) := by
  cases tokens with
  | nil => rfl
  | cons t rest =>
      simp only [move_cons, unwrap, kind_move, splitClosing_move]
      by_cases opening : t.kind = .leftParen
      · rw [opening]
        rcases splitClosing 0 rest with _ | ⟨inner, _ | ⟨after, more⟩⟩ <;> rfl
      · split
        next => contradiction
        · split
          next => contradiction
          next => rfl

@[simp] theorem typeNode_move (token : Option Token) (type : Datatype) (line : Nat) :
    typeNode (move m token) type (m.streamLine line) = move m (typeNode token type line) := by
  cases token with
  | none => simp only [typeNode, move_none, node_empty_move, typed_move]
  | some t => simp only [typeNode, move_some, leaf_move, typed_move]

@[simp] theorem declaredName_move (token : Option Token) (place : Token) (what : String) :
    declaredName (move m token) (move m place) what = move m (declaredName token place what) := by
  cases token with
  | none => rfl
  | some t =>
      simp only [move_some, declaredName, kind_move, lexeme_move]
      exact ite_move rfl (ite_move rfl rfl)

@[simp] theorem requireEnd_move (tokens : List Token) (last : Token) (what : String) :
    requireEnd (move m tokens) (move m last) what = move m (requireEnd tokens last what) := by
  match tokens with
  | [] => rfl
  | [t] => exact require_move _ _ t
  | t :: u :: rest => rfl

@[simp] theorem requireBrace_move (before : Token) (tokens : List Token) (place : String) :
    requireBrace (move m before) (move m tokens) place = move m (requireBrace before tokens place) := by
  match tokens with
  | [] => rfl
  | [t] => exact require_move _ _ t
  | t :: u :: rest => rfl

@[simp] theorem dropLastOf_move (kind : TokenKind) (first : Token) (tokens : List Token)
    (place : String) :
    dropLastOf kind (move m first) (move m tokens) place =
      move m (dropLastOf kind first tokens place) := by
  simp only [dropLastOf, getLast?_move, getD_move, is_move, dropLast_move]
  exact ite_move rfl rfl

end Parts

end MiLanguage
