import MiLanguage.Proofs.Statement.RangeLoop

set_option autoImplicit false

namespace MiLanguage

-- What is read from tokens by their places. There is nothing if a place is outside of the tokens,
-- or if a number would fall below zero.
abbrev Indexed := ExceptT Report Option

namespace Indexed

variable {α β : Type}

def get (found : Option α) : Indexed α := ExceptT.mk (found.map .ok)

def check (x : Checked α) : Indexed α := ExceptT.mk (some x)

-- The difference, if it is a number.
def minus? (a b : Nat) : Option Nat := if b ≤ a then some (a - b) else none

-- The tokens from one place up to another, if both places are there.
def slice? (tokens : List Token) (start stop : Nat) : Option (List Token) :=
  if start ≤ stop ∧ stop ≤ tokens.length then some ((tokens.take stop).drop start) else none

@[simp] theorem get_some (a : α) : get (some a) = pure a := rfl

@[simp] theorem check_ok (a : α) : check (.ok a) = pure a := rfl

theorem check_bind {x : Checked α} {k : α → Indexed β} {h : α → Checked β}
    (each : ∀ a, x = .ok a → k a = check (h a)) : (check x >>= k) = check (x >>= h) := by
  cases x with
  | error report => rfl
  | ok a => exact each a rfl

theorem check_ite {c : Prop} [Decidable c] (x y : Checked α) :
    (if c then check x else check y) = check (if c then x else y) := by
  split <;> rfl

theorem minus_of_le {a b : Nat} (le : b ≤ a) : minus? a b = some (a - b) := if_pos le

theorem slice_of_le {tokens : List Token} {start stop : Nat} (le : start ≤ stop)
    (inside : stop ≤ tokens.length) : slice? tokens start stop = some ((tokens.take stop).drop start) :=
  if_pos ⟨le, inside⟩

theorem slice_to_end {tokens : List Token} {start : Nat} (inside : start ≤ tokens.length) :
    slice? tokens start tokens.length = some (tokens.drop start) := by
  rw [slice_of_le inside (Nat.le_refl _), List.take_length]

theorem slice_append {before inner after : List Token} {start stop : Nat}
    (first : start = before.length) (last : stop = before.length + inner.length) :
    slice? (before ++ inner ++ after) start stop = some inner := by
  subst first last
  rw [slice_of_le (Nat.le_add_right _ _) (by simp), ← List.length_append, List.take_left, List.drop_left]

theorem drop_cons {tokens rest : List Token} {t : Token} {i : Nat} (here : tokens.drop i = t :: rest) :
    tokens[i]? = some t ∧ tokens.drop (i + 1) = rest ∧ i < tokens.length := by
  refine ⟨?_, ?_, ?_⟩
  · rw [← List.head?_drop, here]
    rfl
  · rw [← List.tail_drop, here]
    rfl
  · have longer : 0 < (tokens.drop i).length := by rw [here]; simp
    rw [List.length_drop] at longer
    omega

theorem drop_nil {tokens : List Token} {i : Nat} (here : tokens.drop i = []) : tokens[i]? = none := by
  rw [← List.head?_drop, here]
  rfl

-- The last token.
def last (tokens : List Token) : Indexed Token := do
  let i ← get (minus? tokens.length 1)
  get tokens[i]?

theorem last_cons (first : Token) (tokens : List Token) :
    last (first :: tokens) = pure (tokens.getLast?.getD first) := by
  unfold last
  rw [minus_of_le (by simp), get_some, pure_bind]
  have here : (first :: tokens)[(first :: tokens).length - 1]? = some (tokens.getLast?.getD first) := by
    rw [← List.getLast?_eq_getElem?, List.getLast?_cons]
  rw [here, get_some]

-- The modifiers from a place on, and what is behind them.
def modifiersFrom (tokens : List Token) (mods : LeadingModifiers) (i : Nat) :
    Indexed (LeadingModifiers × List Token) :=
  match _here : tokens[i]? with
  | none => do
      let rest ← get (slice? tokens i tokens.length)
      pure (mods, rest)
  | some t =>
      match t.kind with
      | .modifier m =>
          match mods.set.insert m with
          | .ok set => modifiersFrom tokens ⟨set, mods.tokens ++ [t]⟩ (i + 1)
          | .error present => check (blame (SyntaxFault.conflictingModifiers m present) t)
      | _ => do
          let rest ← get (slice? tokens i tokens.length)
          pure (mods, rest)
termination_by tokens.length - i
decreasing_by
  have inside := (List.getElem?_eq_some_iff.mp _here).1
  omega

theorem modifiersFrom_eq {tokens : List Token} {mods : LeadingModifiers} {i : Nat}
    (inside : i ≤ tokens.length) : modifiersFrom tokens mods i =
      check (LeadingModifiers.readFrom (fun m present => SyntaxFault.conflictingModifiers m present) mods
        (tokens.drop i)) := by
  generalize rest : tokens.drop i = left
  induction left generalizing mods i with
  | nil =>
      unfold modifiersFrom
      split
      · rw [slice_to_end inside, rest]
        rfl
      next found =>
        rw [drop_nil rest] at found
        cases found
  | cons t left ih =>
      obtain ⟨here, next, inside'⟩ := drop_cons rest
      unfold modifiersFrom LeadingModifiers.readFrom
      split
      next unfound => rw [here] at unfound; cases unfound
      next u found =>
        rw [here] at found
        cases found
        rw [slice_to_end inside, rest]
        cases t.kind with
        | modifier m =>
            dsimp only
            cases mods.set.insert m with
            | ok set => exact ih inside' next
            | error present => rfl
        | _ => rfl

-- The place of the parenthesis that closes the one at the head, if `tokens` start at `index`.
def matchingFrom (index depth : Nat) : List Token → Option (Option Nat)
  | [] => some none
  | t :: rest =>
      match t.kind with
      | .leftParen => matchingFrom (index + 1) (depth + 1) rest
      | .rightParen => do
          let depth ← minus? depth 1
          if depth = 0 then some (some index) else matchingFrom (index + 1) depth rest
      | _ => matchingFrom (index + 1) depth rest

def matching (tokens : List Token) (opening : Nat) : Option (Option Nat) :=
  matchingFrom opening 0 (tokens.drop opening)

-- More parentheses have been opened than closed all the way, so that the count stays above zero.
theorem matchingFrom_succ (index depth : Nat) (tokens : List Token) :
    matchingFrom index (depth + 1) tokens =
      some ((splitClosing depth tokens).map fun found => index + found.1.length) := by
  induction tokens generalizing index depth with
  | nil => rfl
  | cons t rest ih =>
      have shift (depth : Nat) : matchingFrom (index + 1) (depth + 1) rest =
          some (((splitClosing depth rest).map fun found => (t :: found.1, found.2)).map
            fun found => index + found.1.length) := by
        rw [ih, Option.map_map]
        simp [Function.comp_def, Nat.add_assoc, Nat.add_comm 1]
      unfold matchingFrom
      split
      next left => rw [splitClosing_leftParen left]; exact shift (depth + 1)
      next right =>
        rw [minus_of_le (Nat.le_add_left 1 depth)]
        cases depth with
        | zero => simp [splitClosing, right]
        | succ depth => rw [splitClosing_rightParen right]; exact shift depth
      next left right => rw [splitClosing_plain left right]; exact shift depth

theorem matching_eq {tokens rest : List Token} {opening : Token} {i : Nat}
    (here : tokens.drop i = opening :: rest) (kind : opening.kind = .leftParen) :
    matching tokens i = some ((splitClosing 0 rest).map fun found => i + 1 + found.1.length) := by
  rw [matching, here, matchingFrom, kind]
  exact matchingFrom_succ (i + 1) 0 rest

theorem splitClosing_eq_some {depth : Nat} {tokens inner after : List Token}
    (found : splitClosing depth tokens = some (inner, after)) :
    ∃ closing, tokens = inner ++ closing :: after := by
  induction tokens generalizing depth inner with
  | nil => cases found
  | cons t rest ih =>
      have deeper {next : Nat} (found : (splitClosing next rest).map
          (fun found => (t :: found.1, found.2)) = some (inner, after)) :
          ∃ closing, t :: rest = inner ++ closing :: after := by
        obtain ⟨⟨inside, behind⟩, here, same⟩ := Option.map_eq_some_iff.mp found
        cases same
        obtain ⟨closing, shown⟩ := ih here
        exact ⟨closing, by rw [shown]; rfl⟩
      unfold splitClosing at found
      split at found
      · cases found
        exact ⟨t, rfl⟩
      · exact deeper found

-- The opening parenthesis and what stands between it and its partner at the very end.
def wrapped (tokens : List Token) : Option (Option (Token × List Token)) :=
  if 2 ≤ tokens.length then do
    let opening ← tokens[0]?
    if opening.is .leftParen then do
      let closing ← matching tokens 0
      let stop ← minus? tokens.length 1
      if closing = some stop then do
        let inner ← slice? tokens 1 stop
        some (some (opening, inner))
      else some none
    else some none
  else some none

theorem wrapped_eq (tokens : List Token) : wrapped tokens = some (unwrap tokens) := by
  cases tokens with
  | nil => rfl
  | cons t rest =>
      unfold wrapped
      by_cases opens : t.kind = .leftParen
      · rw [matching_eq (i := 0) rfl opens, minus_of_le (by simp)]
        simp only [List.getElem?_cons_zero, Option.bind_eq_bind, Option.bind_some,
          (Token.is_iff t _).mpr opens, if_true, List.length_cons, Nat.add_sub_cancel]
        simp only [unwrap, opens]
        cases found : splitClosing 0 rest with
        | none => simp
        | some both =>
            obtain ⟨inner, after⟩ := both
            obtain ⟨closing, rfl⟩ := splitClosing_eq_some found
            rw [if_pos (by simp only [List.length_append, List.length_cons]; omega)]
            cases after with
            | nil =>
                have inside : slice? ([t] ++ inner ++ [closing]) 1 (inner ++ [closing]).length =
                    some inner := slice_append rfl (by simp [Nat.add_comm])
                rw [List.append_assoc, List.singleton_append] at inside
                rw [if_pos (by simp [Nat.add_comm]), inside]
                rfl
            | cons a after =>
                rw [if_neg]
                simp
                omega
      · have no : t.is .leftParen = false := by
          cases is : t.is .leftParen with
          | false => rfl
          | true => exact absurd ((Token.is_iff t _).mp is) opens
        simp only [List.getElem?_cons_zero, Option.bind_eq_bind, Option.bind_some, no]
        have other : unwrap (t :: rest) = none := by
          rw [unwrap]
          split
          next kind _ => exact absurd kind opens
          next => rfl
        rw [other]
        split <;> rfl

-- The parts between commas, where the one that is being read starts at `start`.
def partsFrom (tokens : List Token) (start index depth : Nat) :
    List Token → Option (List (List Token))
  | [] => do
      let part ← slice? tokens start tokens.length
      some [part]
  | t :: rest =>
      match t.kind with
      | .leftParen => partsFrom tokens start (index + 1) (depth + 1) rest
      | .rightParen => partsFrom tokens start (index + 1) (depth - 1) rest
      | .comma =>
          if depth = 0 then do
            let part ← slice? tokens start index
            let parts ← partsFrom tokens (index + 1) (index + 1) 0 rest
            some (part :: parts)
          else partsFrom tokens start (index + 1) depth rest
      | _ => partsFrom tokens start (index + 1) depth rest

def parts (tokens : List Token) : Option (List (List Token)) := partsFrom tokens 0 0 0 tokens

theorem partsFrom_eq (before part rest : List Token) (depth : Nat) :
    partsFrom (before ++ part ++ rest) before.length (before.length + part.length) depth rest =
      some (addFirst part (splitParts depth rest)) := by
  induction rest generalizing before part depth with
  | nil =>
      unfold partsFrom
      rw [slice_to_end (by simp)]
      simp [splitParts, addFirst]
  | cons t rest ih =>
      -- A token inside of a part moves over to what has been read of it.
      have inside (next : Nat) : partsFrom (before ++ part ++ t :: rest) before.length
          (before.length + part.length + 1) next rest =
            some (addFirst part (addFirst [t] (splitParts next rest))) := by
        have read := ih before (part ++ [t]) next
        rw [addFirst_addFirst]
        simpa [Nat.add_assoc] using read
      unfold partsFrom
      split
      next left => rw [inside, splitParts_leftParen left]
      next right =>
        cases depth with
        | zero => rw [inside]; simp only [splitParts, right]; rfl
        | succ depth => rw [inside, splitParts_rightParen right]; rfl
      next comma =>
        cases depth with
        | zero =>
            have here : slice? (before ++ part ++ t :: rest) before.length
                (before.length + part.length) = some part := slice_append rfl rfl
            have read := ih (before ++ part ++ [t]) [] 0
            simp only [List.append_nil, List.length_append, List.length_singleton, List.length_nil,
              Nat.add_zero, List.append_assoc, List.singleton_append, addFirst_nil,
              ← Nat.add_assoc] at read
            rw [if_pos rfl, here, splitParts_comma comma]
            simp [addFirst, read]
        | succ depth =>
            rw [if_neg (Nat.succ_ne_zero depth), inside,
              splitParts_plain (by simp [comma]) (by simp [comma]) (depth + 1) (by simp)]
      next left right comma => rw [inside, splitParts_plain left right _ fun _ => comma]

theorem parts_eq (tokens : List Token) : parts tokens = some (splitCommas tokens) := by
  have read := partsFrom_eq [] [] tokens 0
  rw [addFirst_nil] at read
  exact read

-- The rest of the tokens behind a block, where `depth` braces are open.
def skipBlock (depth : Nat) : List Token → Option (Option (List Token))
  | [] => some none
  | t :: rest =>
      match t.kind with
      | .leftBrace => skipBlock (depth + 1) rest
      | .rightBrace => do
          let depth ← minus? depth 1
          if depth = 0 then some (some rest) else skipBlock depth rest
      | _ => skipBlock depth rest

theorem skipBlock_eq (depth : Nat) (tokens : List Token) :
    skipBlock (depth + 1) tokens = some (Chunk.skipBlock depth tokens) := by
  induction tokens generalizing depth with
  | nil => rfl
  | cons t rest ih =>
      unfold skipBlock
      split
      next left => rw [ih, Chunk.skipBlock_leftBrace left]
      next right =>
        rw [minus_of_le (Nat.le_add_left 1 depth)]
        cases depth with
        | zero => simp [Chunk.skipBlock, right]
        | succ depth => rw [Chunk.skipBlock_rightBrace right]; exact ih depth
      next left right => rw [ih, Chunk.skipBlock_plain left right]

end Indexed

end MiLanguage
