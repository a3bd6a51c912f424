import MiLanguage.Proofs.Lexing.Layout
import MiLanguage.Proofs.Lexing.Longest
import MiLanguage.Token.Stream

set_option autoImplicit false

namespace MiLanguage

namespace SourceUnit

variable {unit : SourceUnit}

-- A part of the unit's text, in bytes.
def Covers (unit : SourceUnit) (span : Span) (cs : List Char) : Prop :=
  ∃ before after, unit.text.toList = before ++ cs ++ after ∧
    span = unit.spanAt (utf8Length before) cs

/-- A token that spells a part of the unit's text and knows the line and column of its start. -/
structure Places (unit : SourceUnit) (t : Token) : Prop where
  covers : unit.Covers t.span t.lexeme.toList
  position : (⟨t.line, t.column⟩ : Position) = .ofOffset unit.text t.span.start
  streamLine : t.streamLine = t.line + unit.lineOffset

namespace Covers

variable {span : Span} {cs : List Char}

theorem fileId (covers : unit.Covers span cs) : span.fileId = unit.fileId := by
  obtain ⟨before, after, -, rfl⟩ := covers
  rfl

theorem start_le_stop (covers : unit.Covers span cs) : span.start ≤ span.stop := by
  obtain ⟨before, after, -, rfl⟩ := covers
  exact Nat.le_add_right _ _

theorem stop_le (covers : unit.Covers span cs) : span.stop ≤ utf8Length unit.text.toList := by
  obtain ⟨before, after, text, rfl⟩ := covers
  rw [text, utf8Length_append, utf8Length_append]
  exact Nat.le_add_right _ _

end Covers

-- What the lexer makes of a text, from `before` on: each token has its place, and an error spans a
-- part of the text.
theorem tokensFrom_placed (before : List Char) {rest : List Char} (text : unit.text.toList = before ++ rest)
    (taken : Nat) :
    match unit.tokensFrom (lineBreaks 0 unit.text.toList) (utf8Length before) taken rest with
    | .ok tokens => ∀ t ∈ tokens, unit.Places t
    | .error e => ∃ cs, unit.Covers e.span cs := by
  have covered {before rest : List Char} (text : unit.text.toList = before ++ rest) (length : Nat) :
      unit.Covers (unit.spanAt (utf8Length before) (rest.take length)) (rest.take length) :=
    ⟨before, rest.drop length, by rw [text, List.append_assoc, List.take_append_drop], rfl⟩
  induction rest generalizing before taken with
  | nil =>
      intro t member
      cases member
  | cons c cs ih =>
      have text' : unit.text.toList = (before ++ [c]) ++ cs := by rw [text, List.append_assoc]; rfl
      have offset : utf8Length before + c.utf8Size = utf8Length (before ++ [c]) := by
        rw [utf8Length_append]
        rfl
      simp only [tokensFrom, offset]
      cases taken with
      | succ taken => exact ih _ text' taken
      | zero =>
          cases Lexeme.scan c cs with
          | blank length => exact ih _ text' (length - 1)
          | unterminatedComment => exact ⟨_, covered text 2⟩
          | unexpected length => exact ⟨_, covered text length⟩
          | token kind length =>
              have later := ih _ text' (length - 1)
              simp only
              cases read : unit.tokensFrom (lineBreaks 0 unit.text.toList)
                  (utf8Length (before ++ [c])) (length - 1) cs with
              | error e =>
                  rw [read] at later
                  exact later
              | ok tokens =>
                  rw [read] at later
                  intro t member
                  rcases List.mem_cons.mp member with rfl | member
                  · refine ⟨?_, rfl, rfl⟩
                    have here := covered text length
                    rwa [tokenAt, String.toList_ofList]
                  · exact later t member

theorem tokens_placed (unit : SourceUnit) :
    match unit.tokens with
    | .ok tokens => ∀ t ∈ tokens, unit.Places t
    | .error e => ∃ cs, unit.Covers e.span cs :=
  tokensFrom_placed [] rfl 0

theorem places_of_tokens {tokens : List Token} (read : unit.tokens = .ok tokens) :
    ∀ t ∈ tokens, unit.Places t := by
  have placed := tokens_placed unit
  rwa [read] at placed

theorem covers_of_error {e : LexicalError} (failed : unit.tokens = .error e) :
    ∃ cs, unit.Covers e.span cs := by
  have placed := tokens_placed unit
  rwa [failed] at placed

end SourceUnit

namespace SourceUnit

variable {unit : SourceUnit} {before rest : List Char} {tokens : List Token}

/-- The text falls into tokens, each the longest, and trivia between them, up to `rest`. -/
inductive Splits (unit : SourceUnit) : List Char → List Token → List Char → Prop
  | start : Splits unit [] [] unit.text.toList
  | trivia {before : List Char} {tokens : List Token} (item : List Char) {rest : List Char} :
      TriviaItem item rest → Splits unit before tokens (item ++ rest) →
      Splits unit (before ++ item) tokens rest
  | token {before : List Char} {tokens : List Token} (kind : TokenKind) (lexeme : List Char)
      {rest : List Char} : Longest kind lexeme rest → Splits unit before tokens (lexeme ++ rest) →
      Splits unit (before ++ lexeme)
        (tokens ++ [unit.tokenAt (lineBreaks 0 unit.text.toList) (utf8Length before) kind lexeme]) rest

theorem Splits.text (splits : Splits unit before tokens rest) : unit.text.toList = before ++ rest := by
  induction splits with
  | start => rfl
  | trivia item _ _ ih => rw [ih, List.append_assoc]
  | token kind lexeme _ _ ih => rw [ih, List.append_assoc]

/-- Why reading stops before `rest`: neither a token nor trivia are there, or a comment that nothing
ends. -/
inductive Halts (rest : List Char) : LexicalFault → Prop
  | unreadable (length : Nat) : Unreadable rest →
      Halts rest (.unexpectedText (String.ofList (rest.take length)))
  | comment {comment : List Char} : rest = '/' :: '*' :: comment → ¬['*', '/'] <:+: comment →
      Halts rest .unterminatedComment

-- What becomes of a text after `tokens`.
def Finishes (unit : SourceUnit) (tokens : List Token) : Except LexicalError (List Token) → Prop
  | .ok later => unit.Splits unit.text.toList (tokens ++ later) []
  | .error e => ∃ before tokens rest, unit.Splits before tokens rest ∧
      e.span.start = utf8Length before ∧ Halts rest e.fault

theorem Finishes.token {t : Token} {outcome : Except LexicalError (List Token)}
    (finishes : unit.Finishes (tokens ++ [t]) outcome) :
    unit.Finishes tokens (do let later ← outcome; .ok (t :: later)) := by
  cases outcome with
  | error e => exact finishes
  | ok later =>
      have whole : unit.Splits unit.text.toList (tokens ++ [t] ++ later) [] := finishes
      rwa [List.append_assoc] at whole

-- What the scanner has read of a text is passed over at once.
theorem tokensFrom_passed (unit : SourceUnit) (breaks : List Nat) (before : List Char) {c : Char}
    {passed rest : List Char} (length : Nat) (size : (c :: passed).length = length) :
    unit.tokensFrom breaks (utf8Length before + c.utf8Size) (length - 1) (passed ++ rest) =
      unit.tokensFrom breaks (utf8Length (before ++ c :: passed)) 0 rest := by
  subst size
  rw [List.length_cons, Nat.add_sub_cancel, tokensFrom_skip, utf8Length_append, utf8Length,
    Nat.add_assoc]

theorem tokensFrom_finishes (splits : unit.Splits before tokens rest) :
    unit.Finishes tokens
      (unit.tokensFrom (lineBreaks 0 unit.text.toList) (utf8Length before) 0 rest) := by
  induction size : rest.length using Nat.strong_induction_on generalizing before tokens rest with
  | _ n ih =>
  cases rest with
  | nil =>
      have text := splits.text
      rw [List.append_nil] at text
      show unit.Splits unit.text.toList (tokens ++ []) []
      rw [text, List.append_nil]
      exact splits
  | cons c rest =>
      have correct := scan_correct c rest
      rw [tokensFrom]
      cases scanned : Lexeme.scan c rest with
      | token kind length =>
          rw [scanned] at correct
          obtain ⟨lexeme, after, text, count, longest⟩ := correct
          obtain ⟨passed, rfl, rfl⟩ := cons_of_append (ne_nil_of_spelled longest.spelled) text
          have taken : (c :: (passed ++ after)).take length = c :: passed := by
            rw [← count, ← List.cons_append, List.take_left]
          have shorter : after.length < n := by
            rw [← size, List.length_cons, List.length_append]
            omega
          dsimp only
          rw [tokensFrom_passed unit _ before length count, taken]
          exact .token (ih _ shorter (.token kind _ longest splits) rfl)
      | blank length =>
          rw [scanned] at correct
          obtain ⟨item, after, text, count, trivia⟩ := correct
          obtain ⟨passed, rfl, rfl⟩ := cons_of_append trivia.ne_nil text
          have shorter : after.length < n := by
            rw [← size, List.length_cons, List.length_append]
            omega
          dsimp only
          rw [tokensFrom_passed unit _ before length count]
          exact ih _ shorter (.trivia _ trivia splits) rfl
      | unterminatedComment =>
          rw [scanned] at correct
          obtain ⟨comment, text, unclosed⟩ := correct
          exact ⟨before, tokens, _, splits, rfl, .comment text unclosed⟩
      | unexpected length =>
          rw [scanned] at correct
          exact ⟨before, tokens, _, splits, rfl, .unreadable length correct⟩

/-- Tokens and trivia make up the text before `rest`. -/
structure Lossless (unit : SourceUnit) (before : List Char) (tokens : List Token) (rest : List Char) :
    Prop where
  text : unit.text.toList = before ++ rest
  nonempty : ∀ t ∈ tokens, t.span.start < t.span.stop
  ordered : tokens.Pairwise fun t u => t.span.stop ≤ u.span.start
  -- Each spells its span, with no longer token at that place.
  longest : ∀ t ∈ tokens, ∃ front back, unit.text.toList = front ++ t.lexeme.toList ++ back ∧
    t.span = unit.spanAt (utf8Length front) t.lexeme.toList ∧ Longest t.kind t.lexeme.toList back
  inside : ∀ t ∈ tokens, t.span.stop ≤ utf8Length before
  -- What no token covers belongs to trivia, which keep clear of all tokens.
  gaps : ∀ offset < utf8Length before, (∃ t ∈ tokens, t.span.start ≤ offset ∧ offset < t.span.stop) ∨
    ∃ front item back, unit.text.toList = front ++ item ++ back ∧ TriviaItem item back ∧
      utf8Length front ≤ offset ∧ offset < utf8Length (front ++ item) ∧
      utf8Length (front ++ item) ≤ utf8Length before ∧
      ∀ t ∈ tokens, t.span.stop ≤ utf8Length front ∨ utf8Length (front ++ item) ≤ t.span.start

theorem utf8Length_pos {cs : List Char} (nonempty : cs ≠ []) : 0 < utf8Length cs := by
  obtain ⟨c, cs, rfl⟩ := List.exists_cons_of_ne_nil nonempty
  exact Nat.lt_of_lt_of_le c.utf8Size_pos (Nat.le_add_right _ _)

theorem Splits.lossless (splits : Splits unit before tokens rest) : Lossless unit before tokens rest := by
  induction splits with
  | start => exact ⟨rfl, nofun, .nil, nofun, nofun, nofun⟩
  | @trivia before tokens item rest trivia splits ih =>
      refine ⟨(Splits.trivia item trivia splits).text, ih.nonempty, ih.ordered, ih.longest, ?_, ?_⟩
      · intro t member
        rw [utf8Length_append]
        exact (ih.inside t member).trans (Nat.le_add_right _ _)
      · intro offset inside
        by_cases here : utf8Length before ≤ offset
        · refine .inr ⟨before, item, rest, ?_, trivia, here, inside, Nat.le_refl _,
            fun t member => .inl (ih.inside t member)⟩
          rw [ih.text, List.append_assoc]
        · have more : utf8Length before ≤ utf8Length (before ++ item) := by
            rw [utf8Length_append]
            exact Nat.le_add_right _ _
          exact (ih.gaps offset (Nat.lt_of_not_le here)).imp_right
            fun ⟨front, item, back, split, trivia, low, high, within, clear⟩ =>
              ⟨front, item, back, split, trivia, low, high, within.trans more, clear⟩
  | @token before tokens kind lexeme rest longest splits ih =>
      have whole := utf8Length_append before lexeme
      have nonempty := utf8Length_pos (ne_nil_of_spelled longest.spelled)
      have text : unit.text.toList = before ++ lexeme ++ rest := by rw [ih.text, List.append_assoc]
      refine ⟨text, ?_, ?_, ?_, ?_, ?_⟩
      · refine List.forall_mem_append.mpr ⟨ih.nonempty, List.forall_mem_singleton.mpr ?_⟩
        exact Nat.lt_add_of_pos_right nonempty
      · refine List.pairwise_append.mpr ⟨ih.ordered, List.pairwise_singleton _ _, fun t member u last => ?_⟩
        cases List.mem_singleton.mp last
        exact ih.inside t member
      · refine List.forall_mem_append.mpr ⟨ih.longest, List.forall_mem_singleton.mpr ⟨before, rest, ?_⟩⟩
        rw [tokenAt, String.toList_ofList]
        exact ⟨text, rfl, longest⟩
      · refine List.forall_mem_append.mpr ⟨fun t member => ?_, List.forall_mem_singleton.mpr ?_⟩
        · exact (ih.inside t member).trans (whole ▸ Nat.le_add_right _ _)
        · exact Nat.le_of_eq whole.symm
      · intro offset inside
        by_cases here : utf8Length before ≤ offset
        · rw [whole] at inside
          exact .inl ⟨_, List.mem_append_right _ List.mem_cons_self, here, inside⟩
        · rcases ih.gaps offset (Nat.lt_of_not_le here) with ⟨t, member, covered⟩ | gap
          · exact .inl ⟨t, List.mem_append_left _ member, covered⟩
          · obtain ⟨front, item, back, split, trivia, low, high, within, clear⟩ := gap
            refine .inr ⟨front, item, back, split, trivia, low, high,
              within.trans (whole ▸ Nat.le_add_right _ _), ?_⟩
            exact List.forall_mem_append.mpr ⟨clear, List.forall_mem_singleton.mpr (.inr within)⟩

/-- Reading a text loses nothing: it falls into tokens and trivia through its end, or through the
place of the error, where neither can be read. -/
theorem tokens_lossless (unit : SourceUnit) :
    match unit.tokens with
    | .ok tokens => unit.Lossless unit.text.toList tokens []
    | .error e => ∃ before tokens rest, unit.Lossless before tokens rest ∧
        e.span.start = utf8Length before ∧ Halts rest e.fault := by
  have finishes : unit.Finishes []
      (unit.tokensFrom (lineBreaks 0 unit.text.toList) (utf8Length []) 0 unit.text.toList) :=
    tokensFrom_finishes .start
  rw [utf8Length] at finishes
  unfold SourceUnit.tokens
  cases read : unit.tokensFrom (lineBreaks 0 unit.text.toList) 0 0 unit.text.toList with
  | ok tokens =>
      rw [read] at finishes
      exact Splits.lossless finishes
  | error e =>
      rw [read] at finishes
      obtain ⟨before, tokens, rest, splits, place, halts⟩ := finishes
      exact ⟨before, tokens, rest, splits.lossless, place, halts⟩

end SourceUnit

end MiLanguage
