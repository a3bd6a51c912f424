import MiLanguage.Proofs.Lexing.Scan
import MiLanguage.Token.Stream

set_option autoImplicit false

namespace MiLanguage

/-- Blanks and complete comments. A line comment is complete with its newline. -/
inductive Trivia : List Char → Prop
  | nil : Trivia []
  | blank {c : Char} {cs : List Char} : isBlank c = true → Trivia cs → Trivia (c :: cs)
  | line (body : List Char) {cs : List Char} : '\n' ∉ body → Trivia cs →
      Trivia ('/' :: '/' :: (body ++ '\n' :: cs))
  | block (body : List Char) {cs : List Char} : ¬['*', '/'] <:+: body ++ ['*'] → Trivia cs →
      Trivia ('/' :: '*' :: (body ++ '*' :: '/' :: cs))

/-- At the end of a text a line comment needs no newline. -/
inductive FinalTrivia : List Char → Prop
  | trivia {cs : List Char} : Trivia cs → FinalTrivia cs
  | line {cs : List Char} (body : List Char) : Trivia cs → '\n' ∉ body → FinalTrivia (cs ++ '/' :: '/' :: body)

variable {gap rest : List Char}

section Stops

theorem Trivia.stops (trivia : Trivia gap) : Stops gap := by
  intro c first
  cases trivia with
  | nil => cases first
  | blank blank _ => cases first; exact .inl blank
  | line _ _ _ => cases first; exact .inr rfl
  | block _ _ _ => cases first; exact .inr rfl

theorem FinalTrivia.stops (trivia : FinalTrivia gap) : Stops gap := by
  cases trivia with
  | trivia trivia => exact trivia.stops
  | @line cs body trivia _ =>
      intro c first
      rw [List.head?_append] at first
      cases before : cs.head? with
      | none => rw [before] at first; cases first; exact .inr rfl
      | some d => rw [before] at first; cases first; exact trivia.stops c before

end Stops

theorem commentLength_block {body : List Char} (closed : ¬['*', '/'] <:+: body ++ ['*'])
    (rest : List Char) : commentLength (body ++ '*' :: '/' :: rest) = some (body.length + 2) := by
  induction body with
  | nil => rfl
  | cons c body ih =>
      have later : ¬['*', '/'] <:+: body ++ ['*'] := fun inside =>
        closed (inside.trans (List.suffix_cons c _).isInfix)
      have here : ¬(c = '*' ∧ (body ++ '*' :: '/' :: rest).head? = some '/') := by
        rintro ⟨rfl, slash⟩
        cases body with
        | nil => cases slash
        | cons d body =>
            cases slash
            exact closed ⟨[], body ++ ['*'], rfl⟩
      have step : commentLength (c :: (body ++ '*' :: '/' :: rest)) =
          (commentLength (body ++ '*' :: '/' :: rest)).map (· + 1) := by
        rw [commentLength]
        rintro tail rfl same
        exact here ⟨rfl, by rw [same]; rfl⟩
      rw [List.cons_append, step, ih later, Option.map_some, List.length_cons, Nat.add_right_comm]

namespace SourceUnit

variable {unit : SourceUnit} {breaks : List Nat} {offset : Nat}

theorem tokensFrom_skip (unit : SourceUnit) (breaks : List Nat) (offset : Nat)
    (passed rest : List Char) :
    unit.tokensFrom breaks offset passed.length (passed ++ rest) =
      unit.tokensFrom breaks (offset + utf8Length passed) 0 rest := by
  induction passed generalizing offset with
  | nil => rfl
  | cons c passed ih =>
      rw [List.cons_append, List.length_cons, tokensFrom, ih, utf8Length, Nat.add_assoc]

-- A run of blanks is passed over at once or one by one.
theorem tokensFrom_blanks (offset : Nat) (cs : List Char) :
    unit.tokensFrom breaks offset (cs.takeWhile isBlank).length cs =
      unit.tokensFrom breaks offset 0 cs := by
  cases cs with
  | nil => rfl
  | cons c cs =>
      by_cases blank : isBlank c = true
      · have scanned : Lexeme.scan c cs = .blank (1 + (cs.takeWhile isBlank).length) := if_pos blank
        rw [List.takeWhile_cons_of_pos blank, List.length_cons]
        simp only [tokensFrom, scanned, Nat.add_sub_cancel_left]
      · rw [List.takeWhile_cons_of_neg blank, List.length_nil]

theorem tokensFrom_blank {c : Char} (blank : isBlank c = true) (offset : Nat) (cs : List Char) :
    unit.tokensFrom breaks offset 0 (c :: cs) =
      unit.tokensFrom breaks (offset + c.utf8Size) 0 cs := by
  have scanned : Lexeme.scan c cs = .blank (1 + (cs.takeWhile isBlank).length) := if_pos blank
  simp only [tokensFrom, scanned, Nat.add_sub_cancel_left]
  exact tokensFrom_blanks _ cs

theorem tokensFrom_comment {c : Char} {comment : List Char}
    (scanned : Lexeme.scan c (comment ++ rest) = .blank (1 + comment.length)) (offset : Nat) :
    unit.tokensFrom breaks offset 0 (c :: (comment ++ rest)) =
      unit.tokensFrom breaks (offset + utf8Length (c :: comment)) 0 rest := by
  simp only [tokensFrom, scanned, Nat.add_sub_cancel_left]
  rw [tokensFrom_skip, utf8Length, Nat.add_assoc]

theorem scan_line {body : List Char} (oneLine : '\n' ∉ body) (rest : List Char)
    (ends : ∀ c ∈ rest.head?, c = '\n') :
    Lexeme.scan '/' ('/' :: body ++ rest) = .blank (1 + ('/' :: body).length) := by
  have plain : ∀ c ∈ body, decide (c ≠ '\n') = true := fun c member =>
    decide_eq_true fun same => oneLine (same ▸ member)
  have past : rest.takeWhile (· ≠ '\n') = [] := by
    cases rest with
    | nil => rfl
    | cons c rest => rw [ends c rfl]; rfl
  show Lexeme.blank (2 + ((body ++ rest).takeWhile (· ≠ '\n')).length) = _
  rw [List.takeWhile_append_of_pos plain, past, List.append_nil, List.length_cons]
  congr 1
  omega

theorem scan_block {body : List Char} (closed : ¬['*', '/'] <:+: body ++ ['*'])
    (rest : List Char) :
    Lexeme.scan '/' ('*' :: (body ++ ['*', '/']) ++ rest) =
      .blank (1 + ('*' :: (body ++ ['*', '/'])).length) := by
  have length := commentLength_block closed rest
  have text : '*' :: (body ++ ['*', '/']) ++ rest = '*' :: (body ++ '*' :: '/' :: rest) := by simp
  rw [text]
  simp only [Lexeme.scan, length]
  rw [List.length_cons, List.length_append]
  show Lexeme.blank (2 + (body.length + 2)) = Lexeme.blank (1 + (body.length + 2 + 1))
  congr 1
  omega

theorem tokensFrom_trivia (trivia : Trivia gap) (offset : Nat) (rest : List Char) :
    unit.tokensFrom breaks offset 0 (gap ++ rest) =
      unit.tokensFrom breaks (offset + utf8Length gap) 0 rest := by
  induction trivia generalizing offset with
  | nil => rfl
  | blank blank _ ih =>
      rw [List.cons_append, tokensFrom_blank blank, ih, utf8Length, Nat.add_assoc]
  | @line body cs oneLine _ ih =>
      have scanned := scan_line oneLine ('\n' :: (cs ++ rest)) fun c first => by
        cases first; rfl
      have text : '/' :: '/' :: (body ++ '\n' :: cs) ++ rest =
          '/' :: ('/' :: body ++ '\n' :: (cs ++ rest)) := by simp
      rw [text, tokensFrom_comment scanned, tokensFrom_blank rfl, ih]
      congr 1
      simp only [utf8Length, utf8Length_append]
      omega
  | @block body cs closed _ ih =>
      have scanned := scan_block closed (cs ++ rest)
      have text : '/' :: '*' :: (body ++ '*' :: '/' :: cs) ++ rest =
          '/' :: ('*' :: (body ++ ['*', '/']) ++ (cs ++ rest)) := by simp
      rw [text, tokensFrom_comment scanned, ih]
      congr 1
      simp only [utf8Length, utf8Length_append]
      omega

theorem tokensFrom_finalTrivia (trivia : FinalTrivia rest) (offset : Nat) :
    unit.tokensFrom breaks offset 0 rest = .ok [] := by
  cases trivia with
  | trivia trivia =>
      rw [← List.append_nil rest, tokensFrom_trivia trivia]
      rfl
  | @line cs body trivia oneLine =>
      have scanned := scan_line oneLine [] fun c first => by cases first
      rw [tokensFrom_trivia trivia, ← List.append_nil body, ← List.cons_append,
        tokensFrom_comment scanned]
      rfl

end SourceUnit

/-- Lexemes in order, with trivia behind each one that start with a blank, but for the last one.
Behind a slash at the end comes no comment, either. -/
inductive Laid : List String → List Char → Prop
  | last {lexeme : String} (rest : List Char) : FinalTrivia rest →
      (lexeme = "/" → rest.head? ≠ some '/') → Laid [lexeme] (lexeme.toList ++ rest)
  | next {lexeme : String} (gap : List Char) {lexemes : List String} {rest : List Char} :
      Trivia gap → gap.head?.any isBlank = true → Laid lexemes rest →
      Laid (lexeme :: lexemes) (lexeme.toList ++ (gap ++ rest))

/-- A text that consists of these lexemes and of trivia. -/
inductive Layout : List String → List Char → Prop
  | empty {rest : List Char} : FinalTrivia rest → Layout [] rest
  | lexemes {lead rest : List Char} {lexemes : List String} : Trivia lead → Laid lexemes rest →
      Layout lexemes (lead ++ rest)

-- What a token is, wherever it stands.
def Token.spelling (t : Token) : TokenKind × String := (t.kind, t.lexeme)

-- There is a text in which the token is read.
def Token.Spelled (t : Token) : Prop :=
  ∃ c cs rest, t.lexeme.toList = c :: cs ∧
    Lexeme.scan c (cs ++ rest) = .token t.kind (cs.length + 1)

theorem stops_of_blank {gap : List Char} (blank : gap.head?.any isBlank = true) (rest : List Char) :
    Stops (gap ++ rest) ∧ (gap ++ rest).head? ≠ some '/' := by
  cases gap with
  | nil => cases blank
  | cons c gap =>
      have blank : isBlank c = true := blank
      refine ⟨fun d first => ?_, fun first => ?_⟩
      · cases first
        exact .inl blank
      · cases first
        cases blank

namespace SourceUnit

variable {unit : SourceUnit} {breaks : List Nat} {offset : Nat} {tokens : List Token}

theorem tokensFrom_token {c : Char} {cs rest : List Char} {kind : TokenKind} {later : List Token}
    (scanned : Lexeme.scan c (cs ++ rest) = .token kind (cs.length + 1)) (offset : Nat)
    (goesOn : unit.tokensFrom breaks (offset + utf8Length (c :: cs)) 0 rest = .ok later) :
    unit.tokensFrom breaks offset 0 (c :: cs ++ rest) =
      .ok (unit.tokenAt breaks offset kind (c :: cs) :: later) := by
  rw [List.cons_append, tokensFrom, scanned]
  simp only [Nat.add_sub_cancel]
  rw [tokensFrom_skip, Nat.add_assoc, List.take_succ_cons, List.take_left]
  rw [utf8Length] at goesOn
  rw [goesOn]
  rfl

theorem spelled_of_tokensFrom {cs : List Char} {taken : Nat}
    (read : unit.tokensFrom breaks offset taken cs = .ok tokens) : ∀ t ∈ tokens, t.Spelled := by
  induction cs generalizing offset taken tokens with
  | nil =>
      cases read
      exact nofun
  | cons c cs ih =>
      unfold tokensFrom at read
      split at read
      next => exact ih read
      next =>
        split at read
        next kind length scanned =>
          cases later : unit.tokensFrom breaks (offset + c.utf8Size) (length - 1) cs with
          | error => rw [later] at read; cases read
          | ok tokens =>
              rw [later] at read
              cases read
              have bounds := scan_length scanned
              have count : (cs.take (length - 1)).length + 1 = length := by
                rw [List.length_take]
                omega
              intro t member
              rcases List.mem_cons.mp member with rfl | member
              · refine ⟨c, cs.take (length - 1), cs.drop (length - 1), ?_, ?_⟩
                · rw [tokenAt, String.toList_ofList, ← count, List.take_succ_cons, Nat.add_sub_cancel]
                · rw [List.take_append_drop, count]
                  exact scanned
              · exact ih later t member
        next => exact ih read
        next => cases read
        next => cases read

theorem reads_of_spelled {t : Token} (spelled : t.Spelled) {rest : List Char} (stops : Stops rest)
    (apart : t.lexeme = "/" → rest.head? ≠ some '/') {later : List Token} (offset : Nat)
    (goesOn : unit.tokensFrom breaks (offset + utf8Length t.lexeme.toList) 0 rest = .ok later) :
    ∃ again, unit.tokensFrom breaks offset 0 (t.lexeme.toList ++ rest) = .ok (again :: later) ∧
      again.spelling = t.spelling := by
  obtain ⟨c, cs, orig, lexeme, scanned⟩ := spelled
  have slash : c = '/' → cs = [] → rest.head? ≠ some '/' := by
    rintro rfl rfl
    exact apart (String.toList_inj.mp lexeme)
  have scanned := scan_stop scanned stops slash
  rw [lexeme] at goesOn ⊢
  refine ⟨_, tokensFrom_token scanned offset goesOn, ?_⟩
  rw [Token.spelling, Token.spelling, tokenAt, ← lexeme, String.ofList_toList]

theorem tokensFrom_laid {lexemes : List String} {cs : List Char} (laid : Laid lexemes cs)
    (lexed : tokens.map Token.lexeme = lexemes) (spelled : ∀ t ∈ tokens, t.Spelled) (offset : Nat) :
    ∃ again, unit.tokensFrom breaks offset 0 cs = .ok again ∧
      again.map Token.spelling = tokens.map Token.spelling := by
  induction laid generalizing tokens offset with
  | @last lexeme rest trivia apart =>
      obtain ⟨t, rfl, rfl⟩ := List.map_eq_singleton_iff.mp lexed
      obtain ⟨again, read, same⟩ := reads_of_spelled (spelled t List.mem_cons_self) trivia.stops apart offset
        (tokensFrom_finalTrivia trivia _)
      exact ⟨[again], read, by rw [List.map_singleton, List.map_singleton, same]⟩
  | @next lexeme gap lexemes rest trivia blank laid ih =>
      obtain ⟨t, tokens, rfl, rfl, rest⟩ := List.map_eq_cons_iff.mp lexed
      obtain ⟨later, goesOn, alike⟩ := ih rest (fun t member => spelled t (.tail _ member))
        (offset + utf8Length t.lexeme.toList + utf8Length gap)
      rw [← tokensFrom_trivia trivia] at goesOn
      obtain ⟨stops, apart⟩ := stops_of_blank blank _
      obtain ⟨again, read, same⟩ := reads_of_spelled (spelled t List.mem_cons_self) stops (fun _ => apart) offset
        goesOn
      exact ⟨again :: later, read, by rw [List.map_cons, List.map_cons, same, alike]⟩

theorem tokensFrom_layout {cs : List Char} (layout : Layout (tokens.map Token.lexeme) cs)
    (spelled : ∀ t ∈ tokens, t.Spelled) (offset : Nat) :
    ∃ again, unit.tokensFrom breaks offset 0 cs = .ok again ∧
      again.map Token.spelling = tokens.map Token.spelling := by
  generalize lexed : tokens.map Token.lexeme = lexemes at layout
  cases layout with
  | empty trivia =>
      obtain rfl := List.map_eq_nil_iff.mp lexed
      exact ⟨[], tokensFrom_finalTrivia trivia offset, rfl⟩
  | lexemes trivia laid =>
      rw [tokensFrom_trivia trivia]
      exact tokensFrom_laid laid lexed spelled _

theorem tokensFrom_anywhere (other : SourceUnit) (others : List Nat) (start : Nat) {taken : Nat}
    {cs : List Char} (read : unit.tokensFrom breaks offset taken cs = .ok tokens) :
    ∃ again, other.tokensFrom others start taken cs = .ok again ∧
      again.map Token.spelling = tokens.map Token.spelling := by
  induction cs generalizing offset start taken tokens with
  | nil =>
      cases read
      exact ⟨[], rfl, rfl⟩
  | cons c cs ih =>
      unfold tokensFrom at read ⊢
      split at read
      next => exact ih _ read
      next =>
        split at read
        next kind length scanned =>
          cases later : unit.tokensFrom breaks (offset + c.utf8Size) (length - 1) cs with
          | error => rw [later] at read; cases read
          | ok tokens =>
              rw [later] at read
              cases read
              obtain ⟨again, goesOn, same⟩ := ih (start + c.utf8Size) later
              refine ⟨_, by simp only [goesOn]; rfl, ?_⟩
              rw [List.map_cons, List.map_cons, same]
              rfl
        next length scanned =>
          exact ih _ read
        next => cases read
        next => cases read

end SourceUnit

end MiLanguage
