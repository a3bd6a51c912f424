import MiLanguage.Analysis.Run
import MiLanguage.Proofs.Checked
import MiLanguage.Proofs.Expression.Surface
import MiLanguage.Proofs.Lexing.Layout
import MiLanguage.Proofs.Lexing.Longest
import Mathlib

set_option autoImplicit false

namespace MiLanguage

-- The number that digits stand for in positional notation.
def numeral (base : Nat) (ds : List Char) : Nat := Nat.ofDigits base (ds.reverse.map digitValue)

section Numerals

theorem numeral_concat (base : Nat) (ds : List Char) (d : Char) :
    numeral base (ds ++ [d]) = numeral base ds * base + digitValue d := by
  rw [numeral, numeral, List.reverse_concat, List.map_cons, Nat.ofDigits_cons, Nat.mul_comm,
    Nat.add_comm]

theorem digitsValue_eq_numeral (base : Nat) (ds : List Char) :
    digitsValue base ds = numeral base ds := by
  induction ds using List.reverseRecOn with
  | nil => rfl
  | append_singleton ds d ih => rw [digitsValue_concat, ih, numeral_concat]

theorem digitValue_digitChar {d : Nat} (below : d < 16) : digitValue (Nat.digitChar d) = d := by
  decide +revert

theorem numeral_toDigits {base : Nat} (two : 1 < base) (sixteen : base ≤ 16) (n : Nat) :
    numeral base (Nat.toDigits base n) = n := by
  induction n using Nat.strongRecOn with
  | ind n ih =>
      by_cases small : n < base
      · rw [Nat.toDigits_of_lt_base small]
        have value := digitValue_digitChar (Nat.lt_of_lt_of_le small sixteen)
        simp [numeral, value]
      · have digit : n % base < 16 := Nat.lt_of_lt_of_le (Nat.mod_lt n (by omega)) sixteen
        have smaller : n / base < n := Nat.div_lt_self (by omega) two
        rw [Nat.toDigits_of_base_le two (by omega), numeral_concat, ih _ smaller,
          digitValue_digitChar digit, Nat.mul_comm, Nat.div_add_mod]

theorem isDigit_of_mem_toDigits (n : Nat) : ∀ d ∈ Nat.toDigits 10 n, d.isDigit = true :=
  fun _ member => Nat.isDigit_of_mem_toDigits (by decide) (by decide) member

end Numerals

-- The text is the lexeme of one token of this kind.
def ReadsAs (lexeme : String) (kind : TokenKind) : Prop :=
  ∃ c cs, lexeme.toList = c :: cs ∧ c ≠ '/' ∧ Lexeme.scan c cs = .token kind (cs.length + 1)

section Lexemes

variable {c : Char} {ds hs : List Char} {kind : TokenKind} {t : Token}

theorem ReadsAs.spelled (reads : ReadsAs t.lexeme t.kind) : t.Spelled := by
  obtain ⟨c, cs, text, _, scanned⟩ := reads
  exact ⟨c, cs, [], text, by rwa [List.append_nil]⟩

-- What stands behind a token does not show in it.
theorem ReadsAs.kind_eq (reads : ReadsAs t.lexeme kind) (spelled : t.Spelled) : t.kind = kind := by
  obtain ⟨c, cs, text, slash, scanned⟩ := reads
  obtain ⟨d, ds, rest, same, read⟩ := spelled
  rw [text] at same
  cases same
  have alone := scan_stop read Stops.nil fun is => absurd is slash
  rw [List.append_nil, scanned] at alone
  cases alone
  rfl

theorem scan_digit (digit : c.isDigit = true) (rest : List Char) :
    Lexeme.scan c rest = scanNumber (c :: rest) := by
  have blank : ¬isBlank c = true := by
    intro blank
    simp only [isBlank, Bool.or_eq_true, decide_eq_true_eq] at blank
    rcases blank with (((rfl | rfl) | rfl) | rfl) | rfl <;> exact absurd digit (by decide)
  have word : ¬isWordStart c = true := by simp [not_word_of_digit digit]
  unfold Lexeme.scan
  rw [if_neg blank, if_neg word, if_pos digit]

theorem readsAs_number (nonempty : ds ≠ []) (digits : ∀ d ∈ ds, d.isDigit = true) {rest : List Char}
    (ends : ∀ x ∈ rest.head?, x.isDigit = false)
    (scanned : scanAfter ds rest = .token kind (ds.length + rest.length)) :
    ReadsAs (String.ofList (ds ++ rest)) kind := by
  obtain ⟨c, cs, rfl⟩ := List.exists_cons_of_ne_nil nonempty
  have digit := digits c List.mem_cons_self
  refine ⟨c, cs ++ rest, String.toList_ofList, ?_, ?_⟩
  · rintro rfl
    exact absurd digit (by decide)
  · rw [scan_digit digit, ← List.cons_append, scanNumber_run (mem_run.mpr ⟨nonempty, digits⟩) ends,
      scanned, List.length_append, List.length_cons, Nat.add_right_comm]

theorem readsAs_digits (nonempty : ds ≠ []) (digits : ∀ d ∈ ds, d.isDigit = true) :
    ReadsAs (String.ofList ds) (.literal .int) := by
  rw [← List.append_nil ds]
  exact readsAs_number nonempty digits nofun rfl

theorem readsAs_long (nonempty : ds ≠ []) (digits : ∀ d ∈ ds, d.isDigit = true) {l : Char}
    (mark : l = 'l' ∨ l = 'L') : ReadsAs (String.ofList (ds ++ [l])) (.literal .long) := by
  rcases mark with rfl | rfl
  · exact readsAs_number nonempty digits (by simp) rfl
  · exact readsAs_number nonempty digits (by simp) rfl

theorem readsAs_hex (nonempty : hs ≠ []) (digits : ∀ d ∈ hs, isHexDigit d = true) {x : Char}
    (mark : x = 'x' ∨ x = 'X') : ReadsAs (String.ofList ('0' :: x :: hs)) (.literal .int) := by
  have all : hs.takeWhile isHexDigit = hs := List.takeWhile_eq_self_iff.mpr digits
  have length : 2 + hs.length = ['0'].length + (x :: hs).length := by simp; omega
  have ends : ∀ y ∈ (x :: hs).head?, y.isDigit = false := by
    rcases mark with rfl | rfl <;> simp
  have scanned : scanAfter ['0'] (x :: hs) =
      .token (.literal .int) (['0'].length + (x :: hs).length) := by
    rw [← length]
    rcases mark with rfl | rfl <;> simp [scanAfter, scanSuffix, all, nonempty]
  have reads := readsAs_number (List.cons_ne_nil '0' []) (by simp) ends scanned
  rwa [List.singleton_append] at reads

theorem readsAs_minus : ReadsAs "-" (.binary .sub) := ⟨'-', [], rfl, by decide, by decide⟩

-- A minus sign is no part of the number behind it.
theorem scan_minus (digit : c.isDigit = true) (rest : List Char) :
    Lexeme.scan '-' (c :: rest) = .token (.binary .sub) 1 := by
  have signs : ∀ s ∈ signSpellings, s.1.head? = some '-' →
      s = (['-'], .binary .sub) ∨ s.1.tail.head?.any (!·.isDigit) = true := by decide
  have here : SignAt '-' (c :: rest) :=
    ⟨by decide, by decide, by decide, by decide, by decide, fun slash => absurd slash (by decide)⟩
  rw [here.scan, scanSign]
  cases found : signSpellings.find? (fun s => s.1.isPrefixOf ('-' :: c :: rest)) with
  | none =>
      have missing := List.find?_eq_none.mp found (['-'], .binary .sub) (by decide)
      simp at missing
  | some s =>
      have member := List.mem_of_find?_eq_some found
      have fits : s.1.isPrefixOf ('-' :: c :: rest) = true :=
        List.find?_some (p := fun s : List Char × TokenKind => s.1.isPrefixOf ('-' :: c :: rest)) found
      have nonempty := (signSpellings_stop s member).1
      obtain ⟨spelling, kind⟩ := s
      obtain ⟨d, ds, rfl⟩ := List.exists_cons_of_ne_nil nonempty
      simp only [List.isPrefixOf_cons_cons, Bool.and_eq_true, beq_iff_eq] at fits
      obtain ⟨rfl, fits⟩ := fits
      rcases signs _ member rfl with same | other
      · cases same
        rfl
      · cases ds with
        | nil => cases other
        | cons d ds =>
            simp only [List.isPrefixOf_cons_cons, Bool.and_eq_true, beq_iff_eq] at fits
            simp [fits.1, digit] at other

end Lexemes

section Values

variable {ds hs : List Char} {t m : Token}

theorem intValue?_digits (nonempty : ds ≠ []) (digits : ∀ d ∈ ds, d.isDigit = true) :
    Typed.intValue? (String.ofList ds) = some (numeral 10 ds) := by
  have all : ds.all Char.isDigit = true := List.all_eq_true.mpr digits
  have plain : Typed.digitsValue? Char.isDigit 10 ds = some (numeral 10 ds) := by
    simp [Typed.digitsValue?, nonempty, all, digitsValue_eq_numeral]
  have second {x : Char} {cs : List Char} (text : ds = '0' :: x :: cs) : x.isDigit = true :=
    digits x (by simp [text])
  unfold Typed.intValue?
  rw [String.toList_ofList]
  split
  next => exact absurd (second rfl) (by decide)
  next => exact absurd (second rfl) (by decide)
  next => exact plain

theorem intValue?_hex (nonempty : hs ≠ []) (digits : ∀ d ∈ hs, isHexDigit d = true) {x : Char}
    (mark : x = 'x' ∨ x = 'X') :
    Typed.intValue? (String.ofList ('0' :: x :: hs)) = some (numeral 16 hs) := by
  have all : hs.all isHexDigit = true := List.all_eq_true.mpr digits
  unfold Typed.intValue?
  rw [String.toList_ofList]
  rcases mark with rfl | rfl <;> simp [Typed.digitsValue?, nonempty, all, digitsValue_eq_numeral]

theorem longValue?_digits (nonempty : ds ≠ []) (digits : ∀ d ∈ ds, d.isDigit = true) {l : Char}
    (mark : l = 'l' ∨ l = 'L') :
    Typed.longValue? (String.ofList (ds ++ [l])) = some (numeral 10 ds) := by
  have all : ds.all Char.isDigit = true := List.all_eq_true.mpr digits
  obtain ⟨d, rest, reversed⟩ := List.exists_cons_of_ne_nil (List.reverse_ne_nil_iff.mpr nonempty)
  have digit : d.isDigit = true := digits d (by rw [← List.mem_reverse, reversed]; simp)
  have last : (d = 'l' || d = 'L') = false := by
    rw [Bool.eq_false_iff]
    intro letter
    have letter : d = 'l' ∨ d = 'L' := by simpa using letter
    rcases letter with rfl | rfl <;> exact absurd digit (by decide)
  have dropped : (ds ++ [l]).reverse.dropWhile (fun c => c = 'l' || c = 'L') = ds.reverse := by
    rw [List.reverse_concat, List.dropWhile_cons_of_pos (by simpa using mark), reversed,
      List.dropWhile_cons_of_neg (by simp [last])]
  unfold Typed.longValue?
  rw [String.toList_ofList, dropped, List.reverse_reverse]
  simp [Typed.digitsValue?, nonempty, all, digitsValue_eq_numeral]

variable {env : Environment} {place : Token}

-- A literal alone, and a literal under a minus sign.
theorem expression_literal {l : LiteralToken} (kind : t.kind = .literal l) :
    env.expression [t] place = Typed.literal l t := by
  cases read : Typed.literal l t with
  | error =>
      simp [Environment.expression, Expression.read, Expression.operand, kind, read, bind, Except.bind]
  | ok e =>
      simp [Environment.expression, Expression.read, Expression.operand, kind, read, bind,
        Except.bind, Expression.climb_nil]

theorem expression_negative_integer (sign : m.kind = .binary .sub) (kind : t.kind = .literal .int) :
    env.expression [m, t] place =
      (Typed.intLiteral t true).map (Typed.unary .negate · m) := by
  cases read : Typed.intLiteral t true with
  | error =>
      simp [Environment.expression, Expression.read, Expression.operand, sign, kind, Token.is, read,
        bind, Except.bind, Except.map]
  | ok e =>
      simp [Environment.expression, Expression.read, Expression.operand, sign, kind, Token.is, read,
        bind, Except.bind, Except.map, Expression.climb_nil]

theorem expression_negative_long (sign : m.kind = .binary .sub) (kind : t.kind = .literal .long) :
    env.expression [m, t] place = (Typed.longLiteral t).map (Typed.unary .negate · m) := by
  have other : t.is (.literal .int) = false := by simp [Token.is, kind]
  unfold Typed.longLiteral
  split
  next fits =>
    have signed : Datatype.long.isSigned = true := rfl
    simp [Environment.expression, Expression.read, Expression.operand, sign, kind, other,
      Typed.literal, Typed.longLiteral, fits, signed, Typed.requireOperand, require, bind,
      Except.bind, Except.map, Expression.climb_nil]
  next exceeds =>
    simp [Environment.expression, Expression.read, Expression.operand, sign, kind, other,
      Typed.literal, Typed.longLiteral, exceeds, blame, bind, Except.bind, Except.map]

theorem intLiteral_decides {n : Nat} (negated : Bool) (value : Typed.intValue? t.lexeme = some n) :
    Typed.intLiteral t negated =
      if n ≤ 2 ^ 31 - if negated then 0 else 1 then .ok (.of (.leaf (.literal .integer) t) .int)
      else blame (TypeFault.intOutOfRange t.lexeme) t := by
  have limit : (if negated then Typed.maxInt + 1 else Typed.maxInt) =
      2 ^ 31 - if negated then 0 else 1 := by cases negated <;> rfl
  simp only [Typed.intLiteral, value, limit, Option.any_some, decide_eq_true_eq]

theorem longLiteral_decides {n : Nat} (value : Typed.longValue? t.lexeme = some n) :
    Typed.longLiteral t =
      if n ≤ 2 ^ 63 - 1 then .ok (.of (.leaf (.literal .long) t) .long)
      else blame (TypeFault.longOutOfRange t.lexeme) t := by
  simp only [Typed.longLiteral, value, Option.any_some, decide_eq_true_eq]
  rfl

end Values

/-- Expressions of these lexemes, wherever they stand, are accepted and have the type if `fits` holds,
and are rejected if not. A text that consists of the lexemes splits into them. -/
structure Decided (lexemes : List String) (type : Datatype) (fits : Prop) : Prop where
  splits : ∀ unit : SourceUnit,
    unit.text = String.join lexemes ∨ Layout lexemes unit.text.toList →
      ∃ tokens, unit.tokens = .ok tokens ∧ tokens.map Token.lexeme = lexemes
  accepts : fits → ∀ (env : Environment) (place : Token) (tokens : List Token),
    (∀ t ∈ tokens, t.Spelled) → tokens.map Token.lexeme = lexemes →
      ∃ e, env.expression tokens place = .ok e ∧ e.type = type
  rejects : ¬fits → ∀ (env : Environment) (place : Token) (tokens : List Token),
    (∀ t ∈ tokens, t.Spelled) → tokens.map Token.lexeme = lexemes →
      ∃ r, env.expression tokens place = .error r

section Decisions

variable {lexeme : String} {lexemes : List String} {kinds : List TokenKind} {kind : TokenKind}
  {type : Datatype} {fits others : Prop} {n limit : Nat}

theorem Decided.congr (decided : Decided lexemes type fits) (same : others ↔ fits) :
    Decided lexemes type others := propext same ▸ decided

theorem splits_of_layout (reads : List.Forall₂ ReadsAs lexemes kinds) {unit : SourceUnit}
    (layout : Layout lexemes unit.text.toList) :
    ∃ tokens, unit.tokens = .ok tokens ∧ tokens.map Token.lexeme = lexemes := by
  have alone : ∃ tokens : List Token, tokens.map Token.lexeme = lexemes ∧ ∀ t ∈ tokens, t.Spelled := by
    clear layout
    induction reads with
    | nil => exact ⟨[], rfl, nofun⟩
    | @cons lexeme kind _ _ head _ ih =>
        obtain ⟨tokens, rfl, spelled⟩ := ih
        refine ⟨.alone kind lexeme :: tokens, rfl, List.forall_mem_cons.mpr ⟨?_, spelled⟩⟩
        exact ReadsAs.spelled (t := .alone kind lexeme) head
  obtain ⟨tokens, rfl, spelled⟩ := alone
  obtain ⟨again, read, same⟩ := SourceUnit.tokensFrom_layout layout spelled 0
  have lexemes := congrArg (List.map Prod.snd) same
  rw [List.map_map, List.map_map] at lexemes
  exact ⟨again, read, lexemes⟩

theorem splits_one (reads : ReadsAs lexeme kind) (unit : SourceUnit)
    (text : unit.text = String.join [lexeme] ∨ Layout [lexeme] unit.text.toList) :
    ∃ tokens, unit.tokens = .ok tokens ∧ tokens.map Token.lexeme = [lexeme] := by
  refine splits_of_layout (.cons reads .nil) ?_
  rcases text with joined | layout
  · have plain : Laid [lexeme] (lexeme.toList ++ []) := .last [] (.trivia .nil) (by simp)
    have same : String.join [lexeme] = lexeme := by simp [String.join]
    rw [List.append_nil] at plain
    rw [joined, same]
    exact .lexemes .nil plain
  · exact layout

theorem splits_negative (reads : ReadsAs lexeme kind)
    (number : lexeme.toList.head?.any Char.isDigit = true) (unit : SourceUnit)
    (text : unit.text = String.join ["-", lexeme] ∨ Layout ["-", lexeme] unit.text.toList) :
    ∃ tokens, unit.tokens = .ok tokens ∧ tokens.map Token.lexeme = ["-", lexeme] := by
  rcases text with joined | layout
  · obtain ⟨c, cs, spelled, -, scanned⟩ := reads
    have digit : c.isDigit = true := by simpa [spelled] using number
    have whole : unit.text.toList = ['-'] ++ (c :: cs ++ []) := by
      rw [joined, ← spelled]
      simp [String.join]
    have last (breaks : List Nat) (offset : Nat) :
        unit.tokensFrom breaks offset 0 (c :: cs ++ []) =
          .ok [unit.tokenAt breaks offset kind (c :: cs)] := by
      refine SourceUnit.tokensFrom_token ?_ offset ?_
      · rwa [List.append_nil]
      · rw [SourceUnit.tokensFrom]
    have both (breaks : List Nat) :
        unit.tokensFrom breaks 0 0 (['-'] ++ (c :: cs ++ [])) =
          .ok (unit.tokenAt breaks 0 (.binary .sub) ['-'] :: [unit.tokenAt breaks _ kind (c :: cs)]) :=
      SourceUnit.tokensFrom_token (scan_minus digit _) 0 (last breaks _)
    have read := both (lineBreaks 0 unit.text.toList)
    rw [← whole] at read
    exact ⟨_, read, by simp [SourceUnit.tokenAt, ← spelled]⟩
  · exact splits_of_layout (.cons readsAs_minus (.cons reads .nil)) layout

theorem negative_tokens {tokens : List Token} (reads : ReadsAs lexeme kind)
    (spelled : ∀ t ∈ tokens, t.Spelled) (same : tokens.map Token.lexeme = ["-", lexeme]) :
    ∃ m t : Token, tokens = [m, t] ∧ m.kind = .binary .sub ∧ t.kind = kind ∧ t.lexeme = lexeme := by
  obtain ⟨m, rest, rfl, minus, same⟩ := List.map_eq_cons_iff.mp same
  obtain ⟨t, rfl, rfl⟩ := List.map_eq_singleton_iff.mp same
  have sign : ReadsAs m.lexeme (.binary .sub) := minus ▸ readsAs_minus
  exact ⟨m, t, rfl, sign.kind_eq (spelled m (by simp)), reads.kind_eq (spelled t (by simp)), rfl⟩

theorem decided_of {lexemes : List String}
    (splits : ∀ unit : SourceUnit,
      unit.text = String.join lexemes ∨ Layout lexemes unit.text.toList →
        ∃ tokens, unit.tokens = .ok tokens ∧ tokens.map Token.lexeme = lexemes)
    (outcome : ∀ (env : Environment) (place : Token) (tokens : List Token),
      (∀ t ∈ tokens, t.Spelled) → tokens.map Token.lexeme = lexemes →
        ∃ (e : Typed) (r : Report), e.type = type ∧
          env.expression tokens place = if n ≤ limit then .ok e else .error r) :
    Decided lexemes type (n ≤ limit) := by
  refine ⟨splits, fun fits env place tokens spelled same => ?_,
    fun exceeds env place tokens spelled same => ?_⟩
  · obtain ⟨e, _, typed, read⟩ := outcome env place tokens spelled same
    exact ⟨e, read.trans (if_pos fits), typed⟩
  · obtain ⟨_, r, _, read⟩ := outcome env place tokens spelled same
    exact ⟨r, read.trans (if_neg exceeds)⟩

theorem decided_integer (reads : ReadsAs lexeme (.literal .int))
    (value : Typed.intValue? lexeme = some n) : Decided [lexeme] .int (n ≤ 2 ^ 31 - 1) := by
  refine decided_of (splits_one reads) fun env place tokens spelled same => ?_
  obtain ⟨t, rfl, rfl⟩ := List.map_eq_singleton_iff.mp same
  have kind := reads.kind_eq (spelled t List.mem_cons_self)
  exact ⟨_, _, rfl, (expression_literal kind).trans (intLiteral_decides false value)⟩

theorem decided_long (reads : ReadsAs lexeme (.literal .long))
    (value : Typed.longValue? lexeme = some n) : Decided [lexeme] .long (n ≤ 2 ^ 63 - 1) := by
  refine decided_of (splits_one reads) fun env place tokens spelled same => ?_
  obtain ⟨t, rfl, rfl⟩ := List.map_eq_singleton_iff.mp same
  have kind := reads.kind_eq (spelled t List.mem_cons_self)
  exact ⟨_, _, rfl, (expression_literal kind).trans (longLiteral_decides value)⟩

section Negative

variable (number : lexeme.toList.head?.any Char.isDigit = true)

include number

-- One more than without the sign.
theorem decided_negativeInteger (reads : ReadsAs lexeme (.literal .int))
    (value : Typed.intValue? lexeme = some n) : Decided ["-", lexeme] .int (n ≤ 2 ^ 31) := by
  refine decided_of (splits_negative reads number) fun env place tokens spelled same => ?_
  obtain ⟨m, t, rfl, sign, kind, rfl⟩ := negative_tokens reads spelled same
  have read : env.expression [m, t] place = _ := expression_negative_integer sign kind
  rw [intLiteral_decides true value, apply_ite (Except.map _)] at read
  exact ⟨_, _, rfl, read⟩

-- Just as much as without the sign.
theorem decided_negativeLong (reads : ReadsAs lexeme (.literal .long))
    (value : Typed.longValue? lexeme = some n) : Decided ["-", lexeme] .long (n ≤ 2 ^ 63 - 1) := by
  refine decided_of (splits_negative reads number) fun env place tokens spelled same => ?_
  obtain ⟨m, t, rfl, sign, kind, rfl⟩ := negative_tokens reads spelled same
  have read : env.expression [m, t] place = _ := expression_negative_long sign kind
  rw [longLiteral_decides value, apply_ite (Except.map _)] at read
  exact ⟨_, _, rfl, read⟩

end Negative

end Decisions

-- The lexemes that a number is written with: decimal digits and a mark, with a minus sign in front
-- if the number is negative.
def written (z : Int) (mark : String) : List String :=
  (if z < 0 then ["-"] else []) ++ [String.ofList (Nat.toDigits 10 z.natAbs) ++ mark]

section Written

variable {ds : List Char} {z : Int}

theorem head_isDigit (nonempty : ds ≠ []) (digits : ∀ d ∈ ds, d.isDigit = true) (rest : List Char) :
    (String.ofList (ds ++ rest)).toList.head?.any Char.isDigit = true := by
  obtain ⟨c, cs, rfl⟩ := List.exists_cons_of_ne_nil nonempty
  simpa using digits c List.mem_cons_self

theorem decided_decimal (nonempty : ds ≠ []) (digits : ∀ d ∈ ds, d.isDigit = true) :
    Decided [String.ofList ds] .int (numeral 10 ds ≤ 2 ^ 31 - 1) ∧
      Decided ["-", String.ofList ds] .int (numeral 10 ds ≤ 2 ^ 31) := by
  have reads := readsAs_digits nonempty digits
  have value := intValue?_digits nonempty digits
  have number := head_isDigit nonempty digits []
  rw [List.append_nil] at number
  exact ⟨decided_integer reads value, decided_negativeInteger number reads value⟩

theorem decided_decimalLong (nonempty : ds ≠ []) (digits : ∀ d ∈ ds, d.isDigit = true) {l : Char}
    (mark : l = 'l' ∨ l = 'L') :
    Decided [String.ofList (ds ++ [l])] .long (numeral 10 ds ≤ 2 ^ 63 - 1) ∧
      Decided ["-", String.ofList (ds ++ [l])] .long (numeral 10 ds ≤ 2 ^ 63 - 1) := by
  have reads := readsAs_long nonempty digits mark
  have value := longValue?_digits nonempty digits mark
  exact ⟨decided_long reads value, decided_negativeLong (head_isDigit nonempty digits [l]) reads value⟩

theorem decided_written_int (least : -2 ^ 31 ≤ z) (greatest : z ≤ 2 ^ 31 - 1) :
    Decided (written z "") .int True := by
  obtain ⟨plain, negative⟩ := decided_decimal Nat.toDigits_ne_nil (isDigit_of_mem_toDigits z.natAbs)
  rw [numeral_toDigits (by decide) (by decide)] at plain negative
  unfold written
  rw [String.append_empty]
  split
  next => exact negative.congr (by simp; omega)
  next => exact plain.congr (by simp; omega)

theorem decided_written_long (z : Int) :
    Decided (written z "L") .long (z.natAbs ≤ 2 ^ 63 - 1) := by
  obtain ⟨plain, negative⟩ := decided_decimalLong Nat.toDigits_ne_nil
    (isDigit_of_mem_toDigits z.natAbs) (.inr rfl)
  rw [numeral_toDigits (by decide) (by decide), String.ofList_append] at plain negative
  unfold written
  split
  next => exact negative
  next => exact plain

end Written

/-- Which integer literals are accepted. A literal under a minus sign may be larger by one if it is an
`int`, and only then; so every `int` can be written, and every `long` but the least. -/
theorem literals_exact (ds : List Char) (nonempty : ds ≠ []) (z : Int) :
    ((∀ d ∈ ds, d.isDigit = true) →
      Decided [String.ofList ds] .int (numeral 10 ds ≤ 2 ^ 31 - 1) ∧
      Decided ["-", String.ofList ds] .int (numeral 10 ds ≤ 2 ^ 31) ∧
      ∀ l, l = 'l' ∨ l = 'L' →
        Decided [String.ofList (ds ++ [l])] .long (numeral 10 ds ≤ 2 ^ 63 - 1) ∧
        Decided ["-", String.ofList (ds ++ [l])] .long (numeral 10 ds ≤ 2 ^ 63 - 1)) ∧
    ((∀ h ∈ ds, isHexDigit h = true) → ∀ x, x = 'x' ∨ x = 'X' →
      Decided [String.ofList ('0' :: x :: ds)] .int (numeral 16 ds ≤ 2 ^ 31 - 1) ∧
      Decided ["-", String.ofList ('0' :: x :: ds)] .int (numeral 16 ds ≤ 2 ^ 31)) ∧
    (numeral 10 (Nat.toDigits 10 z.natAbs) = z.natAbs ∧
      numeral 16 (Nat.toDigits 16 z.natAbs) = z.natAbs) ∧
    (-2 ^ 31 ≤ z → z ≤ 2 ^ 31 - 1 → Decided (written z "") .int True) ∧
    (-2 ^ 63 < z → z ≤ 2 ^ 63 - 1 → Decided (written z "L") .long True) ∧
    (z = -2 ^ 63 → Decided (written z "L") .long False) := by
  refine ⟨fun digits => ?_, fun digits x mark => ?_, ?_, ?_, ?_, ?_⟩
  · obtain ⟨plain, negative⟩ := decided_decimal nonempty digits
    exact ⟨plain, negative, fun l mark => decided_decimalLong nonempty digits mark⟩
  · have reads := readsAs_hex nonempty digits mark
    have value := intValue?_hex nonempty digits mark
    exact ⟨decided_integer reads value, decided_negativeInteger (by simp) reads value⟩
  · exact ⟨numeral_toDigits (by decide) (by decide) _, numeral_toDigits (by decide) (by decide) _⟩
  · exact decided_written_int
  · intro least greatest
    exact (decided_written_long z).congr (by simp; omega)
  · intro least
    exact (decided_written_long z).congr (by simp; omega)

theorem leastInt_accepted :
    Decided ["-", "0002147483648"] .int (numeral 10 "0002147483648".toList ≤ 2 ^ 31) ∧
      Decided ["-", "0x80000000"] .int (numeral 16 "80000000".toList ≤ 2 ^ 31) ∧
      Decided (written (-2 ^ 31) "") .int True ∧ Decided (written (1 - 2 ^ 63) "L") .long True ∧
      Decided (written (-2 ^ 63) "L") .long False := by
  obtain ⟨decimal, _, _, int, _⟩ :=
    literals_exact "0002147483648".toList (by decide) (-2 ^ 31)
  obtain ⟨_, hex, _, _, long, _⟩ := literals_exact "80000000".toList (by decide) (1 - 2 ^ 63)
  obtain ⟨_, _, _, _, _, least⟩ := literals_exact "0".toList (by decide) (-2 ^ 63)
  exact ⟨(decimal (List.all_eq_true.mp (by decide))).2.1,
    (hex (List.all_eq_true.mp (by decide)) 'x' (.inl rfl)).2,
    int (by omega) (by omega), long (by omega) (by omega), least rfl⟩

/-- The least `int` can be written under a minus sign, the least `long` cannot. -/
theorem leastLong_rejected :
    numeral 10 "9223372036854775808".toList ≤ 2 ^ 63 ∧
      (Analysis.ofSource "module m { fn f { int x = -2147483648; long y = -9223372036854775807L; } }"
        { withLibrary := false } {}).isOk = true ∧
      (Analysis.ofSource "module m { fn f { long x = -9223372036854775808L; } }"
        { withLibrary := false } {}).isOk = false := by
  refine ⟨by decide, ?_, ?_⟩
  · decide +kernel
  · decide +kernel

end MiLanguage
