import MiLanguage.Token.Lexeme

set_option autoImplicit false

namespace MiLanguage

-- Nothing, a blank, or what may be a comment: text that runs into no token before it, except for a
-- slash.
def Stops (cs : List Char) : Prop := ∀ c ∈ cs.head?, isBlank c = true ∨ c = '/'

variable {kind : TokenKind} {length : Nat} {c : Char} {cs orig tail : List Char}

theorem Stops.nil : Stops [] := fun _ member => nomatch member

theorem Stops.head (stops : Stops (c :: cs)) :
    c = ' ' ∨ c = '\t' ∨ c = '\r' ∨ c = '\n' ∨ c = '\x0c' ∨ c = '/' := by
  rcases stops c rfl with blank | slash
  · simp only [isBlank, Bool.or_eq_true, decide_eq_true_eq] at blank
    rcases blank with (((h | h) | h) | h) | h <;> simp [h]
  · simp [slash]

theorem Stops.fails (stops : Stops tail) {p : Char → Bool}
    (fails : [' ', '\t', '\r', '\n', '\x0c', '/'].all (!p ·) = true) : tail.takeWhile p = [] := by
  cases tail with
  | nil => rfl
  | cons c cs =>
      simp only [List.all_cons, List.all_nil, Bool.and_true, Bool.and_eq_true,
        Bool.not_eq_true'] at fails
      obtain ⟨space, tab, carriage, newline, feed, slash⟩ := fails
      rcases stops.head with rfl | rfl | rfl | rfl | rfl | rfl <;> simp [*]

section Runs

variable {p : Char → Bool} {tail' : List Char}

theorem takeWhile_length_le (p : Char → Bool) (cs : List Char) :
    (cs.takeWhile p).length ≤ cs.length :=
  (List.takeWhile_prefix p).length_le

-- A run that ends inside a text, or with it, is the same before another rest.
theorem takeWhile_stop (inside : ((cs ++ orig).takeWhile p).length ≤ cs.length)
    (stops : tail.takeWhile p = []) :
    (cs ++ tail).takeWhile p = (cs ++ orig).takeWhile p := by
  induction cs with
  | nil => rw [List.nil_append, stops, List.eq_nil_of_length_eq_zero (Nat.le_zero.mp inside)]
  | cons c cs ih =>
      simp only [List.cons_append, List.takeWhile_cons] at inside ⊢
      split at inside
      next => rw [if_pos ‹_›, if_pos ‹_›, ih (Nat.le_of_succ_le_succ inside)]
      next => rw [if_neg ‹_›, if_neg ‹_›]

end Runs

section Words

theorem wordLength_le (cs : List Char) : wordLength cs ≤ cs.length := by
  induction cs with
  | nil => exact Nat.le_refl 0
  | cons c cs ih =>
      rw [wordLength]
      split
      · exact Nat.succ_le_succ ih
      · exact Nat.zero_le _

theorem Stops.wordLength (stops : Stops tail) : wordLength tail = 0 := by
  cases tail with
  | nil => rfl
  | cons c cs => rcases stops.head with rfl | rfl | rfl | rfl | rfl | rfl <;> rfl

theorem wordLength_stop (whole : wordLength (cs ++ orig) = cs.length) (stops : Stops tail) :
    wordLength (cs ++ tail) = cs.length := by
  induction cs with
  | nil => exact stops.wordLength
  | cons c cs ih =>
      simp only [List.cons_append, wordLength, List.length_cons] at whole ⊢
      split at whole
      next holds =>
        have inner := ih (Nat.succ.inj whole)
        refine (if_pos ?_).trans (congrArg (· + 1) inner)
        cases cs with
        | cons d cs => exact holds
        | nil =>
            -- A dot at the end would have gone on into the next word.
            cases orig with
            | nil =>
                have plain : isWordChar c = true := by simpa using holds
                simp [plain]
            | cons d orig =>
                have past : isWordChar d = false := by
                  have wordless : wordLength (d :: orig) = 0 := Nat.succ.inj whole
                  rw [wordLength] at wordless
                  cases word : isWordChar d with
                  | false => rfl
                  | true => simp [word] at wordless
                have start : isWordStart d = false := by
                  simp only [isWordChar, isWordStart, Bool.or_eq_false_iff, Char.isAlphanum] at past ⊢
                  exact ⟨past.1.1, past.2⟩
                have plain : isWordChar c = true := by simpa [start] using holds
                simp [plain]
      next => cases whole

end Words

section Numbers

theorem takeWhile_ne_nil {p : Char → Bool} (holds : p c = true) (cs : List Char) :
    0 < ((c :: cs).takeWhile p).length := by
  simp [holds]

theorem digitsLength_le (cs : List Char) : digitsLength cs ≤ cs.length :=
  takeWhile_length_le Char.isDigit cs

theorem Stops.digits (stops : Stops tail) : tail.takeWhile Char.isDigit = [] :=
  stops.fails (by decide)

-- The digits behind the dot of a number, and its suffix. `length` is how much comes before.
def scanFraction (length : Nat) (cs : List Char) : Lexeme :=
  match (cs.drop (digitsLength cs)).head? with
  | some 'f' | some 'F' => .token (.literal .float) (length + digitsLength cs + 1)
  | _ => .token (.literal .double) (length + digitsLength cs)

-- How a number is read on from `x`, which comes behind its first digits.
def scanSuffix (digits : List Char) (x : Char) (rest : List Char) : Lexeme :=
  let hex := (rest.takeWhile isHexDigit).length
  if x = '.' && rest.head?.any Char.isDigit then scanFraction (digits.length + 1) rest
  else if x = 'f' || x = 'F' then .token (.literal .float) (digits.length + 1)
  else if x = 'l' || x = 'L' then .token (.literal .long) (digits.length + 1)
  else if x = 'b' && (digits = ['0'] || digits = ['1']) then .token (.literal .bit) 2
  else if (x = 'x' || x = 'X') && digits = ['0'] && hex ≠ 0 then
    .token (.literal .int) (2 + hex)
  else .token (.literal .int) digits.length

def scanAfter (digits : List Char) : List Char → Lexeme
  | [] => .token (.literal .int) digits.length
  | x :: rest => scanSuffix digits x rest

theorem scanNumber_eq (cs : List Char) :
    scanNumber cs = scanAfter (cs.takeWhile Char.isDigit) (cs.drop (digitsLength cs)) := by
  have digits : cs.take (digitsLength cs) = cs.takeWhile Char.isDigit := by
    exact (List.prefix_iff_eq_take.mp (List.takeWhile_prefix _)).symm
  have counts : (cs.takeWhile Char.isDigit).length = digitsLength cs := rfl
  unfold scanNumber
  simp only [digits]
  split
  next c rest after =>
    have fraction : cs.drop (digitsLength cs + 1 + digitsLength (c :: rest)) =
        (c :: rest).drop (digitsLength (c :: rest)) := by
      rw [Nat.add_assoc, ← List.drop_drop, after, Nat.add_comm 1, List.drop_succ_cons]
    simp only [after, scanAfter, scanSuffix, fraction, scanFraction, counts]
    split
    next digit =>
      generalize (c :: rest).drop (digitsLength (c :: rest)) = later
      rcases later with _ | ⟨f, later⟩
      · simp [digit]
      · simp only [List.head?_cons, Option.any_some, digit, decide_true, Bool.and_self, if_true]
        split <;> simp_all
    next digit => simp [digit]
  case h_6 after => simp only [after, scanAfter, scanSuffix, counts]; split <;> simp_all
  case h_7 x rest fraction _ _ _ _ _ after =>
    have plain : (x = '.' && rest.head?.any Char.isDigit) = false := by
      cases rest with
      | nil => simp
      | cons c rest =>
          have noDot : x ≠ '.' := fun dot => fraction c rest dot rfl
          simp [noDot]
    simp only [after, scanAfter, scanSuffix, counts, plain]
    simp_all
  all_goals next after => simp [after, scanAfter, scanSuffix, counts]

theorem digitsLength_stop (inside : digitsLength (cs ++ orig) ≤ cs.length) (stops : Stops tail) :
    digitsLength (cs ++ tail) = digitsLength (cs ++ orig) :=
  congrArg List.length (takeWhile_stop inside stops.digits)

theorem scanFraction_inside {before : Nat} {cs : List Char}
    (scanned : scanFraction before cs = .token kind (before + length)) :
    digitsLength cs ≤ length := by
  unfold scanFraction at scanned
  split at scanned <;> injection scanned <;> omega

theorem scanFraction_stop {before : Nat}
    (scanned : scanFraction before (cs ++ orig) = .token kind (before + cs.length))
    (stops : Stops tail) :
    scanFraction before (cs ++ tail) = .token kind (before + cs.length) := by
  have inside := scanFraction_inside scanned
  have count : (cs.drop (digitsLength (cs ++ orig))).length = cs.length - digitsLength (cs ++ orig) :=
    List.length_drop
  unfold scanFraction at scanned ⊢
  rw [List.drop_append_of_le_length inside] at scanned
  rw [digitsLength_stop inside stops, List.drop_append_of_le_length inside]
  generalize digitsLength (cs ++ orig) = n at *
  cases left : cs.drop n with
  | cons d more =>
      rw [left] at scanned
      exact scanned
  | nil =>
      rw [left, List.nil_append] at scanned
      rw [List.nil_append]
      have all : n = cs.length := by
        rw [left, List.length_nil] at count
        omega
      subst all
      have kinds : kind = .literal .double := by
        split at scanned <;> injection scanned <;> first | omega | simp_all
      subst kinds
      cases tail with
      | nil => rfl
      | cons c more => rcases stops.head with rfl | rfl | rfl | rfl | rfl | rfl <;> rfl

theorem scanSuffix_stop {digits : List Char}
    (scanned : scanSuffix digits c (cs ++ orig) = .token kind (digits.length + (cs.length + 1)))
    (stops : Stops tail) :
    scanSuffix digits c (cs ++ tail) = .token kind (digits.length + (cs.length + 1)) := by
  unfold scanSuffix at scanned ⊢
  by_cases dot : c = '.'
  · subst dot
    split at scanned
    next fraction =>
      have whole : digits.length + (cs.length + 1) = digits.length + 1 + cs.length := by omega
      rw [whole] at scanned ⊢
      have inside := scanFraction_inside scanned
      have same : (cs ++ tail).head? = (cs ++ orig).head? := by
        cases cs with
        | cons d cs => rfl
        | nil =>
            exfalso
            cases orig with
            | nil => simp at fraction
            | cons d orig =>
                have digit : d.isDigit = true := by simpa using fraction
                exact Nat.lt_irrefl 0 (Nat.lt_of_lt_of_le (takeWhile_ne_nil digit orig) inside)
      rw [same, if_pos fraction]
      exact scanFraction_stop scanned stops
    next => simp at scanned
  · simp only [dot, decide_false, Bool.false_and] at scanned ⊢
    have hex (zero : digits = ['0'])
        (whole : 2 + ((cs ++ orig).takeWhile isHexDigit).length = digits.length + (cs.length + 1)) :
        (cs ++ tail).takeWhile isHexDigit = (cs ++ orig).takeWhile isHexDigit := by
      refine takeWhile_stop ?_ (stops.fails (by decide))
      rw [zero, List.length_singleton] at whole
      omega
    split at scanned
    next => contradiction
    next =>
    split at scanned
    next suffix => simpa [suffix] using scanned
    next float =>
    split at scanned
    next suffix => simpa [float, suffix] using scanned
    next long =>
    split at scanned
    next suffix => simpa [float, long, suffix] using scanned
    next bit =>
    split at scanned
    next suffix =>
      injection scanned with kinds whole
      simp_all
    next => simp at scanned

theorem scanAfter_stop {digits : List Char}
    (scanned : scanAfter digits (cs ++ orig) = .token kind (digits.length + cs.length))
    (stops : Stops tail) :
    scanAfter digits (cs ++ tail) = .token kind (digits.length + cs.length) := by
  cases cs with
  | nil =>
      have ends : scanAfter digits tail = .token (.literal .int) digits.length := by
        cases tail with
        | nil => rfl
        | cons c cs =>
            rcases stops.head with rfl | rfl | rfl | rfl | rfl | rfl <;> simp [scanAfter, scanSuffix]
      have kinds : kind = .literal .int := by
        cases orig with
        | nil => injection scanned with same; exact same.symm
        | cons c orig =>
            simp only [List.nil_append, scanAfter, scanSuffix, List.length_nil, Nat.add_zero] at scanned
            split at scanned
            next =>
              unfold scanFraction at scanned
              split at scanned <;> injection scanned <;> omega
            next =>
            split at scanned
            next => simp at scanned
            next =>
            split at scanned
            next => simp at scanned
            next =>
            split at scanned
            next bit =>
              injection scanned with _ two
              have one : digits.length = 1 := by
                simp only [Bool.and_eq_true, Bool.or_eq_true, decide_eq_true_eq] at bit
                rcases bit.2 with rfl | rfl <;> rfl
              omega
            next =>
            split at scanned
            next => injection scanned with same; exact same.symm
            next => injection scanned with same; exact same.symm
      exact kinds ▸ ends
  | cons c cs => exact scanSuffix_stop scanned stops

theorem scanFraction_length {before : Nat} {cs : List Char}
    (scanned : scanFraction before cs = .token kind length) :
    before ≤ length ∧ length ≤ before + cs.length := by
  have digits := digitsLength_le cs
  have shorter {c : Char} (next : (cs.drop (digitsLength cs)).head? = some c) :
      digitsLength cs < cs.length := by
    refine Nat.lt_of_not_le fun past => ?_
    rw [List.drop_eq_nil_of_le past] at next
    cases next
  unfold scanFraction at scanned
  split at scanned
  next next => have := shorter next; injection scanned; omega
  next next => have := shorter next; injection scanned; omega
  next => injection scanned; omega

-- Of a number there is no less than its first digits and no more than the text.
theorem scanAfter_length {digits : List Char} {cs : List Char}
    (scanned : scanAfter digits cs = .token kind length) :
    digits.length ≤ length ∧ length ≤ digits.length + cs.length := by
  cases cs with
  | nil => injection scanned; simp_all
  | cons c cs =>
      have hex := takeWhile_length_le isHexDigit cs
      simp only [scanAfter, scanSuffix] at scanned
      rw [List.length_cons]
      split at scanned
      next =>
        have := scanFraction_length scanned
        omega
      next =>
      split at scanned
      next => injection scanned; omega
      next =>
      split at scanned
      next => injection scanned; omega
      next =>
      split at scanned
      next bit =>
        have one : digits.length = 1 := by
          simp only [Bool.and_eq_true, Bool.or_eq_true, decide_eq_true_eq] at bit
          rcases bit.2 with rfl | rfl <;> rfl
        injection scanned
        omega
      next =>
      split at scanned
      next suffix =>
        have one : digits.length = 1 := by
          simp only [Bool.and_eq_true, decide_eq_true_eq] at suffix
          rw [suffix.1.2]
          rfl
        injection scanned
        omega
      next => injection scanned; omega

theorem scanNumber_length (scanned : scanNumber cs = .token kind length) :
    digitsLength cs ≤ length ∧ length ≤ cs.length := by
  rw [scanNumber_eq] at scanned
  have bounds := scanAfter_length scanned
  have digits := digitsLength_le cs
  rw [List.length_drop] at bounds
  exact ⟨bounds.1, by simp only [digitsLength] at *; omega⟩

theorem scanNumber_stop (scanned : scanNumber (cs ++ orig) = .token kind cs.length)
    (stops : Stops tail) : scanNumber (cs ++ tail) = .token kind cs.length := by
  have inside := (scanNumber_length scanned).1
  have whole : cs.length = ((cs ++ orig).takeWhile Char.isDigit).length +
      (cs.drop (digitsLength (cs ++ orig))).length := by
    rw [List.length_drop]
    simp only [digitsLength] at *
    omega
  rw [scanNumber_eq, List.drop_append_of_le_length inside, whole] at scanned
  rw [scanNumber_eq, digitsLength_stop inside stops, List.drop_append_of_le_length inside,
    takeWhile_stop inside stops.digits, whole]
  exact scanAfter_stop scanned stops

end Numbers

section Quotes

-- A character stands between its quotes and needs nothing behind them.
theorem scanChar_stop (scanned : scanChar (cs ++ orig) = .token kind (cs.length + 1))
    (tail : List Char) : scanChar (cs ++ tail) = .token kind (cs.length + 1) := by
  unfold scanChar at scanned
  split at scanned
  next c rest text =>
    split at scanned
    next => cases scanned
    next plain =>
      injection scanned with kinds four
      match cs, four with
      | [x, y, z], _ => simp_all [scanChar]
  next c rest _ text =>
    split at scanned
    next => cases scanned
    next plain =>
      injection scanned with kinds three
      match cs, three with
      | [x, y], _ => simp_all [scanChar]
  next => cases scanned

theorem scanChar_length (scanned : scanChar cs = .token kind length) :
    0 < length ∧ length ≤ cs.length + 1 := by
  unfold scanChar at scanned
  split at scanned
  next =>
    split at scanned
    · cases scanned
    · cases scanned
      simp
  next =>
    split at scanned
    · cases scanned
    · cases scanned
      simp
  next => cases scanned

theorem stringLength_le (cs : List Char) : stringLength cs ≤ cs.length := by
  fun_induction stringLength cs <;> simp_all

-- A string ends at its closing quote, whatever comes behind that.
theorem stringLength_stop (closed : (cs.drop (stringLength cs)).head? = some '"')
    (tail : List Char) :
    stringLength (cs.take (stringLength cs) ++ '"' :: tail) = stringLength cs := by
  fun_induction stringLength cs with
  | case1 => simp at closed
  | case2 cs => simp at closed
  | case3 c cs plain ih => simp_all [stringLength]
  | case4 c cs _ ends =>
      simp_all [stringLength]
  | case5 c cs _ goes ih =>
      simp_all [stringLength]

theorem scanString_stop (scanned : scanString (cs ++ orig) = .token kind (cs.length + 1))
    (tail : List Char) : scanString (cs ++ tail) = .token kind (cs.length + 1) := by
  unfold scanString at scanned
  simp only at scanned
  split at scanned
  next closed =>
    injection scanned with kinds whole
    have count : cs.length = stringLength (cs ++ orig) + 1 := by omega
    have body : cs = (cs ++ orig).take (stringLength (cs ++ orig)) ++ ['"'] := by
      have all : (cs ++ orig).take (stringLength (cs ++ orig) + 1) = cs := by
        rw [← count, List.take_left]
      rw [List.take_add_one, ← List.head?_drop, closed] at all
      exact all.symm
    have same := stringLength_stop closed tail
    have text : cs ++ tail = (cs ++ orig).take (stringLength (cs ++ orig)) ++ '"' :: tail := by
      rw [← List.singleton_append, ← List.append_assoc, ← body]
    have short : ((cs ++ orig).take (stringLength (cs ++ orig))).length =
        stringLength (cs ++ orig) := List.length_take_of_le (stringLength_le _)
    unfold scanString
    simp only [text, same]
    rw [List.drop_left' short, if_pos List.head?_cons, ← kinds, count]
  next => cases scanned

theorem scanString_length (scanned : scanString cs = .token kind length) :
    0 < length ∧ length ≤ cs.length + 1 := by
  unfold scanString at scanned
  simp only at scanned
  split at scanned
  next closed =>
    injection scanned with _ whole
    have inside : stringLength cs < cs.length := by
      refine Nat.lt_of_not_le fun past => ?_
      rw [List.drop_eq_nil_of_le past] at closed
      cases closed
    omega
  next => cases scanned

end Quotes

section Signs

-- No sign goes on with a blank or a slash.
theorem signSpellings_stop : ∀ s ∈ signSpellings, s.1 ≠ [] ∧ ∀ c ∈ s.1.tail, !isBlank c && c ≠ '/' := by
  have checked : signSpellings.all (fun s =>
      !s.1.isEmpty && s.1.tail.all fun c => !isBlank c && c ≠ '/') = true := by rfl
  intro s member
  have both := List.all_eq_true.mp checked s member
  rw [Bool.and_eq_true, List.all_eq_true] at both
  exact ⟨by simpa using both.1, both.2⟩

theorem scanSign_found (scanned : scanSign cs = .token kind length) :
    ∃ spelling, signSpellings.find? (fun s => s.1.isPrefixOf cs) = some (spelling, kind) ∧
      spelling.length = length := by
  unfold scanSign at scanned
  split at scanned
  next spelling kind found =>
    cases scanned
    exact ⟨spelling, found, rfl⟩
  next => cases scanned

theorem scanSign_stop (scanned : scanSign (cs ++ orig) = .token kind cs.length)
    (stops : Stops tail) : scanSign (cs ++ tail) = .token kind cs.length := by
  obtain ⟨spelling, found, whole⟩ := scanSign_found scanned
  obtain ⟨here, before, after, list, others⟩ := List.find?_eq_some_iff_append.mp found
  have spelled : spelling = cs := by
    have first := List.prefix_iff_eq_take.mp (List.isPrefixOf_iff_prefix.mp here)
    rw [whole, List.take_left] at first
    exact first
  subst spelled
  have member (s : List Char × TokenKind) (first : s ∈ before) : s ∈ signSpellings := by
    rw [list]
    exact List.mem_append_left _ first
  have same : signSpellings.find? (fun s => s.1.isPrefixOf (spelling ++ tail)) =
      some (spelling, kind) := by
    refine List.find?_eq_some_iff_append.mpr
      ⟨List.isPrefixOf_iff_prefix.mpr (List.prefix_append ..), before, after, list, ?_⟩
    intro s first
    rw [Bool.not_eq_true', Bool.eq_false_iff]
    intro fits
    have fits := List.isPrefixOf_iff_prefix.mp fits
    by_cases short : s.1.length ≤ spelling.length
    · have inside := List.prefix_of_prefix_length_le fits (List.prefix_append ..) short
      have fitted := List.isPrefixOf_iff_prefix.mpr (inside.trans (List.prefix_append spelling orig))
      have unfit := others s first
      simp [fitted] at unfit
    · -- A longer sign would go on with what the rest of the text starts with.
      obtain ⟨more, longer⟩ := List.prefix_of_prefix_length_le (List.prefix_append spelling tail) fits
        (Nat.le_of_not_le short)
      rw [← longer] at fits
      have past := (List.prefix_append_right_inj spelling).mp fits
      cases more with
      | nil => simp [← longer] at short
      | cons c more =>
          obtain ⟨rest, rfl⟩ := past
          have nonempty := (signSpellings_stop _ (List.mem_of_find?_eq_some found)).1
          have inside : c ∈ s.1.tail := by
            rw [← longer, List.tail_append_of_ne_nil nonempty]
            exact List.mem_append_right _ List.mem_cons_self
          have plain := (signSpellings_stop s (member s first)).2 c inside
          rcases stops c rfl with blank | slash <;> simp_all
  unfold scanSign
  rw [same]

theorem scanSign_length (scanned : scanSign cs = .token kind length) :
    0 < length ∧ length ≤ cs.length := by
  obtain ⟨spelling, found, rfl⟩ := scanSign_found scanned
  have member := signSpellings_stop _ (List.mem_of_find?_eq_some found)
  have fits : spelling.isPrefixOf cs = true := List.find?_some (p := fun s : List Char × TokenKind => s.1.isPrefixOf cs) found
  exact ⟨List.length_pos_iff.mpr member.1, (List.isPrefixOf_iff_prefix.mp fits).length_le⟩

end Signs

section Tokens

-- No comment starts here.
def NoComment (c : Char) (rest : List Char) : Prop :=
  c = '/' → rest.head? ≠ some '/' ∧ rest.head? ≠ some '*'

/-- What is no word and has no digit or quote in front is a sign. -/
structure SignAt (c : Char) (rest : List Char) : Prop where
  blank : ¬isBlank c
  word : ¬isWordStart c
  digit : ¬c.isDigit
  single : c ≠ '\''
  double : c ≠ '"'
  noComment : NoComment c rest

theorem SignAt.scan {rest : List Char} (sign : SignAt c rest) :
    Lexeme.scan c rest = scanSign (c :: rest) := by
  obtain ⟨blank, word, digit, single, double, noComment⟩ := sign
  unfold Lexeme.scan
  rw [if_neg blank, if_neg word, if_neg digit, if_neg single, if_neg double]
  split
  next => exact absurd rfl (noComment rfl).1
  next => exact absurd rfl (noComment rfl).2
  next => rfl

theorem signAt_of_scan {rest : List Char} (scanned : Lexeme.scan c rest = .token kind length)
    (word : ¬isWordStart c) (digit : ¬c.isDigit) (single : c ≠ '\'') (double : c ≠ '"') :
    SignAt c rest := by
  unfold Lexeme.scan at scanned
  split at scanned
  next => cases scanned
  next blank =>
    refine ⟨blank, word, digit, single, double, ?_⟩
    rintro rfl
    split at scanned
    next => cases scanned
    next => split at scanned <;> cases scanned
    next line block =>
      refine ⟨fun same => ?_, fun same => ?_⟩
      · obtain ⟨comment, same⟩ := List.head?_eq_some_iff.mp same
        exact line comment rfl same
      · obtain ⟨comment, same⟩ := List.head?_eq_some_iff.mp same
        exact block comment rfl same

theorem scan_length {rest : List Char} (scanned : Lexeme.scan c rest = .token kind length) :
    0 < length ∧ length ≤ rest.length + 1 := by
  by_cases sign : ¬isWordStart c ∧ ¬c.isDigit ∧ c ≠ '\'' ∧ c ≠ '"'
  · obtain ⟨word, digit, single, double⟩ := sign
    rw [(signAt_of_scan scanned word digit single double).scan] at scanned
    exact scanSign_length scanned
  · unfold Lexeme.scan at scanned
    split at scanned
    next => cases scanned
    next =>
    split at scanned
    next =>
      injection scanned with _ same
      have := wordLength_le rest
      omega
    next =>
    split at scanned
    next digit =>
      have bounds := scanNumber_length scanned
      exact ⟨Nat.lt_of_lt_of_le (takeWhile_ne_nil digit rest) bounds.1, bounds.2⟩
    next =>
    split at scanned
    next => exact scanChar_length scanned
    next =>
    split at scanned
    next => exact scanString_length scanned
    next => simp_all

-- A token is read as before if another rest comes behind it, but for a slash that this rest makes a
-- comment.
theorem scan_stop (scanned : Lexeme.scan c (cs ++ orig) = .token kind (cs.length + 1))
    (stops : Stops tail) (apart : c = '/' → cs = [] → tail.head? ≠ some '/') :
    Lexeme.scan c (cs ++ tail) = .token kind (cs.length + 1) := by
  by_cases sign : ¬isWordStart c ∧ ¬c.isDigit ∧ c ≠ '\'' ∧ c ≠ '"'
  · obtain ⟨word, digit, single, double⟩ := sign
    have here := signAt_of_scan scanned word digit single double
    have still : SignAt c (cs ++ tail) := by
      refine ⟨here.blank, word, digit, single, double, fun slash => ?_⟩
      cases cs with
      | cons d cs => exact here.noComment slash
      | nil =>
          refine ⟨apart slash rfl, fun star => ?_⟩
          rcases stops '*' star with blank | slash
          · exact absurd blank (by decide)
          · exact absurd slash (by decide)
    rw [here.scan] at scanned
    rw [still.scan]
    have whole : scanSign ((c :: cs) ++ orig) = .token kind (c :: cs).length := scanned
    exact scanSign_stop whole stops
  · unfold Lexeme.scan at scanned ⊢
    split at scanned
    next => cases scanned
    next blank =>
    rw [if_neg blank]
    split at scanned
    next word =>
      injection scanned with kinds whole
      have length : wordLength (cs ++ orig) = cs.length := by omega
      have taken (rest : List Char) : (c :: (cs ++ rest)).take (cs.length + 1) = c :: cs := by
        rw [List.take_succ_cons, List.take_left]
      rw [if_pos word, ← kinds]
      simp only [length, wordLength_stop length stops, Nat.add_comm 1, taken]
    next word =>
    rw [if_neg word]
    split at scanned
    next digit =>
      rw [if_pos digit]
      have whole : scanNumber ((c :: cs) ++ orig) = .token kind (c :: cs).length := scanned
      exact scanNumber_stop whole stops
    next digit =>
    rw [if_neg digit]
    split at scanned
    next single =>
      rw [if_pos single]
      exact scanChar_stop scanned tail
    next single =>
    rw [if_neg single]
    split at scanned
    next double =>
      rw [if_pos double]
      exact scanString_stop scanned tail
    next double => simp_all

end Tokens

end MiLanguage
