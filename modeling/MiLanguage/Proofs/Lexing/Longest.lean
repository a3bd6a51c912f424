import MiLanguage.Proofs.Lexing.Grammar
import MiLanguage.Proofs.Tokens

set_option autoImplicit false

open Computability

namespace MiLanguage

variable {kind : TokenKind} {length : Nat} {c : Char} {cs rest : List Char}

section Words

theorem isWordChar_of_start (start : isWordStart c = true) : isWordChar c = true := by
  simp only [isWordStart, isWordChar, Char.isAlphanum, Bool.or_eq_true] at start ⊢
  exact start.imp_left .inl

theorem wordLength_run (all : ∀ c ∈ cs, isWordChar c = true) (rest : List Char) :
    wordLength (cs ++ rest) = cs.length + wordLength rest := by
  induction cs with
  | nil => simp
  | cons c cs ih =>
      obtain ⟨plain, all⟩ := List.forall_mem_cons.mp all
      simp only [List.cons_append, wordLength, plain, Bool.true_or, if_true, ih all, List.length_cons]
      omega

theorem wordLength_words {words : List (List Char)} (shaped : ∀ w ∈ words, w ∈ spelledAs "." * wordShape) :
    wordLength words.flatten = words.flatten.length := by
  induction words with
  | nil => rfl
  | cons w words ih =>
      obtain ⟨here, later⟩ := List.forall_mem_cons.mp shaped
      obtain ⟨word, member, rfl⟩ := mem_spelledAs_mul.mp here
      obtain ⟨c, tail, rfl, start, tails⟩ := mem_oneOf_mul.mp member
      have all : ∀ d ∈ c :: tail, isWordChar d = true :=
        List.forall_mem_cons.mpr ⟨isWordChar_of_start start, mem_oneOf_star.mp tails⟩
      have inner := wordLength_run all words.flatten
      simp only [List.flatten_cons, List.append_assoc, List.length_append]
      show wordLength ('.' :: (c :: tail ++ words.flatten)) = 1 + _
      rw [wordLength, if_pos (by simp [start]), inner, ih later]
      omega

theorem words_of_wordLength (whole : wordLength cs = cs.length) :
    ∃ (run : List Char) (words : List (List Char)), cs = run ++ words.flatten ∧
      (∀ c ∈ run, isWordChar c = true) ∧ ∀ w ∈ words, w ∈ spelledAs "." * wordShape := by
  induction cs with
  | nil => exact ⟨[], [], rfl, nofun, nofun⟩
  | cons c cs ih =>
      rw [wordLength, List.length_cons] at whole
      split at whole
      next goes =>
        obtain ⟨run, words, text, plain, shaped⟩ := ih (Nat.succ.inj whole)
        by_cases word : isWordChar c = true
        · exact ⟨c :: run, words, by rw [text]; rfl, List.forall_mem_cons.mpr ⟨word, plain⟩, shaped⟩
        · -- A dot: the run behind it starts with a letter, so it is a word.
          have dotted : c = '.' ∧ cs.head?.any isWordStart = true := by simpa [word] using goes
          obtain ⟨rfl, start⟩ := dotted
          cases run with
          | nil =>
              exfalso
              cases words with
              | nil => simp [text] at start
              | cons w words =>
                  obtain ⟨_, _, rfl⟩ := mem_spelledAs_mul.mp (shaped w List.mem_cons_self)
                  simp [text, isWordStart] at start
          | cons d run =>
              rw [text, List.cons_append, List.head?_cons, Option.any_some] at start
              obtain ⟨_, plain⟩ := List.forall_mem_cons.mp plain
              refine ⟨[], ('.' :: d :: run) :: words, by rw [text]; rfl, nofun,
                List.forall_mem_cons.mpr ⟨?_, shaped⟩⟩
              exact mem_spelledAs_mul.mpr
                ⟨d :: run, mem_oneOf_mul.mpr ⟨d, run, rfl, start, mem_oneOf_star.mpr plain⟩, rfl⟩
      next => cases whole

theorem mem_nameShape : cs ∈ nameShape ↔
    ∃ c rest, cs = c :: rest ∧ isWordStart c = true ∧ wordLength rest = rest.length := by
  rw [nameShape, Language.mem_mul]
  constructor
  · rintro ⟨_, word, _, ⟨words, rfl, shaped⟩, rfl⟩
    obtain ⟨c, run, rfl, start, plain⟩ := mem_oneOf_mul.mp word
    refine ⟨c, run ++ words.flatten, rfl, start, ?_⟩
    rw [wordLength_run (mem_oneOf_star.mp plain), wordLength_words shaped, List.length_append]
  · rintro ⟨c, rest, rfl, start, whole⟩
    obtain ⟨run, words, rfl, plain, shaped⟩ := words_of_wordLength whole
    exact ⟨c :: run, mem_oneOf_mul.mpr ⟨c, run, rfl, start, mem_oneOf_star.mpr plain⟩,
      words.flatten, Language.join_mem_kstar shaped, rfl⟩

theorem wordLength_take (cs : List Char) : wordLength (cs.take (wordLength cs)) = wordLength cs := by
  induction cs with
  | nil => rfl
  | cons c cs ih =>
      rw [wordLength]
      split
      next goes =>
        rw [List.take_succ_cons, wordLength, ih, if_pos]
        cases cs with
        | nil => simpa [wordLength] using goes
        | cons d cs =>
            rw [Bool.or_eq_true] at goes ⊢
            refine goes.imp_right fun dot => ?_
            have start : isWordStart d = true := by
              have := (Bool.and_eq_true _ _).mp dot
              simpa using this.2
            rw [wordLength, if_pos (by simp [isWordChar_of_start start]), List.take_succ_cons]
            exact dot
      next => rfl

-- What makes a word goes on making one before more text.
theorem wordLength_append (whole : wordLength cs = cs.length) (rest : List Char) :
    cs.length ≤ wordLength (cs ++ rest) := by
  induction cs with
  | nil => exact Nat.zero_le _
  | cons c cs ih =>
      rw [wordLength, List.length_cons] at whole
      split at whole
      next goes =>
        rw [List.cons_append, wordLength, if_pos, List.length_cons]
        · exact Nat.succ_le_succ (ih (Nat.succ.inj whole))
        · cases cs with
          | nil => simp_all
          | cons d cs => exact goes
      next => cases whole

end Words

section Numbers

theorem scanNumber_run (run : cs ∈ digitsShape) (ends : ∀ x ∈ rest.head?, x.isDigit = false) :
    scanNumber (cs ++ rest) = scanAfter cs rest := by
  have all := (mem_run.mp run).2
  have past : rest.takeWhile Char.isDigit = [] := by
    cases rest with
    | nil => rfl
    | cons x rest => rw [List.takeWhile_cons_of_neg (by simp [ends x rfl])]
  have digits : (cs ++ rest).takeWhile Char.isDigit = cs := by
    rw [List.takeWhile_append_of_pos all, past, List.append_nil]
  rw [scanNumber_eq, digitsLength, digits, List.drop_left]

theorem scanFraction_token (before : Nat) (cs : List Char) :
    ∃ kind length, scanFraction before cs = .token kind length ∧ before + digitsLength cs ≤ length := by
  unfold scanFraction
  split
  next => exact ⟨_, _, rfl, Nat.le_succ _⟩
  next => exact ⟨_, _, rfl, Nat.le_succ _⟩
  next => exact ⟨_, _, rfl, Nat.le_refl _⟩

theorem scanAfter_token (digits after : List Char) :
    ∃ kind length, scanAfter digits after = .token kind length := by
  unfold scanAfter
  split
  next => exact ⟨_, _, rfl⟩
  next x rest =>
    unfold scanSuffix scanFraction
    dsimp only
    repeat' split
    all_goals exact ⟨_, _, rfl⟩

-- A token of this kind and length stands at the head of the text.
def Starts (cs : List Char) (kind : TokenKind) (length : Nat) : Prop :=
  ∃ lexeme rest, cs = lexeme ++ rest ∧ lexeme.length = length ∧ lexeme ∈ kind.spellings

theorem starts_append {lexeme : List Char} (spelled : lexeme ∈ kind.spellings) (rest : List Char) :
    Starts (lexeme ++ rest) kind lexeme.length :=
  ⟨lexeme, rest, rfl, rfl, spelled⟩

theorem digits_append (cs : List Char) :
    cs.takeWhile Char.isDigit ++ cs.drop (digitsLength cs) = cs :=
  List.prefix_iff_eq_append.mp (List.takeWhile_prefix _)

theorem scanFraction_starts {digits : List Char} (run : digits ∈ digitsShape)
    (digit : rest.head?.any Char.isDigit = true)
    (scanned : scanFraction (digits.length + 1) rest = .token kind length) :
    Starts (digits ++ '.' :: rest) kind length := by
  have later : rest.takeWhile Char.isDigit ∈ digitsShape := by
    cases rest with
    | nil => cases digit
    | cons c rest => exact mem_takeWhile_run digit
  have text := digits_append rest
  have fraction : '.' :: rest.takeWhile Char.isDigit ∈ spelledAs "." * digitsShape :=
    mem_spelledAs_mul.mpr ⟨_, later, rfl⟩
  have float {f : Char} (suffix : f = 'f' ∨ f = 'F') {more : List Char}
      (left : rest.drop (digitsLength rest) = f :: more) :
      Starts (digits ++ '.' :: rest) (.literal .float) (digits.length + 1 + digitsLength rest + 1) := by
    refine ⟨digits ++ ('.' :: rest.takeWhile Char.isDigit ++ [f]), more, ?_, ?_, ?_⟩
    · rw [List.append_assoc, List.append_assoc, List.singleton_append, ← left, List.cons_append, text]
    · simp only [digitsLength, List.length_append, List.length_cons, List.length_nil]
      omega
    · exact Language.append_mem_mul run
        (Language.append_mem_mul (.inr fraction) ⟨f, by simpa using suffix, rfl⟩)
  unfold scanFraction at scanned
  split at scanned
  next next =>
    obtain ⟨more, left⟩ := List.head?_eq_some_iff.mp next
    cases scanned
    exact float (.inl rfl) left
  next next =>
    obtain ⟨more, left⟩ := List.head?_eq_some_iff.mp next
    cases scanned
    exact float (.inr rfl) left
  next =>
    cases scanned
    refine ⟨digits ++ '.' :: rest.takeWhile Char.isDigit, rest.drop (digitsLength rest), ?_, ?_, ?_⟩
    · rw [List.append_assoc, List.cons_append, text]
    · simp only [digitsLength, List.length_append, List.length_cons]
      omega
    · exact Language.append_mem_mul run fraction

theorem scanAfter_starts {digits : List Char} (run : digits ∈ digitsShape)
    (scanned : scanAfter digits cs = .token kind length) : Starts (digits ++ cs) kind length := by
  have whole : digits ∈ TokenKind.spellings (.literal .int) := Or.inr run
  have plain := starts_append whole cs
  cases cs with
  | nil => cases scanned; exact plain
  | cons x rest =>
      have suffixed {kind : TokenKind} (spelled : digits ++ [x] ∈ kind.spellings) :
          Starts (digits ++ x :: rest) kind (digits.length + 1) := by
        simpa using starts_append spelled rest
      simp only [scanAfter, scanSuffix] at scanned
      split at scanned
      next fraction =>
        obtain ⟨rfl, digit⟩ : x = '.' ∧ rest.head?.any Char.isDigit = true := by simpa using fraction
        exact scanFraction_starts run digit scanned
      next =>
      split at scanned
      next suffix =>
        cases scanned
        have float : [x] ∈ (1 + spelledAs "." * digitsShape) * oneOf (fun c => c = 'f' || c = 'F') :=
          Language.mem_mul.mpr ⟨[], Or.inl rfl, [x], ⟨x, by simpa using suffix, rfl⟩, rfl⟩
        exact suffixed (Language.append_mem_mul run float)
      next =>
      split at scanned
      next suffix =>
        cases scanned
        have long : [x] ∈ oneOf (fun c => c = 'l' || c = 'L') := ⟨x, by simpa using suffix, rfl⟩
        exact suffixed (Language.append_mem_mul run long)
      next =>
      split at scanned
      next bit =>
        cases scanned
        obtain ⟨rfl, one⟩ : x = 'b' ∧ (digits = ['0'] ∨ digits = ['1']) := by simpa using bit
        rcases one with rfl | rfl
        · exact ⟨['0', 'b'], rest, rfl, rfl, ['0'], ⟨'0', rfl, rfl⟩, ['b'], rfl, rfl⟩
        · exact ⟨['1', 'b'], rest, rfl, rfl, ['1'], ⟨'1', rfl, rfl⟩, ['b'], rfl, rfl⟩
      next =>
      split at scanned
      next hex =>
        cases scanned
        obtain ⟨⟨sign, rfl⟩, nonempty⟩ : ((x = 'x' ∨ x = 'X') ∧ digits = ['0']) ∧
            rest.takeWhile isHexDigit ≠ [] := by simpa using hex
        have text := List.prefix_iff_eq_append.mp (List.takeWhile_prefix (l := rest) isHexDigit)
        refine ⟨'0' :: x :: rest.takeWhile isHexDigit, rest.drop (rest.takeWhile isHexDigit).length, ?_, ?_, ?_⟩
        · exact congrArg ('0' :: x :: ·) text.symm
        · simp only [List.length_cons]
          omega
        · refine Or.inl (mem_spelledAs_mul.mpr ⟨_, mem_oneOf_mul.mpr ⟨x, _, rfl, by simpa using sign, ?_⟩, rfl⟩)
          exact mem_run.mpr ⟨nonempty, fun d member => List.all_eq_true.mp List.all_takeWhile d member⟩
      next => cases scanned; exact plain

theorem scanNumber_starts (digit : c.isDigit = true) (scanned : scanNumber (c :: rest) = .token kind length) :
    Starts (c :: rest) kind length := by
  rw [scanNumber_eq] at scanned
  have text := digits_append (c :: rest)
  have starts := scanAfter_starts (mem_takeWhile_run digit) scanned
  rwa [text] at starts

-- The shapes of numbers.
def numberShape : Language Char :=
  TokenKind.spellings (.literal .bit) + TokenKind.spellings (.literal .int) +
    TokenKind.spellings (.literal .long) + TokenKind.spellings (.literal .double) +
    TokenKind.spellings (.literal .float)

-- A number that goes on behind its digits is read on from there.
theorem scanNumber_reaches (spelled : cs ∈ numberShape) (rest : List Char) :
    ∃ kind length, scanNumber (cs ++ rest) = .token kind length ∧ cs.length ≤ length := by
  have reads {digits : List Char} (run : digits ∈ digitsShape) {x : Char} (stop : x.isDigit = false)
      (more : List Char) : scanNumber (digits ++ x :: more) = scanSuffix digits x more :=
    scanNumber_run run fun y first => by cases first; exact stop
  have fraction {digits later : List Char} (run : digits ∈ digitsShape) (inner : later ∈ digitsShape)
      (more : List Char) : scanNumber (digits ++ '.' :: (later ++ more)) =
        scanFraction (digits.length + 1) (later ++ more) := by
    have digit : (later ++ more).head?.any Char.isDigit = true := by
      obtain ⟨c, later, rfl, digit, -⟩ := mem_oneOf_mul.mp inner
      exact digit
    rw [reads run rfl, scanSuffix]
    simp only [digit, decide_true, Bool.and_self, if_true]
  have within {later : List Char} (inner : later ∈ digitsShape) (more : List Char) :
      later.length ≤ digitsLength (later ++ more) := by
    rw [digitsLength, List.takeWhile_append_of_pos (mem_run.mp inner).2, List.length_append]
    exact Nat.le_add_right _ _
  rcases spelled with (((bit | int) | long) | double) | float
  · obtain ⟨c, _, rfl, one, rfl⟩ := mem_oneOf_mul.mp bit
    have one : c = '0' ∨ c = '1' := by simpa using one
    have run : [c] ∈ digitsShape := mem_run.mpr ⟨List.cons_ne_nil _ _, by rcases one with rfl | rfl <;> simp⟩
    refine ⟨.literal .bit, 2, ?_, Nat.le_refl 2⟩
    show scanNumber ([c] ++ 'b' :: rest) = _
    rw [reads run rfl, scanSuffix]
    rcases one with rfl | rfl <;> rfl
  · rcases int with hex | plain
    · obtain ⟨_, tail, rfl⟩ := mem_spelledAs_mul.mp hex
      obtain ⟨x, digits, rfl, sign, hex⟩ := mem_oneOf_mul.mp tail
      obtain ⟨nonempty, all⟩ := mem_run.mp hex
      have sign : x = 'x' ∨ x = 'X' := by simpa using sign
      have run : ['0'] ∈ digitsShape := mem_run.mpr ⟨List.cons_ne_nil _ _, by simp⟩
      have stop : x.isDigit = false := by rcases sign with rfl | rfl <;> rfl
      have count : digits.length ≤ ((digits ++ rest).takeWhile isHexDigit).length := by
        rw [List.takeWhile_append_of_pos all, List.length_append]
        exact Nat.le_add_right _ _
      have positive : 0 < digits.length := List.length_pos_iff.mpr nonempty
      have hexadecimal : ((digits ++ rest).takeWhile isHexDigit).length ≠ 0 := by omega
      refine ⟨.literal .int, 2 + ((digits ++ rest).takeWhile isHexDigit).length, ?_, ?_⟩
      · show scanNumber (['0'] ++ x :: (digits ++ rest)) = _
        rw [reads run stop, scanSuffix]
        rcases sign with rfl | rfl <;> simp [hexadecimal]
      · show digits.length + 1 + 1 ≤ _
        omega
    · obtain ⟨kind, length, scanned⟩ := scanAfter_token ((cs ++ rest).takeWhile Char.isDigit)
        ((cs ++ rest).drop (digitsLength (cs ++ rest)))
      rw [← scanNumber_eq] at scanned
      exact ⟨kind, length, scanned, (within plain rest).trans (scanNumber_length scanned).1⟩
  · obtain ⟨digits, run, _, ⟨x, sign, rfl⟩, rfl⟩ := Language.mem_mul.mp long
    have sign : x = 'l' ∨ x = 'L' := by simpa using sign
    have stop : x.isDigit = false := by rcases sign with rfl | rfl <;> rfl
    refine ⟨.literal .long, digits.length + 1, ?_, by simp⟩
    rw [List.append_assoc, List.singleton_append, reads run stop, scanSuffix]
    rcases sign with rfl | rfl <;> simp
  · obtain ⟨digits, run, _, dotted, rfl⟩ := Language.mem_mul.mp double
    obtain ⟨later, inner, rfl⟩ := mem_spelledAs_mul.mp dotted
    have count := within inner rest
    have text : digits ++ (".".toList ++ later) ++ rest = digits ++ '.' :: (later ++ rest) := by simp
    obtain ⟨kind, length, scanned, least⟩ := scanFraction_token (digits.length + 1) (later ++ rest)
    refine ⟨kind, length, by rw [text, fraction run inner, scanned], ?_⟩
    simp
    omega
  · obtain ⟨digits, run, _, suffixed, rfl⟩ := Language.mem_mul.mp float
    obtain ⟨dotted, shaped, _, ⟨f, sign, rfl⟩, rfl⟩ := Language.mem_mul.mp suffixed
    have sign : f = 'f' ∨ f = 'F' := by simpa using sign
    have stop : f.isDigit = false := by rcases sign with rfl | rfl <;> rfl
    rcases shaped with rfl | shaped
    · refine ⟨.literal .float, digits.length + 1, ?_, by simp⟩
      rw [List.nil_append, List.append_assoc, List.singleton_append, reads run stop, scanSuffix]
      rcases sign with rfl | rfl <;> simp
    · obtain ⟨later, inner, rfl⟩ := mem_spelledAs_mul.mp shaped
      have text : digits ++ (".".toList ++ later ++ [f]) ++ rest =
          digits ++ '.' :: (later ++ f :: rest) := by simp
      have count : digitsLength (later ++ f :: rest) = later.length := by
        rw [digitsLength, List.takeWhile_append_of_pos (mem_run.mp inner).2,
          List.takeWhile_cons_of_neg (by simp [stop]), List.append_nil]
      refine ⟨.literal .float, digits.length + 1 + later.length + 1, ?_, ?_⟩
      · rw [text, fraction run inner, scanFraction, count, List.drop_left]
        rcases sign with rfl | rfl <;> rfl
      · simp
        omega

end Numbers

section Quotes

theorem mem_quotedShape {quote : Char} : cs ∈ quotedShape quote ↔
    (∃ c, c ≠ quote ∧ c ≠ '\\' ∧ cs = [c]) ∨ ∃ c, c ≠ '\n' ∧ cs = ['\\', c] := by
  rw [quotedShape, Language.mem_add, escapeShape, mem_spelledAs_mul]
  constructor
  · rintro (⟨c, plain, rfl⟩ | ⟨_, ⟨c, escaped, rfl⟩, rfl⟩)
    · exact .inl ⟨c, by simp_all⟩
    · exact .inr ⟨c, by simpa using escaped, rfl⟩
  · rintro (⟨c, one, two, rfl⟩ | ⟨c, escaped, rfl⟩)
    · exact .inl ⟨c, by simp [one, two], rfl⟩
    · exact .inr ⟨[c], ⟨c, by simpa using escaped, rfl⟩, rfl⟩

theorem mem_charShape : cs ∈ TokenKind.spellings (.literal .char) ↔
    ∃ item ∈ quotedShape '\'', cs = '\'' :: (item ++ ['\'']) := by
  refine mem_spelledAs_mul.trans ⟨?_, ?_⟩
  · rintro ⟨_, inside, rfl⟩
    obtain ⟨item, shaped, _, rfl, rfl⟩ := Language.mem_mul.mp inside
    exact ⟨item, shaped, rfl⟩
  · rintro ⟨item, shaped, rfl⟩
    exact ⟨_, Language.append_mem_mul shaped rfl, rfl⟩

theorem scanChar_starts (scanned : scanChar rest = .token kind length) :
    Starts ('\'' :: rest) kind length := by
  have quoted {item : List Char} (inside : item ∈ quotedShape '\'') (rest : List Char) :
      Starts ('\'' :: (item ++ '\'' :: rest)) (.literal .char) (item.length + 2) := by
    exact ⟨'\'' :: (item ++ ['\'']), rest, by simp, by simp, mem_charShape.mpr ⟨item, inside, rfl⟩⟩
  unfold scanChar at scanned
  split at scanned
  next c rest =>
    split at scanned
    next => cases scanned
    next escaped =>
      cases scanned
      exact quoted (mem_quotedShape.mpr (.inr ⟨c, escaped, rfl⟩)) rest
  next c rest _ =>
    split at scanned
    next => cases scanned
    next plain =>
      cases scanned
      simp only [Bool.or_eq_true, decide_eq_true_eq, not_or] at plain
      exact quoted (mem_quotedShape.mpr (.inl ⟨c, plain.1, plain.2, rfl⟩)) rest
  next => cases scanned

theorem scanChar_reaches {item : List Char} (shaped : item ∈ quotedShape '\'') (rest : List Char) :
    scanChar (item ++ '\'' :: rest) = .token (.literal .char) (item.length + 2) := by
  rcases mem_quotedShape.mp shaped with ⟨c, one, two, rfl⟩ | ⟨c, escaped, rfl⟩
  · rw [List.singleton_append, scanChar]
    · simp [one, two]
    · rintro d rfl _
      exact two rfl
  · simp [scanChar, escaped]

theorem stringLength_items {items : List (List Char)} (shaped : ∀ item ∈ items, item ∈ quotedShape '"')
    (rest : List Char) : stringLength (items.flatten ++ '"' :: rest) = items.flatten.length := by
  induction items with
  | nil => rfl
  | cons item items ih =>
      obtain ⟨here, later⟩ := List.forall_mem_cons.mp shaped
      rcases mem_quotedShape.mp here with ⟨c, one, two, rfl⟩ | ⟨c, escaped, rfl⟩
      · simp [stringLength, one, two, ih later]
      · simp [stringLength, escaped, ih later]

theorem items_of_stringLength (cs : List Char) :
    cs.take (stringLength cs) ∈ (quotedShape '"')∗ := by
  have more {item later : List Char} (here : item ∈ quotedShape '"')
      (starred : later ∈ (quotedShape '"')∗) : item ++ later ∈ (quotedShape '"')∗ := by
    obtain ⟨items, rfl, shaped⟩ := starred
    exact ⟨item :: items, rfl, List.forall_mem_cons.mpr ⟨here, shaped⟩⟩
  fun_induction stringLength cs with
  | case1 => exact Language.nil_mem_kstar _
  | case2 cs => exact Language.nil_mem_kstar _
  | case3 c cs escaped ih => exact more (mem_quotedShape.mpr (.inr ⟨c, escaped, rfl⟩)) ih
  | case4 c cs _ ends => exact Language.nil_mem_kstar _
  | case5 c cs _ goes ih =>
      simp only [Bool.or_eq_true, decide_eq_true_eq, not_or] at goes
      exact more (mem_quotedShape.mpr (.inl ⟨c, goes.1, goes.2, rfl⟩)) ih

theorem mem_stringShape : cs ∈ TokenKind.spellings (.literal .string) ↔
    ∃ items : List (List Char), (∀ item ∈ items, item ∈ quotedShape '"') ∧
      cs = '"' :: (items.flatten ++ ['"']) := by
  refine mem_spelledAs_mul.trans ⟨?_, ?_⟩
  · rintro ⟨_, inside, rfl⟩
    obtain ⟨_, ⟨items, rfl, shaped⟩, _, rfl, rfl⟩ := Language.mem_mul.mp inside
    exact ⟨items, shaped, rfl⟩
  · rintro ⟨items, shaped, rfl⟩
    exact ⟨_, Language.append_mem_mul (Language.join_mem_kstar shaped) rfl, rfl⟩

theorem scanString_starts (scanned : scanString rest = .token kind length) :
    Starts ('"' :: rest) kind length := by
  unfold scanString at scanned
  dsimp only at scanned
  split at scanned
  next closed =>
    cases scanned
    obtain ⟨more, left⟩ := List.head?_eq_some_iff.mp closed
    have text := List.take_append_drop (stringLength rest) rest
    have size : (rest.take (stringLength rest)).length = stringLength rest :=
      List.length_take_of_le (stringLength_le rest)
    refine ⟨'"' :: (rest.take (stringLength rest) ++ ['"']), more, ?_, ?_, ?_⟩
    · rw [List.cons_append, List.append_assoc, List.singleton_append, ← left, text]
    · rw [List.length_cons, List.length_append, size]
      rfl
    · exact mem_spelledAs_mul.mpr ⟨_, Language.append_mem_mul (items_of_stringLength rest) rfl, rfl⟩
  next => cases scanned

theorem scanString_reaches {items : List (List Char)} (shaped : ∀ item ∈ items, item ∈ quotedShape '"')
    (rest : List Char) : scanString (items.flatten ++ '"' :: rest) =
      .token (.literal .string) (items.flatten.length + 2) := by
  have size := stringLength_items shaped rest
  unfold scanString
  dsimp only
  rw [size, List.drop_left, List.head?_cons, if_pos rfl]

end Quotes

section Signs

theorem scanSign_starts (scanned : scanSign cs = .token kind length) :
    ∃ spelling, (spelling, kind) ∈ signSpellings ∧ spelling <+: cs ∧ spelling.length = length := by
  obtain ⟨spelling, found, count⟩ := scanSign_found scanned
  have fits : spelling.isPrefixOf cs = true :=
    List.find?_some (p := fun s : List Char × TokenKind => s.1.isPrefixOf cs) found
  exact ⟨spelling, List.mem_of_find?_eq_some found, List.isPrefixOf_iff_prefix.mp fits, count⟩

-- No sign comes before a longer one.
theorem signSpellings_sorted : signSpellings.Pairwise fun s t => t.1.length ≤ s.1.length := by decide

theorem scanSign_reaches {s : List Char × TokenKind} (member : s ∈ signSpellings) (here : s.1 <+: cs) :
    ∃ kind length, scanSign cs = .token kind length ∧ s.1.length ≤ length := by
  unfold scanSign
  cases found : signSpellings.find? (fun s => s.1.isPrefixOf cs) with
  | none =>
      have unfit := List.find?_eq_none.mp found s member
      exact absurd (List.isPrefixOf_iff_prefix.mpr here) unfit
  | some first =>
      refine ⟨first.2, first.1.length, rfl, ?_⟩
      obtain ⟨_, before, after, list, unfit⟩ := List.find?_eq_some_iff_append.mp found
      rw [list] at member
      have sorted := signSpellings_sorted
      rw [list, List.pairwise_append, List.pairwise_cons] at sorted
      rcases List.mem_append.mp member with inside | inside
      · have unfit := unfit s inside
        simp [List.isPrefixOf_iff_prefix.mpr here] at unfit
      · rcases List.mem_cons.mp inside with rfl | inside
        · exact Nat.le_refl _
        · exact sorted.2.1.1 s inside

end Signs

section Shapes

theorem mem_wordKinds {word : String} (member : (word, kind) ∈ wordKinds) :
    kind.spellings = spelledAs word ∧ word.toList ∈ nameShape ∧ kind ≠ .identifier := by
  have checked : wordKinds.all (fun entry => entry.1.toList.head?.any isWordStart &&
      wordLength entry.1.toList.tail = entry.1.toList.tail.length) = true := by decide
  have shaped : word.toList ∈ nameShape := by
    have both := List.all_eq_true.mp checked _ member
    simp only [Bool.and_eq_true, decide_eq_true_eq] at both
    cases text : word.toList with
    | nil => simp [text] at both
    | cons c rest =>
        rw [text] at both
        exact mem_nameShape.mpr ⟨c, rest, rfl, both.1, both.2⟩
  simp only [wordKinds, List.mem_append, List.mem_map] at member
  rcases member with ((⟨_, _, same⟩ | ⟨_, _, same⟩) | ⟨_, _, same⟩) | ⟨_, inside, same⟩
  · cases same
    exact ⟨rfl, shaped, nofun⟩
  · cases same
    exact ⟨rfl, shaped, nofun⟩
  · cases same
    exact ⟨rfl, shaped, nofun⟩
  · simp only [List.mem_cons, List.not_mem_nil, or_false] at inside
    rcases inside with rfl | rfl | rfl <;> cases same <;> exact ⟨rfl, shaped, nofun⟩

/-- What a text that spells a token looks like. -/
inductive Shape : TokenKind → List Char → Prop
  | name {cs : List Char} : cs ∈ nameShape → Shape .identifier cs
  | word {kind : TokenKind} {word : String} : (word, kind) ∈ wordKinds → Shape kind word.toList
  | number {l : LiteralToken} {cs : List Char} : cs ∈ numberShape → Shape (.literal l) cs
  | char {cs : List Char} : cs ∈ TokenKind.spellings (.literal .char) → Shape (.literal .char) cs
  | string {cs : List Char} : cs ∈ TokenKind.spellings (.literal .string) → Shape (.literal .string) cs
  | sign {kind : TokenKind} {cs : List Char} : (cs, kind) ∈ signSpellings → Shape kind cs

theorem shape_of_spelled (spelled : cs ∈ kind.spellings) : Shape kind cs := by
  cases kind with
  | identifier => exact .name spelled
  | keyword k => cases spelled; exact .word (by cases k <;> decide)
  | modifier m => cases spelled; exact .word (by cases m <;> decide)
  | datatype p => cases spelled; exact .word (by cases p <;> decide)
  | binary op => cases spelled; exact .sign (by cases op <;> decide)
  | compound op => cases spelled; exact .sign (by cases op <;> decide)
  | punctuation p => cases spelled; exact .sign (by cases p <;> decide)
  | assign | increment | decrement | bang | tilde => cases spelled; exact .sign (by decide)
  | literal l =>
      cases l with
      | null | yes | no => cases spelled; exact .word (by decide)
      | bit => exact .number (Or.inl (Or.inl (Or.inl (Or.inl spelled))))
      | int => exact .number (Or.inl (Or.inl (Or.inl (Or.inr spelled))))
      | long => exact .number (Or.inl (Or.inl (Or.inr spelled)))
      | double => exact .number (Or.inl (Or.inr spelled))
      | float => exact .number (Or.inr spelled)
      | char => exact .char spelled
      | string => exact .string spelled

theorem spellings_of_sign (member : (cs, kind) ∈ signSpellings) : kind.spellings = {cs} := by
  have checked : signs.all (fun kind => !kind.isLiteral && kind ≠ .identifier) = true := by decide
  obtain ⟨_, inside, same⟩ := List.mem_map.mp member
  cases same
  have plain := List.all_eq_true.mp checked kind inside
  cases kind with
  | literal l => cases plain
  | identifier => cases plain
  | _ => rfl

theorem head_of_number (number : cs ∈ numberShape) : ∃ c rest, cs = c :: rest ∧ c.isDigit = true := by
  have run {language : Language Char} (member : cs ∈ digitsShape * language) :
      ∃ c rest, cs = c :: rest ∧ c.isDigit = true := by
    obtain ⟨_, run, later, -, rfl⟩ := Language.mem_mul.mp member
    obtain ⟨c, rest, rfl, digit, -⟩ := mem_oneOf_mul.mp run
    exact ⟨c, rest ++ later, rfl, digit⟩
  rcases number with (((bit | hex | int) | long) | double) | float
  · obtain ⟨c, rest, rfl, one, -⟩ := mem_oneOf_mul.mp bit
    refine ⟨c, rest, rfl, ?_⟩
    have one : c = '0' ∨ c = '1' := by simpa using one
    rcases one with rfl | rfl <;> rfl
  · obtain ⟨rest, -, rfl⟩ := mem_spelledAs_mul.mp hex
    exact ⟨'0', rest, rfl, rfl⟩
  · obtain ⟨c, rest, rfl, digit, -⟩ := mem_oneOf_mul.mp int
    exact ⟨c, rest, rfl, digit⟩
  · exact run long
  · exact run double
  · exact run float

theorem not_word_of_digit (digit : c.isDigit = true) : isWordStart c = false := by
  have low : c.toNat < 65 := by
    simp only [Char.isDigit, Bool.and_eq_true, decide_eq_true_eq, UInt32.le_iff_toNat_le] at digit
    exact Nat.lt_of_le_of_lt digit.2 (by decide)
  have high : isWordStart c = true → 65 ≤ c.toNat := by
    have letters : isWordStart c = (decide (c.val ≥ 65 ∧ c.val ≤ 90) ||
        decide (c.val ≥ 97) && decide (c.val ≤ 122) || decide (c = '_')) := rfl
    intro start
    simp only [letters, Bool.or_eq_true, Bool.and_eq_true, decide_eq_true_eq, ge_iff_le,
      UInt32.le_iff_toNat_le] at start
    rcases start with (upper | lower) | rfl
    · exact upper.1
    · exact Nat.le_trans (by decide) lower.1
    · decide
  exact Bool.eq_false_iff.mpr fun start => Nat.not_le.mpr low (high start)

/-- What the first character of a token tells about it. -/
inductive HeadClass where
  | word | digit | single | double | other
  deriving DecidableEq

def headClass (c : Char) : HeadClass :=
  if isWordStart c then .word
  else if c.isDigit then .digit
  else if c = '\'' then .single
  else if c = '"' then .double
  else .other

theorem Shape.of_head (shape : Shape kind (c :: rest)) :
    match headClass c with
    | .word => c :: rest ∈ nameShape ∧
        (kind = .identifier ∨ ∃ word, (word, kind) ∈ wordKinds ∧ c :: rest = word.toList)
    | .digit => c :: rest ∈ numberShape
    | .single => c :: rest ∈ TokenKind.spellings (.literal .char)
    | .double => c :: rest ∈ TokenKind.spellings (.literal .string)
    | .other => (c :: rest, kind) ∈ signSpellings := by
  have named (name : c :: rest ∈ nameShape) : headClass c = .word := by
    obtain ⟨_, _, same, start, -⟩ := mem_nameShape.mp name
    cases same
    exact if_pos start
  generalize text : c :: rest = cs at shape
  cases shape with
  | name name => subst text; rw [named name]; exact ⟨name, .inl rfl⟩
  | @word kind word member =>
      have name := (mem_wordKinds member).2.1
      rw [← text] at name
      rw [named name]
      exact ⟨text ▸ name, .inr ⟨word, member, rfl⟩⟩
  | number number =>
      obtain ⟨_, _, same, digit⟩ := head_of_number number
      rw [same] at text
      cases text
      have headed : headClass c = .digit := by simp [headClass, not_word_of_digit digit, digit]
      rw [headed]
      exact number
  | char char =>
      obtain ⟨_, _, same⟩ := mem_charShape.mp char
      rw [same] at text
      cases text
      exact char
  | string string =>
      obtain ⟨_, _, same⟩ := mem_stringShape.mp string
      rw [same] at text
      cases text
      exact string
  | sign member =>
      have checked : signSpellings.all (fun s => s.1.head?.any (headClass · = .other)) = true := by decide
      have headed := List.all_eq_true.mp checked _ member
      subst text
      have headed : headClass c = .other := by simpa using headed
      rw [headed]
      exact member

end Shapes

-- A comment goes on to the first star and slash.
theorem commentLength_closes (cs : List Char) :
    match commentLength cs with
    | some length => ∃ body rest, cs = body ++ '*' :: '/' :: rest ∧ ¬['*', '/'] <:+: body ++ ['*'] ∧
        length = body.length + 2
    | none => ¬['*', '/'] <:+: cs := by
  fun_induction commentLength cs with
  | case1 => simp
  | case2 rest => exact ⟨[], rest, rfl, by decide, rfl⟩
  | case3 c cs unclosed ih =>
      -- The end of the comment does not start at `c`, whatever `cs` starts like.
      have past {tail : List Char} (alike : tail.head? = cs.head?) : ¬['*', '/'] <+: c :: tail := by
        rintro ⟨rest, same⟩
        cases same
        obtain ⟨rest, same⟩ := List.head?_eq_some_iff.mp alike.symm
        exact unclosed rest rfl same
      cases closed : commentLength cs with
      | none =>
          rw [closed] at ih
          exact fun inside => (List.infix_cons_iff.mp inside).elim (past rfl) ih
      | some length =>
          rw [closed] at ih
          obtain ⟨body, rest, rfl, first, rfl⟩ := ih
          refine ⟨c :: body, rest, rfl, fun inside => ?_, rfl⟩
          refine (List.infix_cons_iff.mp inside).elim (past ?_) first
          cases body <;> rfl

/-- What stands between tokens: blanks, a comment through the end of its line, or one through the
first star and slash. `rest` comes behind it. -/
inductive TriviaItem : List Char → List Char → Prop
  | blanks {blanks : List Char} (rest : List Char) : blanks ≠ [] → (∀ c ∈ blanks, isBlank c = true) →
      TriviaItem blanks rest
  | line {body rest : List Char} : '\n' ∉ body → (∀ c ∈ rest.head?, c = '\n') →
      TriviaItem ('/' :: '/' :: body) rest
  | block {body : List Char} (rest : List Char) : ¬['*', '/'] <:+: body ++ ['*'] →
      TriviaItem ('/' :: '*' :: (body ++ ['*', '/'])) rest

/-- A token at the head of a text, such that none is longer there. Only what is no word of the
language is a name. -/
structure Longest (kind : TokenKind) (lexeme rest : List Char) : Prop where
  spelled : lexeme ∈ kind.spellings
  longest : ∀ other longer, longer ∈ TokenKind.spellings other → longer <+: lexeme ++ rest →
    longer.length ≤ lexeme.length
  plain : kind = .identifier → ∀ other, lexeme ∈ TokenKind.spellings other → other = .identifier

/-- Neither a token nor trivia stand at the head of the text. -/
structure Unreadable (cs : List Char) : Prop where
  token : ∀ kind lexeme, lexeme ∈ TokenKind.spellings kind → ¬lexeme <+: cs
  trivia : ∀ item rest, TriviaItem item rest → cs ≠ item ++ rest

-- What the scanner may say of a text.
def Lexeme.Correct (cs : List Char) : Lexeme → Prop
  | .token kind length => ∃ lexeme rest, cs = lexeme ++ rest ∧ lexeme.length = length ∧
      Longest kind lexeme rest
  | .blank length => ∃ item rest, cs = item ++ rest ∧ item.length = length ∧ TriviaItem item rest
  | .unterminatedComment => ∃ comment, cs = '/' :: '*' :: comment ∧ ¬['*', '/'] <:+: comment
  | .unexpected _ => Unreadable cs

theorem ne_nil_of_spelled (spelled : cs ∈ kind.spellings) : cs ≠ [] := by
  cases shape_of_spelled spelled with
  | name name => obtain ⟨_, _, rfl, -⟩ := mem_nameShape.mp name; exact nofun
  | word member =>
      obtain ⟨_, _, same, -⟩ := mem_nameShape.mp (mem_wordKinds member).2.1
      rw [same]
      exact nofun
  | number number => obtain ⟨_, _, rfl, -⟩ := head_of_number number; exact nofun
  | char char => obtain ⟨_, _, rfl⟩ := mem_charShape.mp char; exact nofun
  | string string => obtain ⟨_, _, rfl⟩ := mem_stringShape.mp string; exact nofun
  | sign member => exact (signSpellings_stop _ member).1

theorem TriviaItem.ne_nil (trivia : TriviaItem cs rest) : cs ≠ [] := by
  cases trivia with
  | blanks _ nonempty => exact nonempty
  | line => exact nofun
  | block => exact nofun

theorem cons_of_append {item after : List Char} (nonempty : item ≠ []) (text : c :: rest = item ++ after) :
    ∃ later, item = c :: later ∧ rest = later ++ after := by
  obtain ⟨_, later, rfl⟩ := List.exists_cons_of_ne_nil nonempty
  cases text
  exact ⟨later, rfl, rfl⟩

theorem longest_of_starts (starts : Starts cs kind length) (unnamed : kind ≠ .identifier)
    (reaches : ∀ other longer after, longer ∈ TokenKind.spellings other → cs = longer ++ after →
      longer.length ≤ length) :
    (Lexeme.token kind length).Correct cs := by
  obtain ⟨lexeme, after, rfl, rfl, spelled⟩ := starts
  refine ⟨lexeme, after, rfl, rfl, spelled, ?_, fun named => absurd named unnamed⟩
  rintro other longer inside ⟨more, text⟩
  exact reaches other longer more inside text.symm

theorem wordKind_spelled {word : String} (name : word.toList ∈ nameShape) :
    word.toList ∈ (wordKind word).spellings := by
  unfold wordKind
  cases found : wordKinds.lookup word with
  | none => exact name
  | some kind =>
      obtain ⟨before, after, entries, -⟩ := List.lookup_eq_some_iff.mp found
      have member : (word, kind) ∈ wordKinds := by rw [entries]; simp
      show _ ∈ kind.spellings
      rw [(mem_wordKinds member).1]
      rfl

-- A word of the language is no name.
theorem wordKind_reserved {word : String} (member : (word, kind) ∈ wordKinds) :
    wordKind word ≠ .identifier := by
  unfold wordKind
  cases found : wordKinds.lookup word with
  | none => simpa using List.lookup_eq_none_iff.mp found _ member
  | some other =>
      obtain ⟨before, after, entries, -⟩ := List.lookup_eq_some_iff.mp found
      have member : (word, other) ∈ wordKinds := by rw [entries]; simp
      exact (mem_wordKinds member).2.2

theorem scan_word (start : isWordStart c = true) :
    ∃ lexeme after, c :: rest = lexeme ++ after ∧ lexeme.length = 1 + wordLength rest ∧
      Longest (wordKind (String.ofList lexeme)) lexeme after := by
  have within := wordLength_le rest
  have name : c :: rest.take (wordLength rest) ∈ nameShape :=
    mem_nameShape.mpr ⟨c, _, rfl, start, by rw [wordLength_take, List.length_take_of_le within]⟩
  have size : (c :: rest.take (wordLength rest)).length = 1 + wordLength rest := by
    rw [List.length_cons, List.length_take_of_le within, Nat.add_comm]
  have text : c :: rest = c :: rest.take (wordLength rest) ++ rest.drop (wordLength rest) := by
    rw [List.cons_append, List.take_append_drop]
  have word : headClass c = .word := if_pos start
  refine ⟨c :: rest.take (wordLength rest), rest.drop (wordLength rest), text, size, ?_, ?_, ?_⟩
  · have spelled := @wordKind_spelled (String.ofList (c :: rest.take (wordLength rest)))
    rw [String.toList_ofList] at spelled
    exact spelled name
  · rintro other longer spelled ⟨after, same⟩
    rw [← text] at same
    obtain ⟨later, rfl, rfl⟩ := cons_of_append (ne_nil_of_spelled spelled) same.symm
    have shape := (shape_of_spelled spelled).of_head
    rw [word] at shape
    obtain ⟨_, _, same, -, whole⟩ := mem_nameShape.mp shape.1
    cases same
    rw [size, List.length_cons, Nat.add_comm]
    exact Nat.add_le_add_left (wordLength_append whole after) 1
  · intro named other spelled
    have shape := (shape_of_spelled spelled).of_head
    rw [word] at shape
    rcases shape.2 with name | ⟨word, member, same⟩
    · exact name
    · rw [same, String.ofList_toList] at named
      exact absurd named (wordKind_reserved member)

theorem scan_number (digit : c.isDigit = true) : (scanNumber (c :: rest)).Correct (c :: rest) := by
  obtain ⟨kind, length, scanned⟩ := scanAfter_token ((c :: rest).takeWhile Char.isDigit)
    ((c :: rest).drop (digitsLength (c :: rest)))
  rw [← scanNumber_eq] at scanned
  rw [scanned]
  have number : headClass c = .digit := by simp [headClass, not_word_of_digit digit, digit]
  refine longest_of_starts (scanNumber_starts digit scanned)
    (fun named => scanNumber_unnamed _ (named ▸ scanned)) ?_
  intro other longer after spelled text
  obtain ⟨later, rfl, rfl⟩ := cons_of_append (ne_nil_of_spelled spelled) text
  have shape := (shape_of_spelled spelled).of_head
  rw [number] at shape
  obtain ⟨_, reached, again, least⟩ := scanNumber_reaches shape after
  rw [List.cons_append, scanned] at again
  cases again
  exact least

theorem trivia_head {item after : List Char} (trivia : TriviaItem item after)
    (text : c :: rest = item ++ after) :
    isBlank c = true ∨ c = '/' ∧ (rest.head? = some '/' ∨ rest.head? = some '*') := by
  obtain ⟨later, rfl, rfl⟩ := cons_of_append trivia.ne_nil text
  cases trivia with
  | blanks _ _ all => exact .inl (all c List.mem_cons_self)
  | line => exact .inr ⟨rfl, .inl rfl⟩
  | block => exact .inr ⟨rfl, .inr rfl⟩

theorem unreadable_of_noToken (blank : ¬isBlank c = true) (noComment : NoComment c rest)
    (noToken : ∀ other lexeme after, lexeme ∈ TokenKind.spellings other → c :: rest ≠ lexeme ++ after) :
    Unreadable (c :: rest) where
  token := by
    rintro other lexeme spelled ⟨after, text⟩
    exact noToken other lexeme after spelled text.symm
  trivia := by
    intro item after trivia text
    rcases trivia_head trivia text with blank' | ⟨slash, line | block⟩
    · exact blank blank'
    · exact (noComment slash).1 line
    · exact (noComment slash).2 block

theorem scanChar_correct : (scanChar rest).Correct ('\'' :: rest) := by
  have reads {other : TokenKind} {lexeme after : List Char} (spelled : lexeme ∈ other.spellings)
      (text : '\'' :: rest = lexeme ++ after) : scanChar rest = .token (.literal .char) lexeme.length := by
    obtain ⟨later, rfl, rfl⟩ := cons_of_append (ne_nil_of_spelled spelled) text
    obtain ⟨item, shaped, same⟩ := mem_charShape.mp (shape_of_spelled spelled).of_head
    cases same
    have scanned := scanChar_reaches shaped after
    simpa using scanned
  have outcome : (∃ kind length, scanChar rest = .token kind length) ∨ scanChar rest = .unexpected 1 := by
    unfold scanChar
    repeat' split
    all_goals simp
  rcases outcome with ⟨kind, length, scanned⟩ | failed
  · rw [scanned]
    refine longest_of_starts (scanChar_starts scanned) (fun named => scanChar_unnamed _ (named ▸ scanned)) ?_
    intro other longer after spelled text
    have again := reads spelled text
    rw [scanned] at again
    cases again
    exact Nat.le_refl _
  · rw [failed]
    refine unreadable_of_noToken (by decide) nofun fun other lexeme after spelled text => ?_
    have again := reads spelled text
    rw [failed] at again
    cases again

theorem scanString_correct : (scanString rest).Correct ('"' :: rest) := by
  have reads {other : TokenKind} {lexeme after : List Char} (spelled : lexeme ∈ other.spellings)
      (text : '"' :: rest = lexeme ++ after) : scanString rest = .token (.literal .string) lexeme.length := by
    obtain ⟨later, rfl, rfl⟩ := cons_of_append (ne_nil_of_spelled spelled) text
    obtain ⟨items, shaped, same⟩ := mem_stringShape.mp (shape_of_spelled spelled).of_head
    cases same
    have scanned := scanString_reaches shaped after
    simpa using scanned
  have outcome : (∃ kind length, scanString rest = .token kind length) ∨
      ∃ length, scanString rest = .unexpected length := by
    unfold scanString
    dsimp only
    split
    all_goals simp
  rcases outcome with ⟨kind, length, scanned⟩ | ⟨length, failed⟩
  · rw [scanned]
    refine longest_of_starts (scanString_starts scanned) (fun named => scanString_unnamed _ (named ▸ scanned)) ?_
    intro other longer after spelled text
    have again := reads spelled text
    rw [scanned] at again
    cases again
    exact Nat.le_refl _
  · rw [failed]
    refine unreadable_of_noToken (by decide) nofun fun other lexeme after spelled text => ?_
    have again := reads spelled text
    rw [failed] at again
    cases again

theorem scanSign_correct (sign : SignAt c rest) : (scanSign (c :: rest)).Correct (c :: rest) := by
  have other : headClass c = .other := by
    simp [headClass, sign.word, sign.digit, sign.single, sign.double]
  have reads {kind : TokenKind} {lexeme after : List Char} (spelled : lexeme ∈ kind.spellings)
      (text : c :: rest = lexeme ++ after) :
      ∃ kind length, scanSign (c :: rest) = .token kind length ∧ lexeme.length ≤ length := by
    obtain ⟨later, rfl, rfl⟩ := cons_of_append (ne_nil_of_spelled spelled) text
    have shape := (shape_of_spelled spelled).of_head
    rw [other] at shape
    exact scanSign_reaches shape ⟨after, rfl⟩
  have outcome : (∃ kind length, scanSign (c :: rest) = .token kind length) ∨
      scanSign (c :: rest) = .unexpected 1 := by
    unfold scanSign
    split
    all_goals simp
  rcases outcome with ⟨kind, length, scanned⟩ | failed
  · obtain ⟨spelling, member, ⟨after, text⟩, count⟩ := scanSign_starts scanned
    have starts : Starts (c :: rest) kind length :=
      ⟨spelling, after, text.symm, count, by rw [spellings_of_sign member]; rfl⟩
    rw [scanned]
    refine longest_of_starts starts (fun named => scanSign_unnamed _ (named ▸ scanned)) ?_
    intro other longer after spelled text
    obtain ⟨_, _, again, least⟩ := reads spelled text
    rw [scanned] at again
    cases again
    exact least
  · rw [failed]
    refine unreadable_of_noToken sign.blank sign.noComment fun other lexeme after spelled text => ?_
    obtain ⟨_, _, again, -⟩ := reads spelled text
    rw [failed] at again
    cases again

theorem line_correct (comment : List Char) :
    (Lexeme.blank (2 + (comment.takeWhile (· ≠ '\n')).length)).Correct ('/' :: '/' :: comment) := by
  refine ⟨'/' :: '/' :: comment.takeWhile (· ≠ '\n'), comment.dropWhile (· ≠ '\n'), ?_, ?_,
    .line (fun inside => ?_) fun c first => ?_⟩
  · rw [List.cons_append, List.cons_append, List.takeWhile_append_dropWhile]
  · simp only [List.length_cons]
    omega
  · simpa using List.all_eq_true.mp List.all_takeWhile _ inside
  · have ends := List.head?_dropWhile_not (fun c : Char => decide (c ≠ '\n')) comment
    rw [first] at ends
    simpa using ends

theorem scan_correct (c : Char) (rest : List Char) : (Lexeme.scan c rest).Correct (c :: rest) := by
  unfold Lexeme.scan
  split
  next blank =>
    refine ⟨c :: rest.takeWhile isBlank, rest.dropWhile isBlank, ?_, ?_, ?_⟩
    · rw [List.cons_append, List.takeWhile_append_dropWhile]
    · rw [List.length_cons, Nat.add_comm]
    · exact .blanks _ nofun (List.forall_mem_cons.mpr ⟨blank, fun d member =>
        List.all_eq_true.mp List.all_takeWhile d member⟩)
  next blank =>
  split
  next start =>
    obtain ⟨lexeme, after, text, size, longest⟩ := @scan_word c rest start
    have same : (c :: rest).take (1 + wordLength rest) = lexeme := by rw [text, ← size, List.take_left]
    dsimp only
    rw [same]
    exact ⟨lexeme, after, text, size, longest⟩
  next word =>
  split
  next digit => exact scan_number digit
  next digit =>
  split
  next single => exact single ▸ scanChar_correct
  next single =>
  split
  next double => exact double ▸ scanString_correct
  next double =>
  split
  next comment => exact line_correct comment
  next comment =>
    have closes := commentLength_closes comment
    cases closed : commentLength comment with
    | none =>
        rw [closed] at closes
        exact ⟨comment, rfl, closes⟩
    | some length =>
        rw [closed] at closes
        obtain ⟨body, after, rfl, first, rfl⟩ := closes
        exact ⟨'/' :: '*' :: (body ++ ['*', '/']), after, by simp, by simp; omega, .block after first⟩
  next line block =>
    refine scanSign_correct ⟨blank, word, digit, single, double, ?_⟩
    rintro rfl
    refine ⟨fun same => ?_, fun same => ?_⟩
    · obtain ⟨comment, same⟩ := List.head?_eq_some_iff.mp same
      exact line comment rfl same
    · obtain ⟨comment, same⟩ := List.head?_eq_some_iff.mp same
      exact block comment rfl same

end MiLanguage
