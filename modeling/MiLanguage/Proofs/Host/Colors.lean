import Mathlib.Data.List.Basic
import MiLanguage.Host.Standard
import MiLanguage.Text.Digits
import MiLanguage.Token.Stream

set_option autoImplicit false

namespace MiLanguage

section Digits

variable {c : Char}

theorem toNat_of_isHexDigit (digit : isHexDigit c = true) : c.toNat < 103 := by
  have le (a b : Char) : a ≤ b ↔ a.toNat ≤ b.toNat := Iff.rfl
  simp [isHexDigit, Char.isDigit, le, UInt32.le_iff_toNat_le] at digit
  omega

theorem digitValue_lt (digit : isHexDigit c = true) : digitValue c < 16 := by
  have small : ∀ n < 103, isHexDigit (Char.ofNat n) = true → digitValue (Char.ofNat n) < 16 := by
    decide
  have found := small c.toNat (toNat_of_isHexDigit digit)
  rw [Char.ofNat_toNat] at found
  exact found digit

end Digits

namespace Color

-- A byte in hexadecimal, as the host reads one: digits, perhaps behind a plus sign.
def ReadsByte (text : List Char) (n : Nat) : Prop :=
  ∃ digits, digits ≠ [] ∧ (text = digits ∨ text = '+' :: digits) ∧
    (∀ d ∈ digits, isHexDigit d = true) ∧ n = digitsValue 16 digits

-- A text that has a color: two characters for each channel, behind any number of `#`.
def Accepts (s : String) (c : Color) : Prop :=
  ∃ hashes body, s.toList = List.replicate hashes '#' ++ body ∧ body.length = 6 ∧
    ReadsByte (body.take 2) c.red ∧ ReadsByte ((body.drop 2).take 2) c.green ∧
    ReadsByte (body.drop 4) c.blue

-- The documented way to write a color: six hexadecimal digits, two for each channel, behind at most
-- one `#`.
def Documented (s : String) (c : Color) : Prop :=
  ∃ digits, (s.toList = digits ∨ s.toList = '#' :: digits) ∧ digits.length = 6 ∧
    (∀ d ∈ digits, isHexDigit d = true) ∧
    c = ⟨digitsValue 16 (digits.take 2), digitsValue 16 ((digits.drop 2).take 2),
      digitsValue 16 (digits.drop 4)⟩

variable {a b : Char} {n : Nat} {s : String} {c : Color} {text : List Char}

theorem byte?_eq_some : byte? text = some n ↔ ReadsByte text n ∧ n < 256 := by
  unfold byte?
  simp only [Option.ite_none_right_eq_some, Option.some.injEq, Bool.and_eq_true,
    Bool.not_eq_true', List.isEmpty_eq_false_iff, List.all_eq_true, decide_eq_true_eq]
  constructor
  · rintro ⟨⟨⟨nonempty, digit⟩, small⟩, rfl⟩
    by_cases plus : text.head? = some '+'
    · rw [if_pos plus] at nonempty digit small ⊢
      obtain ⟨rest, rfl⟩ := List.head?_eq_some_iff.mp plus
      exact ⟨⟨rest, nonempty, .inr rfl, digit, rfl⟩, small⟩
    · rw [if_neg plus] at nonempty digit small ⊢
      exact ⟨⟨text, nonempty, .inl rfl, digit, rfl⟩, small⟩
  · rintro ⟨⟨digits, nonempty, rfl | rfl, digit, rfl⟩, small⟩
    · have unsigned : text.head? ≠ some '+' := by
        intro plus
        obtain ⟨rest, rfl⟩ := List.head?_eq_some_iff.mp plus
        exact absurd (digit '+' (by simp)) (by decide)
      simp only [if_neg unsigned]
      exact ⟨⟨⟨nonempty, digit⟩, small⟩, trivial⟩
    · simp only [List.head?_cons, if_true, List.tail_cons]
      exact ⟨⟨⟨nonempty, digit⟩, small⟩, trivial⟩

-- What is read as a byte starts with no `#`.
theorem ReadsByte.head (reads : ReadsByte text n) : text.head? ≠ some '#' := by
  obtain ⟨digits, nonempty, rfl | rfl, digit, -⟩ := reads
  · cases text with
    | nil => exact absurd rfl nonempty
    | cons d ds =>
        intro hash
        have found := digit d (by simp)
        rw [List.head?_cons, Option.some.injEq] at hash
        subst hash
        exact absurd found (by decide)
  · simp

theorem ReadsByte.head_of_take (reads : ReadsByte (text.take 2) n) : text.head? ≠ some '#' := by
  have head := reads.head
  rwa [List.head?_take, if_neg (by decide)] at head

theorem dropWhile_hashes {hashes : Nat} (head : text.head? ≠ some '#') :
    (List.replicate hashes '#' ++ text).dropWhile (· = '#') = text := by
  rw [List.dropWhile_append_of_pos fun d member => by
    simpa using List.eq_of_mem_replicate member]
  cases text with
  | nil => rfl
  | cons d ds =>
      have other : d ≠ '#' := by simpa using head
      simp [other]

-- Without a sign, what is read as a byte is digits and nothing else.
theorem ReadsByte.unsigned (reads : ReadsByte text n) (unsigned : '+' ∉ text) :
    (∀ d ∈ text, isHexDigit d = true) ∧ n = digitsValue 16 text := by
  obtain ⟨digits, -, rfl | rfl, digit, value⟩ := reads
  · exact ⟨digit, value⟩
  · simp at unsigned

theorem readsByte_of_digits (nonempty : text ≠ []) (digit : ∀ d ∈ text, isHexDigit d = true) :
    ReadsByte text (digitsValue 16 text) :=
  ⟨text, nonempty, .inl rfl, digit, rfl⟩

theorem not_mem_of_digits (digit : ∀ d ∈ text, isHexDigit d = true) :
    '#' ∉ text ∧ '+' ∉ text :=
  ⟨fun member => absurd (digit _ member) (by decide),
    fun member => absurd (digit _ member) (by decide)⟩

theorem documented_iff : Documented s c ↔
    Accepts s c ∧ s.toList.count '#' ≤ 1 ∧ '+' ∉ s.toList := by
  constructor
  · rintro ⟨digits, written, six, digit, rfl⟩
    have within (k : Nat) : ∀ d ∈ (digits.drop k).take 2, isHexDigit d = true :=
      fun d member => digit d (List.mem_of_mem_drop (List.mem_of_mem_take member))
    have first := readsByte_of_digits (by simp [← List.length_pos_iff, six]) (within 0)
    have second := readsByte_of_digits (by simp [six]) (within 2)
    have third := readsByte_of_digits (by simp [six]) (within 4)
    have last : (digits.drop 4).take 2 = digits.drop 4 :=
      List.take_of_length_le (by simp [six])
    rw [last] at third
    obtain ⟨hash, plus⟩ := not_mem_of_digits digit
    have hashless := List.count_eq_zero_of_not_mem hash
    rcases written with written | written
    · refine ⟨⟨0, digits, by simp [written], six, first, second, third⟩, ?_, ?_⟩
      · rw [written, hashless]
        omega
      · rwa [written]
    · refine ⟨⟨1, digits, by simp [written], six, first, second, third⟩, ?_, ?_⟩
      · simp [written, hashless]
      · rw [written]
        simpa using plus
  · rintro ⟨⟨hashes, body, written, six, first, second, third⟩, count, plus⟩
    rw [written, List.count_append, List.count_replicate_self] at count
    rw [written, List.mem_append, not_or] at plus
    have parts : body.take 2 ++ ((body.drop 2).take 2 ++ body.drop 4) = body := by
      have rest : (body.drop 2).drop 2 = body.drop 4 := by simp
      rw [← rest, List.take_append_drop, List.take_append_drop]
    rw [← parts, List.mem_append, List.mem_append, not_or, not_or] at plus
    have red := first.unsigned plus.2.1
    have green := second.unsigned plus.2.2.1
    have blue := third.unsigned plus.2.2.2
    refine ⟨body, ?_, six, ?_, ?_⟩
    · match hashes, count with
      | 0, _ => exact .inl (by simpa using written)
      | 1, _ => exact .inr (by simpa using written)
      | more + 2, count => omega
    · rw [← parts]
      intro d member
      simp only [List.mem_append] at member
      rcases member with member | member | member
      · exact red.1 d member
      · exact green.1 d member
      · exact blue.1 d member
    · rw [← red.2, ← green.2, ← blue.2]

-- Two digits come to a byte.
theorem ReadsByte.lt (reads : ReadsByte text n) (two : text.length ≤ 2) : n < 256 := by
  obtain ⟨digits, nonempty, written, digit, rfl⟩ := reads
  have short : digits.length ≤ 2 := by
    rcases written with rfl | rfl
    · exact two
    · rw [List.length_cons] at two
      omega
  match digits, short with
  | [], _ => exact absurd rfl nonempty
  | [a], _ =>
      have small := digitValue_lt (digit a (by simp))
      simp [digitsValue]
      omega
  | [a, b], _ =>
      have high := digitValue_lt (digit a (by simp))
      have low := digitValue_lt (digit b (by simp))
      simp [digitsValue]
      omega

theorem Accepts.lt (accepts : Accepts s c) : c.red < 256 ∧ c.green < 256 ∧ c.blue < 256 := by
  obtain ⟨hashes, body, -, six, first, second, third⟩ := accepts
  exact ⟨first.lt (List.length_take_le _ _), second.lt (List.length_take_le _ _),
    third.lt (by simp [six])⟩

section Slices

-- A text may be cut after any number of bytes if every character takes one.
theorem utf8Length_of_ascii (ascii : ∀ d ∈ text, d.toNat < 128) : utf8Length text = text.length := by
  induction text with
  | nil => rfl
  | cons d ds ih =>
      have one : d.utf8Size = 1 := Char.utf8Size_eq_one_iff.mpr (by
        have small := ascii d (by simp)
        rw [UInt32.le_iff_toNat_le]
        exact Nat.le_of_lt_succ small)
      have rest := ih fun e member => ascii e (by simp [member])
      rw [utf8Length, one, rest, List.length_cons, Nat.add_comm]

theorem ReadsByte.ascii (reads : ReadsByte text n) : ∀ d ∈ text, d.toNat < 128 := by
  obtain ⟨digits, -, rfl | rfl, digit, -⟩ := reads
  · exact fun d member => by have small := toNat_of_isHexDigit (digit d member); omega
  · intro d member
    rcases List.mem_cons.mp member with rfl | member
    · decide
    · have small := toNat_of_isHexDigit (digit d member)
      omega

theorem Sliceable.cut (sliceable : Sliceable text) {k : Nat} (within : k ≤ 6) :
    utf8Length (text.take k) = k := by
  obtain ⟨six, ascii⟩ := sliceable
  rw [utf8Length_of_ascii ascii] at six
  rw [utf8Length_of_ascii fun d member => ascii d (List.mem_of_mem_take member), List.length_take]
  omega

theorem Accepts.sliceable (accepts : Accepts s c) :
    Sliceable (s.toList.dropWhile (· = '#')) := by
  obtain ⟨hashes, body, written, six, first, second, third⟩ := accepts
  have ascii : ∀ d ∈ body, d.toNat < 128 := by
    have rest : (body.drop 2).drop 2 = body.drop 4 := by simp
    rw [← List.take_append_drop 2 body, ← List.take_append_drop 2 (body.drop 2), rest]
    intro d member
    simp only [List.mem_append] at member
    rcases member with member | member | member
    · exact first.ascii d member
    · exact second.ascii d member
    · exact third.ascii d member
  rw [written, dropWhile_hashes first.head_of_take]
  exact ⟨(utf8Length_of_ascii ascii).trans six, ascii⟩

end Slices

-- A body of six is cut into what the three channels are read from.
theorem ofHex?_eq_some : ofHex? s = some c ↔ Accepts s c := by
  have front : s.toList.takeWhile (· = '#') =
      List.replicate (s.toList.takeWhile (· = '#')).length '#' :=
    List.eq_replicate_of_mem fun d member => by
      simpa using List.all_eq_true.mp List.all_takeWhile d member
  have last {body : List Char} (six : body.length = 6) : (body.drop 4).take 2 = body.drop 4 :=
    List.take_of_length_le (by simp [six])
  simp only [ofHex?, Option.ite_none_right_eq_some, Option.bind_eq_bind, Option.bind_eq_some_iff,
    byte?_eq_some, Option.some.injEq]
  constructor
  · rintro ⟨sliceable, red, ⟨first, -⟩, green, ⟨second, -⟩, blue, ⟨third, -⟩, rfl⟩
    have six := (utf8Length_of_ascii sliceable.2).symm.trans sliceable.1
    rw [last six] at third
    refine ⟨(s.toList.takeWhile (· = '#')).length, _, ?_, six, first, second, third⟩
    rw [← front, List.takeWhile_append_dropWhile]
  · intro accepts
    obtain ⟨red, green, blue⟩ := accepts.lt
    refine ⟨accepts.sliceable, ?_⟩
    obtain ⟨hashes, body, written, six, first, second, third⟩ := accepts
    rw [written, dropWhile_hashes first.head_of_take]
    refine ⟨_, ⟨first, red⟩, _, ⟨second, green⟩, _, ⟨?_, blue⟩, rfl⟩
    rwa [last six]

theorem escape_ne_empty (layer : ColorLayer) (c : Color) : escape layer c ≠ "" := by
  intro empty
  have length := congrArg String.length empty
  simp [escape] at length

-- What a channel shows of an int.
theorem ofChannels_ints (r g b : Int32) :
    ofChannels [.int r, .int g, .int b] =
      ⟨min 255 r.toInt.toNat, min 255 g.toInt.toNat, min 255 b.toInt.toNat⟩ := rfl

theorem toInt_ofNat {n : Nat} (small : n < 256) : (Int32.ofNat n).toInt = n :=
  Int32.toInt_ofNat_of_lt (by omega)

theorem Accepts.ofChannels (accepts : Accepts s c) :
    ofChannels [.int (.ofNat c.red), .int (.ofNat c.green), .int (.ofNat c.blue)] = c := by
  obtain ⟨red, green, blue⟩ := accepts.lt
  rw [ofChannels_ints, toInt_ofNat red, toInt_ofNat green, toInt_ofNat blue]
  obtain ⟨r, g, b⟩ := c
  simp only [Color.mk.injEq, Int.toNat_natCast] at *
  omega

-- The nearest number that a byte can hold.
def clamp (v : Int32) : Int32 := if v < 0 then 0 else if 255 < v then 255 else v

theorem clamp_byte (v : Int32) : min 255 (clamp v).toInt.toNat = min 255 v.toInt.toNat := by
  have zero : (0 : Int32).toInt = 0 := rfl
  have full : (255 : Int32).toInt = 255 := rfl
  unfold clamp
  split
  next below =>
    rw [Int32.lt_iff_toInt_lt] at below
    omega
  next =>
    split
    next above =>
      rw [Int32.lt_iff_toInt_lt] at above
      omega
    next => rfl

end Color

-- What a class's method for boxed parameters gives back.
def Host.answer (h : Host) (className method : String) (params : List Primitive)
    (args : List HostValue) : Option HostResult :=
  ((h.find? className).bind (·.method? method (params.map .boxed))).map
    fun m => (m.action.run args).result

namespace ColorLayer

def method : ColorLayer → String
  | foreground => "color_fg"
  | background => "color_bg"

def ofText (layer : ColorLayer) (s : String) : Option HostResult :=
  Host.standard.answer "mi.std.Termion" layer.method [.string] [.string s]

def ofInts (layer : ColorLayer) (r g b : Int32) : Option HostResult :=
  Host.standard.answer "mi.std.Termion" layer.method [.int, .int, .int] [.int r, .int g, .int b]

theorem ofText_eq (layer : ColorLayer) (s : String) :
    layer.ofText s =
      some (.value (.string (((Color.ofHex? s).map (Color.escape layer)).getD ""))) := by
  cases layer <;> rfl

theorem ofInts_eq (layer : ColorLayer) (r g b : Int32) :
    layer.ofInts r g b =
      some (.value (.string ((Color.ofChannels [.int r, .int g, .int b]).escape layer))) := by
  cases layer <;> rfl

/-- The method for a text answers with an escape sequence just if the text has a color, and with
that of the color's channels. A documented spelling is a text that has a color, at most one `#` and
no plus sign. Only six bytes that are a character each are cut into channels. Numbers beyond the
range of a byte count as its bounds. -/
theorem colors_exact (layer : ColorLayer) :
    (∀ s, ∃ out, layer.ofText s = some (.value (.string out)) ∧
      (out ≠ "" ↔ ∃ c, Color.Accepts s c) ∧
      (∀ c, Color.Accepts s c →
        layer.ofInts (.ofNat c.red) (.ofNat c.green) (.ofNat c.blue) =
          some (.value (.string out))) ∧
      (∀ c, Color.Documented s c ↔
        Color.Accepts s c ∧ s.toList.count '#' ≤ 1 ∧ '+' ∉ s.toList) ∧
      (out ≠ "" → Color.Sliceable (s.toList.dropWhile (· = '#'))) ∧
      (Color.Sliceable (s.toList.dropWhile (· = '#')) →
        ∀ k ≤ 6, utf8Length ((s.toList.dropWhile (· = '#')).take k) = k)) ∧
    ∀ r g b : Int32,
      layer.ofInts r g b = layer.ofInts (Color.clamp r) (Color.clamp g) (Color.clamp b) := by
  constructor
  · intro s
    refine ⟨_, ofText_eq layer s, ?_⟩
    have colored : ((Color.ofHex? s).map (Color.escape layer)).getD "" ≠ "" ↔
        ∃ c, Color.Accepts s c := by
      simp only [← Color.ofHex?_eq_some]
      cases Color.ofHex? s with
      | none => simp
      | some c => simpa using Color.escape_ne_empty layer c
    refine ⟨colored, fun c accepts => ?_, fun _ => Color.documented_iff, fun shown => ?_,
      fun sliceable _ => sliceable.cut⟩
    · rw [ofInts_eq, accepts.ofChannels, Color.ofHex?_eq_some.mpr accepts]
      rfl
    · obtain ⟨_, accepts⟩ := colored.mp shown
      exact accepts.sliceable
  · intro r g b
    rw [ofInts_eq, ofInts_eq, Color.ofChannels_ints, Color.ofChannels_ints]
    simp only [Color.clamp_byte]

/-- Signs in place of digits, and a second `#`, are no part of the documented spelling. -/
theorem looseColors_accepted :
    ColorLayer.foreground.ofText "+1+2+3" = some (.value (.string "\x1b[38;2;1;2;3m")) ∧
      ColorLayer.foreground.ofText "##0a0b0c" = some (.value (.string "\x1b[38;2;10;11;12m")) ∧
      (¬∃ c, Color.Documented "+1+2+3" c) ∧ ¬∃ c, Color.Documented "##0a0b0c" c := by
  refine ⟨by decide +kernel, by decide +kernel, ?_, ?_⟩
  · rintro ⟨c, documented⟩
    exact (Color.documented_iff.mp documented).2.2 (by decide)
  · rintro ⟨c, documented⟩
    exact absurd (Color.documented_iff.mp documented).2.1 (by decide)

end ColorLayer

end MiLanguage
