import Mathlib.Computability.Language
import MiLanguage.Proofs.Lexing.Scan

set_option autoImplicit false

open Computability

namespace MiLanguage

-- One character of a class.
def oneOf (p : Char → Bool) : Language Char := {cs | ∃ c, p c = true ∧ cs = [c]}

def spelledAs (text : String) : Language Char := {text.toList}

def wordShape : Language Char := oneOf isWordStart * (oneOf isWordChar)∗

-- Words with a dot between each and the next.
def nameShape : Language Char := wordShape * (spelledAs "." * wordShape)∗

def digitsShape : Language Char := oneOf Char.isDigit * (oneOf Char.isDigit)∗

def hexShape : Language Char :=
  spelledAs "0" * (oneOf (fun c => c = 'x' || c = 'X') * (oneOf isHexDigit * (oneOf isHexDigit)∗))

-- What may be escaped: anything but a newline.
def escapeShape : Language Char := spelledAs "\\" * oneOf (· ≠ '\n')

def quotedShape (quote : Char) : Language Char :=
  oneOf (fun c => c ≠ quote && c ≠ '\\') + escapeShape

-- The texts that a kind of token is spelled with.
def TokenKind.spellings : TokenKind → Language Char
  | .identifier => nameShape
  | .literal .bit => oneOf (fun c => c = '0' || c = '1') * spelledAs "b"
  | .literal .int => hexShape + digitsShape
  | .literal .long => digitsShape * oneOf (fun c => c = 'l' || c = 'L')
  | .literal .double => digitsShape * (spelledAs "." * digitsShape)
  | .literal .float =>
      digitsShape * ((1 + spelledAs "." * digitsShape) * oneOf (fun c => c = 'f' || c = 'F'))
  | .literal .char => spelledAs "'" * (quotedShape '\'' * spelledAs "'")
  | .literal .string => spelledAs "\"" * ((quotedShape '"')∗ * spelledAs "\"")
  | kind => spelledAs kind.text

section Runs

variable {p : Char → Bool} {cs : List Char}

theorem mem_oneOf_star : cs ∈ (oneOf p)∗ ↔ ∀ c ∈ cs, p c = true := by
  rw [Language.mem_kstar]
  constructor
  · rintro ⟨items, rfl, all⟩ c member
    obtain ⟨item, inside, member⟩ := List.mem_flatten.mp member
    obtain ⟨d, holds, rfl⟩ := all item inside
    rwa [List.mem_singleton.mp member]
  · intro all
    refine ⟨cs.map ([·]), by simp [← List.flatMap_def], fun item member => ?_⟩
    obtain ⟨c, inside, rfl⟩ := List.mem_map.mp member
    exact ⟨c, all c inside, rfl⟩

theorem mem_oneOf_mul {language : Language Char} :
    cs ∈ oneOf p * language ↔ ∃ c rest, cs = c :: rest ∧ p c = true ∧ rest ∈ language := by
  rw [Language.mem_mul]
  constructor
  · rintro ⟨_, ⟨c, holds, rfl⟩, rest, member, rfl⟩
    exact ⟨c, rest, rfl, holds, member⟩
  · rintro ⟨c, rest, rfl, holds, member⟩
    exact ⟨[c], ⟨c, holds, rfl⟩, rest, member, rfl⟩

theorem mem_spelledAs_mul {text : String} {language : Language Char} :
    cs ∈ spelledAs text * language ↔ ∃ rest ∈ language, cs = text.toList ++ rest := by
  rw [Language.mem_mul]
  constructor
  · rintro ⟨_, rfl, rest, member, rfl⟩
    exact ⟨rest, member, rfl⟩
  · rintro ⟨rest, member, rfl⟩
    exact ⟨_, rfl, rest, member, rfl⟩

theorem mem_run : cs ∈ oneOf p * (oneOf p)∗ ↔ cs ≠ [] ∧ ∀ c ∈ cs, p c = true := by
  rw [mem_oneOf_mul]
  constructor
  · rintro ⟨c, rest, rfl, holds, member⟩
    exact ⟨nofun, List.forall_mem_cons.mpr ⟨holds, mem_oneOf_star.mp member⟩⟩
  · rintro ⟨nonempty, all⟩
    obtain ⟨c, rest, rfl⟩ := List.exists_cons_of_ne_nil nonempty
    obtain ⟨holds, all⟩ := List.forall_mem_cons.mp all
    exact ⟨c, rest, rfl, holds, mem_oneOf_star.mpr all⟩

theorem mem_takeWhile_run {c : Char} {rest : List Char} (holds : p c = true) :
    (c :: rest).takeWhile p ∈ oneOf p * (oneOf p)∗ := by
  refine mem_run.mpr ⟨?_, fun d member => List.all_eq_true.mp (List.all_takeWhile) d member⟩
  rw [List.takeWhile_cons_of_pos holds]
  exact nofun

end Runs

end MiLanguage
