set_option autoImplicit false

namespace MiLanguage

def isHexDigit (c : Char) : Bool :=
  c.isDigit || ('a' ≤ c && c ≤ 'f') || ('A' ≤ c && c ≤ 'F')

def digitValue (c : Char) : Nat :=
  if c.isDigit then c.toNat - 48 else c.toLower.toNat - 87

-- The number that the digits spell, the first one weighing most.
def digitsValue (base : Nat) (cs : List Char) : Nat :=
  cs.foldl (fun n c => n * base + digitValue c) 0

-- How many decimal digits a number is written with.
def digitCount (n : Nat) : Nat := (Nat.toDigits 10 n).length

@[simp] theorem digitsValue_nil (base : Nat) : digitsValue base [] = 0 := rfl

theorem digitsValue_concat (base : Nat) (cs : List Char) (c : Char) :
    digitsValue base (cs ++ [c]) = digitsValue base cs * base + digitValue c := by
  simp [digitsValue]

end MiLanguage
