set_option autoImplicit false

namespace MiLanguage

/-- A place in a text. Lines and columns count from one, columns in UTF-8 bytes. -/
structure Position where
  line : Nat
  column : Nat
  deriving DecidableEq, Repr

def utf8Length : List Char → Nat
  | [] => 0
  | c :: cs => c.utf8Size + utf8Length cs

theorem utf8Length_append (cs ds : List Char) :
    utf8Length (cs ++ ds) = utf8Length cs + utf8Length ds := by
  induction cs with
  | nil => simp [utf8Length]
  | cons c cs ih => simp [utf8Length, ih, Nat.add_assoc]

-- The byte offset just after each newline of a text that starts at `offset`.
def lineBreaks (offset : Nat) : List Char → List Nat
  | [] => []
  | c :: cs =>
      if c = '\n' then (offset + c.utf8Size) :: lineBreaks (offset + c.utf8Size) cs
      else lineBreaks (offset + c.utf8Size) cs

-- `line` starts at `start`; the last line start that is not after `offset` gives the line.
def locate (offset line start : Nat) : List Nat → Position
  | [] => ⟨line, offset - start + 1⟩
  | next :: later =>
      if next ≤ offset then locate offset (line + 1) next later else ⟨line, offset - start + 1⟩

def Position.ofOffset (text : String) (offset : Nat) : Position :=
  locate offset 1 0 (lineBreaks 0 text.toList)

-- A newline at the very end starts no line of its own, and an empty text is one line.
def lineCount (text : String) : Nat :=
  let chars := text.toList
  let unfinished := if chars.getLast?.all (· = '\n') then 0 else 1
  max 1 (chars.count '\n' + unfinished)

@[simp] theorem lineBreaks_nil (offset : Nat) : lineBreaks offset [] = [] := rfl

end MiLanguage
