set_option autoImplicit false

namespace MiLanguage

-- The pieces of a text between its dots; a text without a dot is one piece.
def dotPieces : List Char → List (List Char)
  | [] => [[]]
  | c :: cs =>
      if c = '.' then [] :: dotPieces cs
      else match dotPieces cs with
        | [] => [[c]]
        | piece :: pieces => (c :: piece) :: pieces

-- The names between the dots of a path such as `std.io`.
def segments (path : String) : List String :=
  (dotPieces path.toList).map String.ofList

def isDotted (name : String) : Bool := name.toList.contains '.'

def joinSegments (names : List String) : String := ".".intercalate names

-- The path before the last dot and the name after it.
def splitQualified (name : String) : Option (String × String) :=
  if isDotted name then
    let names := segments name
    some (joinSegments names.dropLast, names.getLastD "")
  else none

-- The name after the last dot, or all of it.
def shortName (name : String) : String := (segments name).getLastD name

theorem dotPieces_ne_nil (cs : List Char) : dotPieces cs ≠ [] := by
  cases cs with
  | nil => simp [dotPieces]
  | cons c cs =>
      simp only [dotPieces]
      split
      · simp
      · split <;> simp

theorem segments_ne_nil (path : String) : segments path ≠ [] := by
  simp [segments, dotPieces_ne_nil]

end MiLanguage
