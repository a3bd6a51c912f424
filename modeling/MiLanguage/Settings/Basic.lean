set_option autoImplicit false

namespace MiLanguage

/-- The settings of one analysis. No more than `maxErrors` errors are recorded; zero stands for no
limit. -/
structure Settings where
  withLibrary : Bool := true
  denyWarnings : Bool := false
  maxErrors : Nat := 100
  deriving DecidableEq, Repr

end MiLanguage
