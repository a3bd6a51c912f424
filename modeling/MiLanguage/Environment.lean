import MiLanguage.Diagnostic.Log
import MiLanguage.Scope

set_option autoImplicit false

namespace MiLanguage

/-- What the statements read so far have declared and opened. While `inLibrary` holds, the text is
the standard library's own and may declare at root level. -/
structure Environment where
  modules : ModuleTree
  scopes : ScopeStack
  inLibrary : Bool

/-- A fault and the token it is reported at. -/
structure Report where
  fault : Fault
  place : Token
  deriving DecidableEq, Repr

-- A check that reads the environment, and stops at the first fault.
abbrev Checked := Except Report

def blame {α : Type} (fault : Fault) (place : Token) : Checked α := .error ⟨fault, place⟩

def require (holds : Bool) (fault : Fault) (place : Token) : Checked Unit :=
  if holds then .ok () else blame fault place

@[simp] theorem require_eq_ok_iff (holds : Bool) (fault : Fault) (place : Token) :
    require holds fault place = .ok () ↔ holds = true := by
  cases holds <;> simp [require, blame]

end MiLanguage
