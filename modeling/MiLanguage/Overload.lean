import MiLanguage.Declaration

set_option autoImplicit false

namespace MiLanguage

inductive OverloadError where
  | noMatch
  -- So many candidates match equally well.
  | ambiguous (count : Nat)
  deriving DecidableEq, Repr

namespace Overload

-- One parameter for each argument, and each argument accepted by its parameter.
def matchesWith (accepts : Datatype → Datatype → Bool) : List Datatype → List Datatype → Bool
  | [], [] => true
  | a :: args, p :: params => accepts a p && matchesWith accepts args params
  | _, _ => false

def matching (accepts : Datatype → Datatype → Bool) (candidates : List FunctionDefinition)
    (args : List Datatype) : List FunctionDefinition :=
  candidates.filter fun f => matchesWith accepts args f.paramTypes

def single : List FunctionDefinition → Except OverloadError FunctionDefinition
  | [] => .error .noMatch
  | [f] => .ok f
  | fs => .error (.ambiguous fs.length)

-- Candidates that take the arguments as they are go before those that need a promotion.
def decidingTier (candidates : List FunctionDefinition) (args : List Datatype) :
    List FunctionDefinition :=
  match matching Datatype.exact candidates args with
  | [] => matching Datatype.assignable candidates args
  | exact => exact

-- The one candidate that a call with these argument types means.
def select (candidates : List FunctionDefinition) (args : List Datatype) :
    Except OverloadError FunctionDefinition :=
  single (decidingTier candidates args)

theorem mem_matching {accepts : Datatype → Datatype → Bool} {candidates : List FunctionDefinition}
    {args : List Datatype} {f : FunctionDefinition} :
    f ∈ matching accepts candidates args ↔
      f ∈ candidates ∧ matchesWith accepts args f.paramTypes = true := by
  simp [matching]

end Overload

end MiLanguage
