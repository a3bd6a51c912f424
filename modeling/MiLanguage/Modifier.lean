set_option autoImplicit false

namespace MiLanguage

inductive Modifier where
  | pub | priv | own | const | mut | nullable | nat
  deriving DecidableEq, Repr

inductive Visibility where
  | unrestricted | pub | priv | own
  deriving DecidableEq, Repr

namespace Modifier

def keyword : Modifier → String
  | .pub => "pub"
  | .priv => "priv"
  | .own => "own"
  | .const => "const"
  | .mut => "mut"
  | .nullable => "nullable"
  | .nat => "nat"

def isVisibility : Modifier → Bool
  | .pub | .priv | .own => true
  | _ => false

def isMutability : Modifier → Bool
  | .const | .mut => true
  | _ => false

def conflicts (a b : Modifier) : Bool :=
  a = b || (a.isVisibility && b.isVisibility) || (a.isMutability && b.isMutability)

theorem conflicts_comm (a b : Modifier) : a.conflicts b = b.conflicts a := by
  cases a <;> cases b <;> rfl

@[simp] theorem conflicts_self (a : Modifier) : a.conflicts a = true := by
  simp [conflicts]

end Modifier

/-- Modifiers in the order they were written, no two of them in conflict. -/
structure Modifiers where
  toList : List Modifier := []
  conflictFree : toList.Pairwise (fun a b => a.conflicts b = false) := by exact List.Pairwise.nil
  deriving DecidableEq

namespace Modifiers

def empty : Modifiers := {}

instance : Inhabited Modifiers := ⟨empty⟩

-- Fails with the first modifier already present that conflicts with `m`.
def insert (ms : Modifiers) (m : Modifier) : Except Modifier Modifiers :=
  match h : ms.toList.find? (·.conflicts m) with
  | some present => .error present
  | none => .ok
      { toList := ms.toList ++ [m]
        conflictFree := by
          simp only [List.pairwise_append, ms.conflictFree, List.pairwise_singleton, true_and]
          intro a ha b hb
          rw [List.mem_singleton] at hb
          have := List.find?_eq_none.mp h a ha
          simp_all }

def contains (ms : Modifiers) (m : Modifier) : Bool := ms.toList.contains m

def isEmpty (ms : Modifiers) : Bool := ms.toList.isEmpty

def visibility (ms : Modifiers) : Visibility :=
  if ms.contains .priv then .priv
  else if ms.contains .own then .own
  else if ms.contains .pub then .pub
  else .unrestricted

def isNullable (ms : Modifiers) : Bool := ms.contains .nullable
def isNative (ms : Modifiers) : Bool := ms.contains .nat
def isMutable (ms : Modifiers) : Bool := ms.contains .mut
def isConst (ms : Modifiers) : Bool := ms.contains .const

def firstMutability (ms : Modifiers) : Option Modifier := ms.toList.find? (·.isMutability)
def firstVisibility (ms : Modifiers) : Option Modifier := ms.toList.find? (·.isVisibility)

theorem toList_insert {ms ms' : Modifiers} {m : Modifier} (h : ms.insert m = .ok ms') :
    ms'.toList = ms.toList ++ [m] := by
  unfold insert at h
  split at h
  · cases h
  · cases h; rfl

end Modifiers

end MiLanguage
