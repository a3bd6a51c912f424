import MiLanguage.Proofs.Likeness.Resolution

set_option autoImplicit false

namespace MiLanguage

variable {σ : Slack} {env other : Environment}

namespace Typed

variable (like : env.Like σ other)

include like

theorem reference_like (t : Token) :
    Alike σ.exact Eq (Typed.reference env t) (Typed.reference other t) := by
  refine (like.resolveVariable t).bind ?_
  rintro v w ⟨same, -⟩
  rw [same]
  exact .ok rfl

theorem call_like (t : Token) (args : List Typed) :
    Alike σ.exact Eq (Typed.call env t args) (Typed.call other t args) := by
  refine .of_eq ?_
  unfold Typed.call
  rw [like.resolveCall]

theorem enumMember_like (t member : Token) :
    Alike σ.exact Eq (Typed.enumMember env t member) (Typed.enumMember other t member) :=
  (like.resolveEnum t).andThen fun _ => .of_eq rfl

theorem construct_like (keyword t : Token) :
    Alike σ.exact Eq (Typed.construct env keyword t) (Typed.construct other keyword t) :=
  (like.resolveClass t).andThen fun _ => .of_eq rfl

end Typed

namespace Expression

/-- All that is read with this bound comes out alike in both runs. -/
structure Alikes (exact : Bool) (env other : Environment) (anchor : Token) (bound : Nat) :
    Prop where
  read : ∀ level tokens,
    Alike exact Eq (read env anchor bound level tokens) (read other anchor bound level tokens)
  climb : ∀ level left tokens,
    Alike exact Eq (climb env anchor bound level left tokens)
      (climb other anchor bound level left tokens)
  operand : ∀ tokens,
    Alike exact Eq (operand env anchor bound tokens) (operand other anchor bound tokens)
  arguments : ∀ tokens,
    Alike exact Eq (arguments env anchor bound tokens) (arguments other anchor bound tokens)
  argumentList : ∀ tokens,
    Alike exact Eq (argumentList env anchor bound tokens) (argumentList other anchor bound tokens)

variable {anchor : Token} {bound : Nat} (alikes : Alikes σ.exact env other anchor bound)

include alikes

theorem climb_like (level : Nat) (left : Typed) (tokens : List Token) :
    Alike σ.exact Eq (climb env anchor (bound + 1) level left tokens)
      (climb other anchor (bound + 1) level left tokens) := by
  cases tokens with
  | nil => exact .of_eq rfl
  | cons t rest =>
      simp only [climb]
      split
      · split
        · refine (alikes.read 0 rest).andThen fun yes => .after _ fun colon => ?_
          refine (alikes.read 0 colon.2).andThen fun no => ?_
          exact .after _ fun e => alikes.climb level e no.2
        · exact .of_eq rfl
      · split
        · refine (alikes.read _ rest).andThen fun right => ?_
          exact .after _ fun e => alikes.climb level e right.2
        · exact .of_eq rfl
      · exact .of_eq rfl

variable (like : env.Like σ other)

include like

theorem name_like {t : Token} (name : t.kind = .identifier) (rest : List Token) :
    Alike σ.exact Eq (operand env anchor (bound + 1) (t :: rest))
      (operand other anchor (bound + 1) (t :: rest)) := by
  cases rest with
  | nil =>
      simp only [operand, name]
      exact (Typed.reference_like like t).andThen fun _ => .of_eq rfl
  | cons next later =>
      simp only [operand, name]
      split
      · refine (alikes.arguments later).andThen fun args => .after _ fun _ => ?_
        exact (Typed.call_like like t args.1).andThen fun _ => .of_eq rfl
      · refine .after _ fun member => ?_
        exact (Typed.enumMember_like like t member.1).andThen fun _ => .of_eq rfl
      · exact (Typed.reference_like like t).andThen fun _ => .of_eq rfl

omit alikes in
theorem construct_like (keyword : Token) (tokens : List Token) :
    Alike σ.exact Eq (construct env anchor keyword tokens)
      (construct other anchor keyword tokens) := by
  refine .after _ fun named => ?_
  obtain ⟨name, rest⟩ := named
  have made (rest : List Token) : Alike σ.exact Eq
      (Typed.construct env keyword name >>= fun e => .ok (e, rest))
      (Typed.construct other keyword name >>= fun e => .ok (e, rest)) :=
    (Typed.construct_like like keyword name).andThen fun _ => .of_eq rfl
  cases rest with
  | nil => exact made []
  | cons t later =>
      simp only
      split
      · exact .after _ fun closing => made closing.2
      · exact made (t :: later)

theorem operand_like (tokens : List Token) :
    Alike σ.exact Eq (operand env anchor (bound + 1) tokens)
      (operand other anchor (bound + 1) tokens) := by
  cases tokens with
  | nil => exact .of_eq rfl
  | cons t rest =>
      have prefixed {f : Typed × List Token → Checked (Typed × List Token)} (rest : List Token) :
          Alike σ.exact Eq (operand env anchor bound rest >>= f)
            (operand other anchor bound rest >>= f) :=
        (alikes.operand rest).andThen fun _ => .of_eq rfl
      cases kind : t.kind with
      | identifier => exact name_like alikes like kind rest
      | binary op =>
          cases op with
          | sub =>
              cases rest with
              | nil => simp only [operand, kind]; exact .of_eq rfl
              | cons next later =>
                  simp only [operand, kind]
                  split
                  · exact .of_eq rfl
                  · exact prefixed (next :: later)
          | add => simp only [operand, kind]; exact prefixed rest
          | _ => simp only [operand, kind]; exact .of_eq rfl
      | increment | decrement | bang | tilde => simp only [operand, kind]; exact prefixed rest
      | datatype p =>
          simp only [operand, kind]
          split
          · exact .of_eq rfl
          · exact prefixed rest
      | punctuation p =>
          cases p with
          | leftParen =>
              simp only [operand, kind]
              exact (alikes.read 0 rest).andThen fun _ => .of_eq rfl
          | _ => simp only [operand, kind]; exact .of_eq rfl
      | keyword k =>
          cases k with
          | new => simp only [operand, kind]; exact construct_like like t rest
          | _ => simp only [operand, kind]; exact .of_eq rfl
      | _ => simp only [operand, kind]; exact .of_eq rfl

omit alikes in
theorem alikes_of_like (anchor : Token) (bound : Nat) : Alikes σ.exact env other anchor bound := by
  induction bound with
  | zero =>
      refine ⟨fun _ _ => .of_eq rfl, fun _ _ tokens => ?_, fun tokens => ?_, fun _ => .of_eq rfl,
        fun _ => .of_eq rfl⟩
      · cases tokens <;> exact .of_eq rfl
      · cases tokens <;> exact .of_eq rfl
  | succ bound ih =>
      refine ⟨fun level tokens => ?_, climb_like ih, operand_like ih like, fun tokens => ?_,
        fun tokens => ?_⟩
      · exact (ih.operand tokens).andThen fun first => ih.climb level first.1 first.2
      · simp only [arguments]
        split
        · exact .of_eq rfl
        · exact ih.argumentList tokens
      · refine (ih.read 0 tokens).andThen fun first => ?_
        obtain ⟨first, rest⟩ := first
        cases rest with
        | nil => exact .of_eq rfl
        | cons t later =>
            simp only
            split
            · exact (ih.argumentList later).andThen fun _ => .of_eq rfl
            · exact .of_eq rfl

end Expression

theorem Environment.Like.expression (like : env.Like σ other) (tokens : List Token)
    (place : Token) :
    Alike σ.exact Eq (env.expression tokens place) (other.expression tokens place) := by
  unfold Environment.expression
  cases tokens.getLast? with
  | none => exact .of_eq rfl
  | some anchor => exact ((Expression.alikes_of_like like anchor _).read 0 tokens).andThen fun _ => .of_eq rfl

end MiLanguage
