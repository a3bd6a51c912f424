import MiLanguage.Statement.Basic

set_option autoImplicit false

namespace MiLanguage

namespace Checked

variable {α β : Type}

-- A check passes where its first part does and the rest does with what that part gives.
@[simp] theorem bind_eq_ok (x : Checked α) (f : α → Checked β) (b : β) :
    (x >>= f) = .ok b ↔ ∃ a, x = .ok a ∧ f a = .ok b := by
  cases x <;> simp [Bind.bind, Except.bind]

theorem ok_bind (a : α) (f : α → Checked β) : ((.ok a : Checked α) >>= f) = f a := rfl

@[simp] theorem pure_eq_ok (a b : α) : (pure a : Checked α) = .ok b ↔ a = b := by
  simp [Pure.pure, Except.pure]

@[simp] theorem blame_eq_ok (fault : Fault) (place : Token) (a : α) :
    blame fault place = .ok a ↔ False := by
  simp [blame]

@[simp] theorem require_eq_ok (holds : Bool) (fault : Fault) (place : Token) (done : Unit) :
    require holds fault place = .ok done ↔ holds = true := by
  cases holds <;> simp [require, blame]

end Checked

@[simp] theorem Token.is_iff (t : Token) (kind : TokenKind) : t.is kind = true ↔ t.kind = kind := by
  simp [Token.is]

section Ends

variable {tokens : List Token} {place : String}

theorem dropLastOf_eq_ok {kind : TokenKind} {first : Token} {front : List Token}
    (dropped : dropLastOf kind first tokens place = .ok front) :
    (tokens.getLast?.getD first).kind = kind ∧ front = tokens.dropLast := by
  simp only [dropLastOf] at dropped
  split at dropped
  next last =>
    cases dropped
    exact ⟨by simpa using last, rfl⟩
  next => simp at dropped

theorem declaredName_eq_ok {token : Option Token} {before name : Token}
    (declared : declaredName token before place = .ok name) :
    token = some name ∧ name.kind = .identifier ∧ isDotted name.lexeme = false := by
  unfold declaredName at declared
  split at declared
  next => simp at declared
  next t =>
    split at declared
    next => simp at declared
    next identifier =>
      split at declared
      next => simp at declared
      next plain =>
        cases declared
        exact ⟨rfl, by simpa using identifier, by simpa using plain⟩

theorem requireEnd_eq_ok {last : Token} (ends : requireEnd tokens last place = .ok ()) :
    ∃ t, tokens = [t] ∧ t.kind = .semicolon := by
  unfold requireEnd at ends
  split at ends
  next => simp at ends
  next t =>
    rw [require_eq_ok_iff, Token.is_iff] at ends
    exact ⟨t, rfl, ends⟩
  next => simp at ends

theorem requireBrace_eq_ok {before : Token} (brace : requireBrace before tokens place = .ok ()) :
    ∃ t, tokens = [t] ∧ t.kind = .leftBrace := by
  unfold requireBrace at brace
  split at brace
  next => simp at brace
  next t =>
    rw [require_eq_ok_iff, Token.is_iff] at brace
    exact ⟨t, rfl, brace⟩
  next => simp at brace

end Ends

end MiLanguage
