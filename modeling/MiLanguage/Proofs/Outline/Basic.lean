import MiLanguage.Proofs.Nesting.Shape

set_option autoImplicit false

namespace MiLanguage

/-- A text as its semicolons and braces cut it up: statements, and blocks behind their headers. -/
inductive Outline where
  | nil
  | statement (tokens : List Token) (rest : Outline)
  | block (header : List Token) (inner : Outline) (brace : Token) (rest : Outline)
  deriving DecidableEq, Repr

namespace Outline

-- Puts a token in front of the first statement or header.
def prepend (t : Token) : Outline → Outline
  | nil => statement [t] nil
  | statement tokens rest => statement (t :: tokens) rest
  | block header inner brace rest => block (t :: header) inner brace rest

-- The text up to the first closing brace that has no partner in it, and behind each of these
-- braces what comes next.
def read : List Token → Option (Outline × List (Token × Outline))
  | [] => some (nil, [])
  | t :: rest =>
      match read rest with
      | none => none
      | some (here, outer) =>
          match t.kind, outer with
          | .semicolon, outer => some (statement [t] here, outer)
          | .rightBrace, outer => some (nil, (t, here) :: outer)
          | .leftBrace, (brace, after) :: outer => some (block [t] here brace after, outer)
          | .leftBrace, [] => none
          | _, outer => some (here.prepend t, outer)

-- The outline of a text whose braces are balanced.
def ofTokens? (tokens : List Token) : Option Outline :=
  match read tokens with
  | some (o, []) => some o
  | _ => none

def tokens : Outline → List Token
  | nil => []
  | statement tokens rest => tokens ++ rest.tokens
  | block header inner brace rest => header ++ (inner.tokens ++ brace :: rest.tokens)

-- The tokens hold none that ends a statement.
def Plain (tokens : List Token) : Prop := ∀ t ∈ tokens, t.kind.isTerminator = false

-- Each statement ends with its semicolon, or lacks it right before a brace, and each header ends
-- with its brace.
def Formed : Outline → Prop
  | nil => True
  | statement tokens rest =>
      rest.Formed ∧
        ((∃ front last, tokens = front ++ [last] ∧ Plain front ∧ last.kind = .semicolon) ∨
          (∃ first front, tokens = first :: front ∧ Plain tokens ∧ rest = nil))
  | block header inner brace rest =>
      (∃ front last, header = front ++ [last] ∧ Plain front ∧ last.kind = .leftBrace) ∧
        inner.Formed ∧ brace.kind = .rightBrace ∧ rest.Formed

-- What follows the braces that are open before a text.
def beyond : List (Token × Outline) → List Token
  | [] => []
  | (brace, after) :: outer => brace :: (after.tokens ++ beyond outer)

variable {t : Token} {o inner rest : Outline} {text : List Token} {outer : List (Token × Outline)}

theorem Plain.cons {front : List Token} (head : t.kind.isTerminator = false)
    (plain : Plain front) : Plain (t :: front) := by
  intro u member
  rcases List.mem_cons.mp member with rfl | member
  · exact head
  · exact plain u member

@[simp] theorem tokens_prepend (t : Token) (o : Outline) : (o.prepend t).tokens = t :: o.tokens := by
  cases o <;> rfl

theorem Formed.prepend (formed : o.Formed) (plain : t.kind.isTerminator = false) :
    (o.prepend t).Formed := by
  cases o with
  | nil =>
      refine ⟨formed, .inr ⟨t, [], rfl, Plain.cons plain ?_, rfl⟩⟩
      simp [Plain]
  | statement tokens rest =>
      obtain ⟨formed, ⟨front, last, rfl, unended, kind⟩ | ⟨first, front, rfl, unended, last⟩⟩ := formed
      · exact ⟨formed, .inl ⟨t :: front, last, rfl, Plain.cons plain unended, kind⟩⟩
      · exact ⟨formed, .inr ⟨t, first :: front, rfl, Plain.cons plain unended, last⟩⟩
  | block header inner brace rest =>
      obtain ⟨⟨front, last, rfl, unended, kind⟩, formed⟩ := formed
      exact ⟨⟨t :: front, last, rfl, Plain.cons plain unended, kind⟩, formed⟩

theorem plain_of_not {kind : TokenKind} (semicolon : kind ≠ .semicolon) (left : kind ≠ .leftBrace)
    (right : kind ≠ .rightBrace) : kind.isTerminator = false := by
  unfold TokenKind.isTerminator
  split
  next => exact absurd rfl semicolon
  next => exact absurd rfl left
  next => exact absurd rfl right
  next => rfl

theorem read_formed (found : read text = some (o, outer)) :
    text = o.tokens ++ beyond outer ∧ o.Formed ∧
      ∀ pair ∈ outer, pair.1.kind = .rightBrace ∧ pair.2.Formed := by
  induction text generalizing o outer with
  | nil =>
      cases found
      exact ⟨rfl, trivial, by simp⟩
  | cons t text ih =>
      unfold read at found
      split at found
      next => cases found
      next here around read =>
        obtain ⟨whole, formed, outside⟩ := ih read
        split at found
        next kind =>
          cases found
          refine ⟨by simp [whole, tokens], ⟨formed, .inl ⟨[], t, rfl, by simp [Plain], kind⟩⟩, outside⟩
        next kind =>
          cases found
          refine ⟨by simp [whole, tokens, beyond], trivial, ?_⟩
          intro pair member
          rcases List.mem_cons.mp member with rfl | member
          · exact ⟨kind, formed⟩
          · exact outside pair member
        next brace after outer kind =>
          cases found
          obtain ⟨right, behind⟩ := outside (brace, after) (by simp)
          refine ⟨by simp [whole, tokens, beyond], ?_, fun pair member => outside pair (by simp [member])⟩
          exact ⟨⟨[], t, rfl, by simp [Plain], kind⟩, formed, right, behind⟩
        next => cases found
        next semicolon right left others =>
          cases found
          have plain : t.kind.isTerminator = false := by
            refine plain_of_not semicolon ?_ right
            intro kind
            cases outer with
            | nil => exact others kind rfl
            | cons pair outer => exact left pair.1 pair.2 outer kind rfl
          exact ⟨by simp [whole], formed.prepend plain, outside⟩

-- Each text has an outline that closes all of its braces.
theorem read_of_closesAll {depth : Nat} (closes : closesAll depth text = true) :
    ∃ o outer, read text = some (o, outer) ∧ outer.length = depth := by
  induction text generalizing depth with
  | nil => exact ⟨nil, [], rfl, by simpa [closesAll, eq_comm] using closes⟩
  | cons t text ih =>
      rw [closesAll] at closes
      split at closes
      next kind =>
        obtain ⟨here, outer, found, length⟩ := ih closes
        cases outer with
        | nil => cases length
        | cons pair outer =>
            refine ⟨_, outer, by rw [read, found]; simp [kind]; rfl, by simpa using length⟩
      next kind =>
        obtain ⟨deeper, closes⟩ := Bool.and_eq_true_iff.mp closes
        obtain ⟨here, outer, found, length⟩ := ih closes
        refine ⟨nil, (t, here) :: outer, by rw [read, found]; simp [kind], ?_⟩
        have positive : depth ≠ 0 := by simpa using deeper
        rw [List.length_cons, length]
        omega
      next left right =>
        obtain ⟨here, outer, found, length⟩ := ih closes
        by_cases semicolon : t.kind = .semicolon
        · exact ⟨_, outer, by rw [read, found]; simp [semicolon]; rfl, length⟩
        · refine ⟨here.prepend t, outer, ?_, length⟩
          rw [read, found]
          simp only
          split
          all_goals simp_all

theorem ofTokens?_of_closesAll (closes : closesAll 0 text = true) :
    ∃ o, ofTokens? text = some o := by
  obtain ⟨o, outer, found, length⟩ := read_of_closesAll closes
  rw [List.eq_nil_of_length_eq_zero length] at found
  exact ⟨o, by rw [ofTokens?, found]⟩

theorem ofTokens?_formed (found : ofTokens? text = some o) : text = o.tokens ∧ o.Formed := by
  unfold ofTokens? at found
  split at found
  next read =>
    cases found
    obtain ⟨whole, formed, _⟩ := read_formed read
    exact ⟨by simpa [beyond] using whole, formed⟩
  next => cases found

-- A block is passed over as a whole.
theorem skipBlock_tokens (formed : o.Formed) (depth : Nat) (later : List Token) :
    Chunk.skipBlock depth (o.tokens ++ later) = Chunk.skipBlock depth later := by
  induction o generalizing depth later with
  | nil => rfl
  | statement ts rest ih =>
      obtain ⟨formed, ⟨front, last, rfl, plain, kind⟩ | ⟨first, front, rfl, plain, last⟩⟩ := formed
      · have passed : last.kind ≠ .leftBrace ∧ last.kind ≠ .rightBrace := by simp [kind]
        simp only [tokens, List.append_assoc, List.cons_append, List.nil_append]
        rw [Chunk.skipBlock_append plain, Chunk.skipBlock_plain passed.1 passed.2]
        exact ih formed depth later
      · rw [tokens, List.append_assoc, Chunk.skipBlock_append plain]
        exact ih formed depth later
  | block header inner brace rest ihInner ihRest =>
      obtain ⟨⟨front, last, rfl, plain, kind⟩, inside, right, behind⟩ := formed
      simp only [tokens, List.append_assoc, List.cons_append, List.nil_append]
      rw [Chunk.skipBlock_append plain, Chunk.skipBlock_leftBrace kind, ihInner inside,
        Chunk.skipBlock_rightBrace right]
      exact ihRest behind depth later

end Outline

end MiLanguage
