import MiLanguage.Token.Stream

set_option autoImplicit false

namespace MiLanguage

-- The tokens that may stand for names are not empty.
def NoEmptyName (tokens : List Token) : Prop := ∀ t ∈ tokens, t.kind = .identifier → t.lexeme ≠ ""

theorem NoEmptyName.sublist {tokens more : List Token} (spelled : NoEmptyName more)
    (inside : tokens ⊆ more) : NoEmptyName tokens :=
  fun t member => spelled t (inside member)

theorem NoEmptyName.append {tokens more : List Token} (first : NoEmptyName tokens)
    (second : NoEmptyName more) : NoEmptyName (tokens ++ more) :=
  fun t member => (List.mem_append.mp member).elim (first t) (second t)

section Scan

variable {length : Nat}

theorem scanNumber_unnamed (cs : List Char) : scanNumber cs ≠ .token .identifier length := by
  intro same
  unfold scanNumber at same
  dsimp only at same
  repeat' split at same
  all_goals cases same

theorem scanChar_unnamed (cs : List Char) : scanChar cs ≠ .token .identifier length := by
  intro same
  unfold scanChar at same
  repeat' split at same
  all_goals cases same

theorem scanString_unnamed (cs : List Char) : scanString cs ≠ .token .identifier length := by
  intro same
  unfold scanString at same
  dsimp only at same
  split at same <;> cases same

theorem signs_unnamed : ∀ kind ∈ signs, kind ≠ .identifier := by decide

theorem scanSign_unnamed (cs : List Char) : scanSign cs ≠ .token .identifier length := by
  intro same
  unfold scanSign at same
  split at same
  next spelling kind found =>
    injection same with name
    obtain ⟨_, member, pair⟩ := List.mem_map.mp (List.mem_of_find?_eq_some found)
    cases pair
    exact signs_unnamed _ member name
  next => cases same

theorem length_of_scan {c : Char} {rest : List Char}
    (scanned : Lexeme.scan c rest = .token .identifier length) : 0 < length := by
  unfold Lexeme.scan at scanned
  split at scanned
  next => cases scanned
  next =>
  split at scanned
  next =>
    injection scanned with _ same
    omega
  next =>
  split at scanned
  next => exact absurd scanned (scanNumber_unnamed _)
  next =>
  split at scanned
  next => exact absurd scanned (scanChar_unnamed _)
  next =>
  split at scanned
  next => exact absurd scanned (scanString_unnamed _)
  next =>
  split at scanned
  next => cases scanned
  next => split at scanned <;> cases scanned
  next => exact absurd scanned (scanSign_unnamed _)

end Scan

namespace SourceUnit

variable {unit : SourceUnit} {breaks : List Nat}

theorem noEmptyName_tokensFrom {offset taken : Nat} {cs : List Char} {tokens : List Token}
    (read : unit.tokensFrom breaks offset taken cs = .ok tokens) : NoEmptyName tokens := by
  induction cs generalizing offset taken tokens with
  | nil =>
      cases read
      exact nofun
  | cons c cs ih =>
      unfold tokensFrom at read
      split at read
      next => exact ih read
      next =>
        split at read
        next _ kind length scanned =>
          cases later : unit.tokensFrom breaks (offset + c.utf8Size) (length - 1) cs with
          | error => rw [later] at read; cases read
          | ok tokens =>
              rw [later] at read
              cases read
              intro t member name
              rcases List.mem_cons.mp member with rfl | member
              · have name : kind = .identifier := name
                rw [name] at scanned
                obtain ⟨rest, same⟩ := Nat.exists_eq_add_of_lt (length_of_scan scanned)
                intro empty
                have empty : String.ofList ((c :: cs).take length) = "" := empty
                rw [same] at empty
                simpa using congrArg String.toList empty
              · exact ih later t member name
        next => exact ih read
        next => cases read
        next => cases read

theorem noEmptyName_tokens {tokens : List Token} (read : unit.tokens = .ok tokens) :
    NoEmptyName tokens :=
  noEmptyName_tokensFrom read

end SourceUnit

theorem noEmptyName_programTokens {text : String} {withLibrary : Bool} {tokens : List Token}
    (read : programTokens text withLibrary = .ok tokens) : NoEmptyName tokens := by
  have goes : ∀ {first : List Token}, NoEmptyName first →
      ((SourceUnit.user text withLibrary).tokens.bind fun second => .ok (first ++ second)) =
        .ok tokens → NoEmptyName tokens := by
    intro first spelled read
    cases user : (SourceUnit.user text withLibrary).tokens with
    | error => rw [user] at read; cases read
    | ok second =>
        rw [user] at read
        cases read
        exact spelled.append (SourceUnit.noEmptyName_tokens user)
  unfold programTokens at read
  cases withLibrary with
  | false => exact goes (show NoEmptyName [] from nofun) read
  | true =>
      cases library : libraryTokens with
      | error => rw [library] at read; cases read
      | ok first =>
          rw [library] at read
          exact goes (SourceUnit.noEmptyName_tokens library) read

end MiLanguage
