import MiLanguage.Proofs.Places.Basic

set_option autoImplicit false

namespace MiLanguage

namespace Indexed

variable {α β : Type}

section Shared

variable {first before : Token} {tokens : List Token} {kind : TokenKind} {place : String}

-- The tokens from `start` up to a last one of the given kind.
def upToLast (start : Nat) (kind : TokenKind) (rest : List Token) (place : String) :
    Indexed (List Token) := do
  let stop ← get (minus? rest.length 1)
  let last ← get rest[stop]?
  if last.is kind then get (slice? rest start stop)
  else check (blame (SyntaxFault.expected kind place) last)

theorem upToLast_all (first before : Token) (tokens : List Token) (kind : TokenKind)
    (place : String) :
    upToLast 0 kind (first :: tokens) place =
      check (dropLastOf kind before (first :: tokens) place) := by
  have here : (first :: tokens)[(first :: tokens).length - 1]? = some (tokens.getLast?.getD first) := by
    rw [← List.getLast?_eq_getElem?, List.getLast?_cons]
  unfold upToLast dropLastOf
  rw [minus_of_le (by simp), get_some, pure_bind, here, get_some, pure_bind,
    slice_of_le (Nat.zero_le _) (Nat.sub_le _ _), List.getLast?_cons, List.drop_zero,
    ← List.dropLast_eq_take]
  dsimp only [Option.getD_some]
  cases (tokens.getLast?.getD first).is kind <;> rfl

-- The first token does not end the statement.
theorem dropLastOf_cons (other : first.kind ≠ kind) (before : Token) (tokens : List Token)
    (place : String) : dropLastOf kind before (first :: tokens) place =
      dropLastOf kind first tokens place >>= fun front => .ok (first :: front) := by
  unfold dropLastOf
  rw [List.getLast?_cons, Option.getD_some]
  cases tokens with
  | nil =>
      have no : first.is kind = false := by
        cases is : first.is kind with
        | false => rfl
        | true => exact absurd ((Token.is_iff _ _).mp is) other
      simp only [List.getLast?_nil, Option.getD_none, no]
      rfl
  | cons t tokens =>
      dsimp only
      split <;> rfl

theorem upToLast_cons (other : first.kind ≠ kind) (tokens : List Token) (place : String) :
    upToLast 0 kind (first :: tokens) place =
      check (dropLastOf kind first tokens place >>= fun front => .ok (first :: front)) := by
  rw [upToLast_all _ first, dropLastOf_cons other]

theorem upToLast_tail (other : first.kind ≠ kind) (tokens : List Token) (place : String) :
    upToLast 1 kind (first :: tokens) place = check (dropLastOf kind first tokens place) := by
  have here : (first :: tokens)[(first :: tokens).length - 1]? = some (tokens.getLast?.getD first) := by
    rw [← List.getLast?_eq_getElem?, List.getLast?_cons]
  unfold upToLast dropLastOf
  rw [minus_of_le (by simp), get_some, pure_bind, here, get_some, pure_bind]
  dsimp only
  cases is : (tokens.getLast?.getD first).is kind with
  | false => rfl
  | true =>
      have nonempty : tokens ≠ [] := by
        rintro rfl
        exact other ((Token.is_iff _ _).mp is)
      have longer := List.length_pos_iff.mpr nonempty
      rw [slice_of_le (by simp only [List.length_cons]; omega) (Nat.sub_le _ _),
        ← List.dropLast_eq_take, List.dropLast_cons_of_ne_nil nonempty]
      rfl

-- The statement ends at the place `stop`.
def requireEnd (rest : List Token) (stop : Nat) (what : String) : Indexed Unit :=
  match rest[stop]? with
  | some t =>
      if stop + 1 = rest.length ∧ t.is .semicolon then pure ()
      else check (blame (SyntaxFault.unwanted t.lexeme (.noEnd what)) t)
  | none => do
      let last ← last rest
      check (blame (SyntaxFault.expected .semicolon s!"after {what}") last)

theorem requireEnd_eq (first : Token) (tokens : List Token) (stop : Nat) (what : String) :
    requireEnd (first :: tokens) (stop + 1) what =
      check (MiLanguage.requireEnd (tokens.drop stop) (tokens.getLast?.getD first) what) := by
  generalize left : tokens.drop stop = rest
  have same : (first :: tokens).drop (stop + 1) = rest := left
  unfold requireEnd
  cases rest with
  | nil =>
      rw [drop_nil same, last_cons, pure_bind]
      rfl
  | cons t rest =>
      obtain ⟨here, next, inside⟩ := drop_cons same
      rw [here]
      dsimp only
      cases rest with
      | nil =>
          have ends : stop + 1 + 1 = (first :: tokens).length := by
            have := List.drop_eq_nil_iff.mp next
            omega
          rw [MiLanguage.requireEnd, require]
          cases is : t.is .semicolon with
          | true => rw [if_pos ⟨ends, rfl⟩]; rfl
          | false => rw [if_neg (by simp)]; rfl
      | cons u rest =>
          have more : ¬(stop + 1 + 1 = (first :: tokens).length ∧ t.is .semicolon = true) := by
            rintro ⟨ends, -⟩
            rw [ends, List.drop_length] at next
            cases next
          rw [if_neg more]
          rfl

-- A brace at the place `stop`, and nothing behind it.
def requireBrace (before : Token) (rest : List Token) (stop : Nat) (place : String) :
    Indexed Unit := do
  if rest.length ≠ stop + 1 then
    check (blame (SyntaxFault.expected .leftBrace place) (rest[stop]?.getD before))
  else
    let t ← get rest[stop]?
    if t.is .leftBrace then pure ()
    else check (blame (SyntaxFault.expected .leftBrace place) (rest[stop]?.getD before))

theorem requireBrace_eq (before : Token) (tokens : List Token) (stop : Nat) (place : String) :
    requireBrace before tokens stop place =
      check (MiLanguage.requireBrace before (tokens.drop stop) place) := by
  generalize left : tokens.drop stop = rest
  unfold requireBrace
  cases rest with
  | nil =>
      have short := List.drop_eq_nil_iff.mp left
      rw [if_pos (by omega), drop_nil left]
      rfl
  | cons t rest =>
      obtain ⟨here, next, inside⟩ := drop_cons left
      cases rest with
      | nil =>
          have ends := List.drop_eq_nil_iff.mp next
          rw [if_neg (by omega), here, get_some, pure_bind, MiLanguage.requireBrace, require]
          split <;> rfl
      | cons u rest =>
          have more : tokens.length ≠ stop + 1 := by
            rintro ends
            rw [← ends, List.drop_length] at next
            cases next
          rw [if_pos more, here]
          rfl

end Shared

section Headers

variable {env : Environment}

-- The modifiers of a parameter, and the place behind them.
def parameterModifiers (part : List Token) (mods : LeadingModifiers) (i : Nat) :
    Indexed (LeadingModifiers × Nat) :=
  match _here : part[i]?.bind (·.kind.modifier?) with
  | none => pure (mods, i)
  | some m => do
      let t ← get part[i]?
      if m.isVisibility then check (blame (SyntaxFault.misplacedVisibility m) t)
      else match mods.set.insert m with
        | .ok set => parameterModifiers part ⟨set, mods.tokens ++ [t]⟩ (i + 1)
        | .error present => check (blame (SyntaxFault.conflictingParameterModifiers m present) t)
termination_by part.length - i
decreasing_by
  obtain ⟨t, found, -⟩ := Option.bind_eq_some_iff.mp _here
  have inside := (List.getElem?_eq_some_iff.mp found).1
  omega

theorem parameterModifiers_bind {part : List Token} {mods : LeadingModifiers} {i : Nat}
    {k : LeadingModifiers × Nat → Indexed β} {h : LeadingModifiers × List Token → Checked β}
    (each : ∀ mods i, k (mods, i) = check (h (mods, part.drop i))) :
    (parameterModifiers part mods i >>= k) =
      check (Parameter.readModifiers mods (part.drop i) >>= h) := by
  generalize rest : part.drop i = left
  induction left generalizing mods i with
  | nil =>
      unfold parameterModifiers
      have beyond : part[i]?.bind (·.kind.modifier?) = none := by rw [drop_nil rest]; rfl
      split
      · rw [pure_bind, each, rest]
        rfl
      next found => rw [beyond] at found; cases found
  | cons t left ih =>
      obtain ⟨here, next, inside⟩ := drop_cons rest
      have shown : part[i]?.bind (·.kind.modifier?) = t.kind.modifier? := by rw [here]; rfl
      unfold parameterModifiers Parameter.readModifiers
      split
      next unmodified =>
        rw [shown] at unmodified
        rw [pure_bind, each, rest]
        split
        next m kind => rw [kind] at unmodified; cases unmodified
        next => rfl
      next m found =>
        rw [shown] at found
        have kind : t.kind = .modifier m := by
          cases kind : t.kind with
          | modifier n => rw [kind] at found; cases found; rfl
          | _ => rw [kind] at found; cases found
        rw [here, get_some, pure_bind, kind]
        dsimp only
        split
        · rfl
        · cases mods.set.insert m with
          | ok set => exact ih next
          | error present => rfl

-- One parameter.
def parameter (env : Environment) (others : List ReadParameter) (place : Token) (part : List Token) :
    Indexed ReadParameter := do
  let first ← match part[0]? with
    | none => check (blame SyntaxFault.emptyParameter place)
    | some t => pure t
  let (mods, i) ← parameterModifiers part {} 0
  let typeToken ← match part[i]? with
    | none => check (blame (SyntaxFault.parameterTypeExpected none) first)
    | some t => pure t
  check do
    Parameter.requireType typeToken
    let type ← env.resolveDatatype typeToken mods.set.isNullable
    let name ← declaredName part[i + 1]? typeToken "function argument"
    if let some extra := part[i + 2]? then
      blame (SyntaxFault.unwanted extra.lexeme .inParameters) extra
    require (!others.any (·.parameter.name = name.lexeme))
      (ResolutionFault.parameterAgain name.lexeme) name
    let line := name.streamLine
    .ok
      { parameter := ⟨type, name.lexeme, mods.set⟩
        node := .new .parameter line
          [mods.node line, .leaf .identifier name, typeNode (some typeToken) type line] }

theorem parameter_eq (others : List ReadParameter) (place : Token) (part : List Token) :
    parameter env others place part = check (Parameter.read env others place part) := by
  unfold parameter Parameter.read
  cases part with
  | nil => rfl
  | cons first rest =>
      rw [List.getElem?_cons_zero]
      dsimp only
      rw [pure_bind, Checked.ok_bind]
      refine parameterModifiers_bind (i := 0) fun mods i => ?_
      dsimp only
      generalize left : (first :: rest).drop i = behind
      cases behind with
      | nil =>
          rw [drop_nil left]
          rfl
      | cons t behind =>
          obtain ⟨here, next, -⟩ := drop_cons left
          rw [here]
          dsimp only
          rw [pure_bind, ← List.head?_drop, next, Checked.ok_bind]
          have last : (first :: rest)[i + 2]? = behind.tail.head? := by
            rw [← List.head?_drop, ← next, List.tail_drop]
          generalize (first :: rest)[i + 2]? = extra at last ⊢
          subst last
          rfl

def parametersFrom (env : Environment) (place : Token) (read_ : List ReadParameter) :
    List (List Token) → Indexed (List ReadParameter)
  | [] => pure read_
  | part :: parts => do
      let p ← parameter env read_ place part
      parametersFrom env place (read_ ++ [p]) parts

theorem parametersFrom_eq (place : Token) (read_ : List ReadParameter) (parts : List (List Token)) :
    parametersFrom env place read_ parts = check (Parameter.readAll env place read_ parts) := by
  induction parts generalizing read_ with
  | nil => rfl
  | cons part parts ih =>
      unfold parametersFrom Parameter.readAll
      rw [parameter_eq]
      exact check_bind fun p _ => ih (read_ ++ [p])

-- The parameters in parentheses from a place on, and the place behind them.
def parameters (env : Environment) (rest : List Token) (start : Nat) :
    Indexed (List ReadParameter × Nat) :=
  match rest[start]? with
  | none => pure ([], start)
  | some opening =>
      if opening.is .leftParen then do
        match ← get (matching rest start) with
        | none => check (blame (SyntaxFault.expected .rightParen "to close function arguments") opening)
        | some closing => do
            let inner ← get (slice? rest (start + 1) closing)
            if inner.isEmpty then pure ([], closing + 1)
            else do
              let parts ← get (parts inner)
              let read_ ← parametersFrom env opening [] parts
              pure (read_, closing + 1)
      else pure ([], start)

theorem parameters_bind {rest : List Token} (start : Nat)
    {k : List ReadParameter × Nat → Indexed β} {h : List ReadParameter × List Token → Checked β}
    (each : ∀ ps i, k (ps, i) = check (h (ps, rest.drop i))) :
    (parameters env rest start >>= k) =
      check (Parameter.readList env (rest.drop start) >>= h) := by
  generalize left : rest.drop start = behind
  unfold parameters Parameter.readList
  cases behind with
  | nil =>
      rw [drop_nil left]
      dsimp only
      rw [pure_bind, each, left]
      rfl
  | cons opening later =>
      obtain ⟨here, next, inside⟩ := drop_cons left
      rw [here]
      dsimp only
      split
      next opens =>
        rw [matching_eq left ((Token.is_iff _ _).mp opens)]
        cases found : splitClosing 0 later with
        | none => rfl
        | some both =>
            obtain ⟨inner, after⟩ := both
            obtain ⟨closing, shown⟩ := splitClosing_eq_some found
            have whole : rest = rest.take (start + 1) ++ inner ++ closing :: after := by
              rw [List.append_assoc, ← shown, ← next, List.take_append_drop]
            have taken : (rest.take (start + 1)).length = start + 1 := by
              rw [List.length_take]
              omega
            have slice : slice? rest (start + 1) (start + 1 + inner.length) = some inner := by
              rw [whole]
              exact slice_append taken.symm (by rw [taken])
            have beyond : rest.drop (start + 1 + inner.length + 1) = after := by
              rw [Nat.add_assoc, ← List.drop_drop, next, shown, ← List.singleton_append,
                ← List.append_assoc]
              exact List.drop_left' (by simp)
            simp only [Option.map_some, get_some, pure_bind, slice]
            cases inner with
            | nil => exact (each _ _).trans (by rw [beyond]; rfl)
            | cons t inner =>
                simp only [List.isEmpty_cons, parts_eq, get_some, pure_bind, parametersFrom_eq]
                rw [if_neg (by simp), bind_assoc]
                refine check_bind (h := fun ps => h (ps, after)) (fun ps _ => ?_) |>.trans ?_
                · rw [pure_bind, each, beyond]
                · cases Parameter.readAll env opening [] (splitCommas (t :: inner)) <;> rfl
      next => rw [pure_bind, each, left]; rfl

-- The end of a header.
def headerTail (rest : List Token) (start : Nat) : Indexed (Option Token) := do
  let last ← last rest
  match rest[start]? with
  | none => check (blame (SyntaxFault.expected .leftBrace "after function header") last)
  | some t =>
      match t.kind with
      | .arrow =>
          match rest[start + 1]?.filter (·.is (.literal .string)) with
          | none => do
              let t ← get rest[start]?
              check (blame SyntaxFault.hostClassExpected t)
          | some name =>
              if start + 3 = rest.length && last.is .semicolon then
                pure (some (.synthetic (.literal .string) (Header.trimQuotes name.lexeme) name))
              else check (blame (SyntaxFault.expected .semicolon "after host class name") name)
      | kind => do
          if kind = .leftBrace ∧ start + 1 = rest.length then pure none
          else do
            let t ← get rest[start]?
            check (blame (SyntaxFault.unwanted t.lexeme .inHeader) t)

theorem readTail_other {t : Token} {rest : List Token} (arrow : t.kind ≠ .arrow)
    (brace : t.kind = .leftBrace → rest ≠ []) (last : Token) :
    Header.readTail (t :: rest) last = blame (SyntaxFault.unwanted t.lexeme .inHeader) t := by
  unfold Header.readTail
  dsimp only
  split
  next kind => exact absurd rfl (brace kind)
  next kind => exact absurd kind arrow
  next => rfl

theorem headerTail_eq (first : Token) (tokens : List Token) (start : Nat) :
    headerTail (first :: tokens) start =
      check (Header.readTail ((first :: tokens).drop start) (tokens.getLast?.getD first)) := by
  generalize left : (first :: tokens).drop start = behind
  unfold headerTail
  rw [last_cons, pure_bind]
  cases behind with
  | nil =>
      rw [drop_nil left]
      rfl
  | cons t behind =>
      obtain ⟨here, next, inside⟩ := drop_cons left
      have count : (first :: tokens).length = start + 1 + behind.length := by
        rw [← next, List.length_drop]
        omega
      rw [here]
      dsimp only
      split
      next arrow =>
        rw [← List.head?_drop, next]
        simp only [Header.readTail, arrow]
        cases behind with
        | nil => rfl
        | cons name behind =>
            simp only [List.head?_cons, Option.filter_some]
            cases string : name.is (.literal .string) with
            | false => rfl
            | true =>
                have ends : (start + 3 = (first :: tokens).length) = (behind.length = 1) := by
                  rw [count, List.length_cons]
                  exact propext ⟨fun _ => by omega, fun _ => by omega⟩
                simp only [if_true, ends]
                cases decide (behind.length = 1) && (tokens.getLast?.getD first).is .semicolon <;> rfl
      next other =>
        rw [get_some, pure_bind]
        cases behind with
        | nil =>
            by_cases brace : t.kind = .leftBrace
            · rw [if_pos ⟨brace, by rw [count]; rfl⟩]
              simp only [Header.readTail, brace]
              rfl
            · rw [if_neg (fun both => brace both.1), readTail_other other fun kind => absurd kind brace]
        | cons u behind =>
            have more : ¬(t.kind = .leftBrace ∧ start + 1 = (first :: tokens).length) := by
              rintro ⟨-, ends⟩
              rw [count, List.length_cons] at ends
              omega
            rw [if_neg more, readTail_other other fun _ => List.cons_ne_nil u behind]

-- What follows the name in a header, and the place behind it.
def returnType (env : Environment) (mods : LeadingModifiers) (rest : List Token) :
    Indexed (Datatype × Option Token × Nat) :=
  match rest[2]? with
  | none => do
      let last ← last rest
      check (blame (SyntaxFault.functionHeader last.lexeme) last)
  | some t =>
      match t.kind with
      | .tilde => pure (.void, none, 3)
      | .doubleColon =>
          match rest[3]? with
          | none => do
              let t ← get rest[2]?
              check (blame SyntaxFault.returnTypeExpected t)
          | some name =>
              if name.is (.datatype .void) then pure (.void, some name, 4)
              else do
                let type ← check (env.resolveDatatype name mods.set.isNullable)
                pure (type, some name, 4)
      | .leftParen | .leftBrace | .arrow => pure (.void, none, 2)
      | _ => check (blame (SyntaxFault.functionHeader t.lexeme) t)

theorem returnType_bind {mods : LeadingModifiers} {first : Token} {tokens : List Token}
    {k : Datatype × Option Token × Nat → Indexed β}
    {h : Datatype × Option Token × List Token → Checked β}
    (each : ∀ type token i, k (type, token, i) = check (h (type, token, (first :: tokens).drop i))) :
    (returnType env mods (first :: tokens) >>= k) = check
      (Header.readReturn env mods tokens.tail (tokens.getLast?.getD first) >>= h) := by
  have left : (first :: tokens).drop 2 = tokens.tail := by cases tokens <;> rfl
  generalize tokens.tail = behind at left
  unfold returnType Header.readReturn
  cases behind with
  | nil =>
      rw [drop_nil left]
      dsimp only
      rw [last_cons]
      rfl
  | cons t behind =>
      obtain ⟨here, next, -⟩ := drop_cons left
      rw [here]
      dsimp only
      cases t.kind with
      | tilde =>
          dsimp only
          rw [pure_bind, each, next]
          rfl
      | punctuation p =>
          cases p with
          | doubleColon =>
              cases behind with
              | nil =>
                  dsimp only
                  rw [drop_nil next]
                  rfl
              | cons name behind =>
                  obtain ⟨there, beyond, -⟩ := drop_cons next
                  dsimp only
                  rw [there]
                  dsimp only
                  split
                  · rw [pure_bind, each, beyond]
                    rfl
                  · rw [bind_assoc, bind_assoc]
                    refine check_bind fun type _ => ?_
                    rw [pure_bind, each, beyond]
                    rfl
          | leftParen | leftBrace | arrow =>
              dsimp only
              rw [pure_bind, each, left]
              rfl
          | _ => rfl
      | _ => rfl

-- The header of a function.
def header (env : Environment) (mods : LeadingModifiers) (rest : List Token) : Indexed Header := do
  let keyword ← get rest[0]?
  let name ← check (declaredName rest[1]? keyword "function")
  let (type, returnToken, i) ← returnType env mods rest
  let (read_, i) ← parameters env rest i
  let hostClass ← headerTail rest i
  check do
    require (!(mods.set.isNative && hostClass.isNone)) (NativeFault.nativeWithBody name.lexeme) name
    require (mods.set.isNative || hostClass.isNone) (NativeFault.boundNotNative name.lexeme) name
    .ok { name, returnType := type, returnToken, parameters := read_, hostClass }

theorem header_eq (mods : LeadingModifiers) (keyword : Token) (tokens : List Token) :
    header env mods (keyword :: tokens) = check (Header.read env mods keyword tokens) := by
  unfold header Header.read
  rw [List.getElem?_cons_zero, get_some, pure_bind, List.getElem?_cons_succ, ← List.head?_eq_getElem?]
  refine check_bind fun name _ => returnType_bind fun type token i => ?_
  dsimp only
  refine parameters_bind _ fun ps j => ?_
  dsimp only
  rw [headerTail_eq]
  exact check_bind fun _ _ => rfl

end Headers

end Indexed

end MiLanguage
