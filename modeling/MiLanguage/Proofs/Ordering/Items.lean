import Mathlib.Data.List.Chain
import MiLanguage.Proofs.Isolation.Heading
import MiLanguage.Proofs.Passes.Natives

set_option autoImplicit false

namespace MiLanguage

-- A word of the language names the type of what stands behind it, or a function is about to be
-- named.
def Token.introduces (t : Token) : Bool := t.kind = .keyword .fn || t.kind.datatype?.isSome

-- A header of a function mentions primitive types only: each name in it is the function's, or a
-- parameter's behind a word for its type.
def PrimitivelyTyped (tokens : List Token) : Prop :=
  tokens.IsChain fun before t => t.kind = .identifier → before.introduces = true

instance (tokens : List Token) : Decidable (PrimitivelyTyped tokens) := by
  unfold PrimitivelyTyped
  infer_instance

section Chains

variable {before t : Token} {tokens rest : List Token}

theorem PrimitivelyTyped.tail (typed : PrimitivelyTyped (t :: tokens)) : PrimitivelyTyped tokens :=
  List.IsChain.tail typed

theorem PrimitivelyTyped.suffix (typed : PrimitivelyTyped tokens) (suffix : rest <:+ tokens) :
    PrimitivelyTyped rest :=
  List.IsChain.suffix typed suffix

-- What follows neither `fn` nor a type is no name.
theorem PrimitivelyTyped.head (typed : PrimitivelyTyped (before :: t :: tokens))
    (no : before.introduces = false) : t.kind ≠ .identifier := by
  intro name
  have introduced := (List.isChain_cons_cons.mp typed).1 name
  rw [no] at introduced
  cases introduced

-- Of what precedes a list it only matters whether it is `fn` or a type.
theorem PrimitivelyTyped.behind {other : Token} (typed : PrimitivelyTyped (before :: tokens))
    (no : before.introduces = false) : PrimitivelyTyped (other :: tokens) := by
  cases tokens with
  | nil => exact .singleton _
  | cons t tokens =>
      refine List.isChain_cons_cons.mpr ⟨fun name => absurd name (typed.head no), ?_⟩
      exact (List.isChain_cons_cons.mp typed).2

theorem splitClosing_prefix {depth : Nat} {inner after : List Token}
    (found : splitClosing depth tokens = some (inner, after)) : inner <+: tokens := by
  induction tokens generalizing depth inner with
  | nil => simp [splitClosing] at found
  | cons t rest ih =>
      unfold splitClosing at found
      split at found
      next => cases found; exact List.nil_prefix
      next =>
        obtain ⟨⟨inner, _⟩, later, same⟩ := Option.map_eq_some_iff.mp found
        cases same
        exact List.cons_prefix_cons.mpr ⟨rfl, ih later⟩

-- A comma separates a part from what is in front of it.
theorem splitParts_typed (depth : Nat) (typed : PrimitivelyTyped (before :: tokens)) :
    ∃ part parts, splitParts depth tokens = part :: parts ∧ PrimitivelyTyped (before :: part) ∧
      ∀ part ∈ parts, ∃ comma : Token, comma.introduces = false ∧ PrimitivelyTyped (comma :: part) := by
  induction tokens generalizing before depth with
  | nil => exact ⟨[], [], rfl, .singleton _, by simp⟩
  | cons t rest ih =>
      unfold splitParts
      split
      next comma =>
        have no : t.introduces = false := by simp [Token.introduces, comma, TokenKind.datatype?]
        obtain ⟨part, parts, split, first, others⟩ := @ih t 0 typed.tail
        rw [split]
        refine ⟨[], _, rfl, .singleton _, fun other member => ?_⟩
        rcases List.mem_cons.mp member with rfl | member
        · exact ⟨t, no, first⟩
        · exact others other member
      next =>
        obtain ⟨part, parts, split, first, others⟩ := @ih t _ typed.tail
        dsimp only
        rw [split]
        refine ⟨_, _, rfl, List.isChain_cons_cons.mpr ⟨?_, first⟩, others⟩
        exact (List.isChain_cons_cons.mp typed).1

end Chains

theorem Checked.bind_congr {α β : Type} {x : Checked α} {f g : α → Checked β}
    (same : ∀ a, x = .ok a → f a = g a) : (x >>= f) = (x >>= g) := by
  cases x with
  | error => rfl
  | ok a => exact same a rfl

section Headers

variable {before t : Token} {tokens rest : List Token}

-- A type that is no name is the same everywhere.
theorem resolveDatatype_anywhere (env other : Environment) (word : t.kind ≠ .identifier)
    (nullable : Bool) : env.resolveDatatype t nullable = other.resolveDatatype t nullable := by
  unfold Environment.resolveDatatype
  split
  next => rfl
  next name => exact absurd name word
  next => rfl

namespace Parameter

theorem readModifiers_typed {mods found : LeadingModifiers}
    (read : readModifiers mods tokens = .ok (found, rest))
    (typed : PrimitivelyTyped (before :: tokens)) : PrimitivelyTyped (before :: rest) := by
  induction tokens generalizing mods with
  | nil => cases read; exact typed
  | cons t tokens ih =>
      unfold readModifiers at read
      split at read
      next m modifier =>
        split at read
        next => simp at read
        next =>
          split at read
          next =>
            have no' : t.introduces = false := by
              simp [Token.introduces, modifier, TokenKind.datatype?]
            exact ih read (typed.tail.behind no')
          next => simp at read
      next => cases read; exact typed

theorem read_anywhere (env other : Environment) (others : List ReadParameter) (place : Token)
    {part : List Token} (typed : PrimitivelyTyped (before :: part)) (no : before.introduces = false) :
    read env others place part = read other others place part := by
  cases part with
  | nil => rfl
  | cons first tail =>
      simp only [read]
      refine Checked.bind_congr fun _ _ => Checked.bind_congr ?_
      rintro ⟨mods, rest⟩ modifiers
      cases rest with
      | nil => rfl
      | cons typeToken later =>
          have word := (readModifiers_typed modifiers typed).head no
          simp only [Checked.ok_bind, resolveDatatype_anywhere env other word]

theorem readAll_anywhere (env other : Environment) (place : Token) {parts : List (List Token)}
    (typed : ∀ part ∈ parts, ∃ before : Token, before.introduces = false ∧
      PrimitivelyTyped (before :: part)) (found : List ReadParameter) :
    readAll env place found parts = readAll other place found parts := by
  induction parts generalizing found with
  | nil => rfl
  | cons part parts ih =>
      obtain ⟨before, no, here⟩ := typed part List.mem_cons_self
      simp only [readAll, read_anywhere env other found place here no]
      refine Checked.bind_congr fun p _ => ih (fun other member => ?_) _
      exact typed other (List.mem_cons_of_mem _ member)

theorem readList_anywhere (env other : Environment) (typed : PrimitivelyTyped tokens) :
    readList env tokens = readList other tokens := by
  unfold readList
  split
  next => rfl
  next opening rest =>
    split
    next opens =>
      have no : opening.introduces = false := by
        simp only [Token.is_iff] at opens
        simp [Token.introduces, opens, TokenKind.datatype?]
      split
      next => rfl
      next => rfl
      next inner after closing found =>
        have typed : PrimitivelyTyped (opening :: inner) :=
          List.IsChain.prefix typed (List.cons_prefix_cons.mpr ⟨rfl, splitClosing_prefix found⟩)
        obtain ⟨part, parts, split, first, others⟩ := splitParts_typed 0 typed
        rw [readAll_anywhere env other opening]
        intro other member
        rw [splitCommas, split] at member
        rcases List.mem_cons.mp member with rfl | member
        · exact ⟨opening, no, first⟩
        · exact others other member
    next => rfl

end Parameter

namespace Header

theorem readReturn_anywhere (env other : Environment) (mods : LeadingModifiers) (last : Token)
    (typed : PrimitivelyTyped tokens) :
    readReturn env mods tokens last = readReturn other mods tokens last := by
  cases tokens with
  | nil => rfl
  | cons t rest =>
      unfold readReturn
      dsimp only
      split
      next => rfl
      next colons =>
        have no : t.introduces = false := by simp [Token.introduces, colons, TokenKind.datatype?]
        cases rest with
        | nil => rfl
        | cons name rest => simp only [resolveDatatype_anywhere env other (typed.head no)]
      all_goals rfl

theorem read_anywhere (env other : Environment) (mods : LeadingModifiers) (keyword : Token)
    (typed : PrimitivelyTyped tokens) :
    Header.read env mods keyword tokens = Header.read other mods keyword tokens := by
  have later : PrimitivelyTyped tokens.tail := typed.suffix (List.tail_suffix tokens)
  simp only [Header.read]
  refine Checked.bind_congr fun name _ => ?_
  rw [readReturn_anywhere env other mods _ later]
  refine Checked.bind_congr fun found returned => ?_
  rw [Parameter.readList_anywhere env other (later.suffix (readReturn_suffix returned))]

end Header

end Headers

/-- The definition of a function as it stands in a text: the header up to its `last` token, and the
body with the brace behind it. A native function has no body. -/
structure FunctionItem where
  heading : List Token
  last : Token
  block : List Token
  plain : Outline.Plain heading
  names : (heading.find? (!·.kind.isModifier)).any (·.kind = .keyword .fn) = true
  typed : PrimitivelyTyped heading
  ends : (last.kind = .semicolon ∧ block = []) ∨
    (last.kind = .leftBrace ∧ ∃ body closing, block = body ++ [closing] ∧
      closesAll 0 body = true ∧ closing.kind = .rightBrace)

namespace FunctionItem

variable (item : FunctionItem)

def text : List Token := item.heading ++ item.last :: item.block

theorem kind_last : item.last.kind = .semicolon ∨ item.last.kind = .leftBrace :=
  item.ends.imp And.left And.left

-- The body is a block of its own.
theorem skipBlock_block (opens : item.last.kind = .leftBrace) (depth : Nat) (rest : List Token) :
    Chunk.skipBlock (depth + 1) (item.block ++ rest) = Chunk.skipBlock depth rest ∧
      Chunk.skipBlock 0 (item.block ++ rest) = some rest := by
  rcases item.ends with ⟨semicolon, -⟩ | ⟨-, body, closing, block, balanced, kind⟩
  · rw [opens] at semicolon
    cases semicolon
  · rw [block, List.append_assoc, Chunk.skipBlock_balanced balanced, Chunk.skipBlock_balanced balanced,
      List.singleton_append, Chunk.skipBlock_rightBrace kind]
    simp [Chunk.skipBlock, kind]

theorem skipBlock_text (depth : Nat) (rest : List Token) :
    Chunk.skipBlock depth (item.text ++ rest) = Chunk.skipBlock depth rest := by
  rw [text, List.append_assoc, List.cons_append, Chunk.skipBlock_append item.plain]
  rcases item.ends with ⟨semicolon, block⟩ | ⟨brace, -⟩
  · rw [Chunk.skipBlock_plain (by simp [semicolon]) (by simp [semicolon]), block, List.nil_append]
  · rw [Chunk.skipBlock_leftBrace brace, (item.skipBlock_block brace depth rest).1]

theorem ne_nil : item.text ≠ [] := by simp [text]

theorem whole : Whole item.text := by
  intro t last
  rcases item.ends with ⟨semicolon, block⟩ | ⟨-, body, closing, block, -, kind⟩
  · rw [text, block, List.getLast?_concat, Option.some.injEq] at last
    rw [← last, semicolon]
    rfl
  · rw [text, block, ← List.cons_append, ← List.append_assoc, List.getLast?_concat,
      Option.some.injEq] at last
    rw [← last, kind]
    rfl

/-- How the header reads, wherever it stands. -/
structure Reads (mods : LeadingModifiers) (head : Token) (tail : List Token) (h : Header) : Prop where
  modifiers : LeadingModifiers.read (item.heading ++ [item.last]) = .ok (mods, head :: tail)
  keyword : head.kind = .keyword .fn
  ends : tail.getLast?.getD head = item.last
  header : ∀ env, Header.read env mods head tail = .ok h

variable {item} {p p' : AnalysisState} {rest : List Token}

theorem takes (remaining : p.remaining = item.text ++ rest) :
    ∃ first tail, item.heading ++ [item.last] = first :: tail ∧
      tail.getLast?.getD first = item.last ∧ first.kind ≠ .rightBrace ∧
      first.kind ≠ .keyword .«while» ∧ p.Takes first tail (item.block ++ rest) := by
  obtain ⟨first, tail, same, last, takes⟩ := p.takes_closed item.plain item.kind_last (item.block ++ rest)
    (by rw [remaining, text, List.append_assoc, List.cons_append])
  obtain ⟨head, found, kind⟩ := (Option.any_eq_true _ _).mp item.names
  have kind : head.kind = .keyword .fn := by simpa using kind
  have start : item.heading.head? = some first := by
    cases heading : item.heading with
    | nil => rw [heading] at found; cases found
    | cons other later =>
        rw [heading, List.cons_append, List.cons.injEq] at same
        rw [List.head?_cons, same.1]
  -- The first token is a modifier, or the keyword.
  have either : first.kind.isModifier = true ∨ first = head := by
    cases heading : item.heading with
    | nil => rw [heading] at start; cases start
    | cons other later =>
        rw [heading, List.head?_cons, Option.some.injEq] at start
        subst start
        rw [heading, List.find?_cons] at found
        cases modifier : other.kind.isModifier with
        | true => exact .inl rfl
        | false =>
            rw [modifier] at found
            exact .inr (Option.some.inj found)
  refine ⟨first, tail, same, last, ?_, ?_, takes⟩
  · intro right
    rcases either with modifier | rfl
    · rw [right] at modifier; cases modifier
    · rw [right] at kind; cases kind
  · intro loop
    rcases either with modifier | rfl
    · rw [loop] at modifier; cases modifier
    · rw [loop] at kind; cases kind

theorem checkReachable_bare {s : AnalysisState} (bare : s.environment.frame.isBlock = false)
    (first : Token) : s.checkReachable first = s := by
  unfold AnalysisState.checkReachable
  cases frame : s.environment.frame with
  | block => rw [frame] at bare; cases bare
  | _ => rfl

theorem typed_closed : PrimitivelyTyped (item.heading ++ [item.last]) := by
  refine List.isChain_append.mpr ⟨item.typed, .singleton _, fun _ _ t member name => ?_⟩
  rw [List.head?_cons, Option.mem_some_iff] at member
  subst member
  rcases item.kind_last with kind | kind <;> rw [kind] at name <;> cases name

theorem reads {mods : LeadingModifiers} {head : Token} {tail : List Token} {h : Header}
    {env : Environment} (modifiers : LeadingModifiers.read (item.heading ++ [item.last]) =
      .ok (mods, head :: tail)) (header : Header.read env mods head tail = .ok h) :
    item.Reads mods head tail h := by
  obtain ⟨found, last⟩ := AnalysisState.find_head modifiers
  have typed : PrimitivelyTyped (head :: tail) :=
    by
    refine item.typed_closed.suffix ?_
    rw [(LeadingModifiers.read_append modifiers).1]
    exact List.suffix_append _ _
  refine ⟨modifiers, ?_, ?_, fun other => ?_⟩
  · obtain ⟨name, there, kind⟩ := (Option.any_eq_true _ _).mp item.names
    rw [List.find?_append, there] at found
    obtain rfl := Option.some.inj found
    simpa using kind
  · rw [List.getLast?_concat, Option.some.injEq] at last
    exact last.symm
  · rw [Header.read_anywhere other env mods head typed.tail]
    exact header

theorem function_of_statement {env : Environment} {setting : Setting} {first : Token}
    {tail : List Token} {accepted : Accepted} (same : item.heading ++ [item.last] = first :: tail)
    (read : env.statement setting first tail = ⟨accepted.environment, .ok accepted.node⟩) :
    ∃ mods head later h, item.Reads mods head later h ∧
      env.function setting mods head later = .ok accepted := by
  unfold Environment.statement at read
  rw [← same] at read
  split at read
  next => cases read
  next => cases read
  next mods head later modifiers =>
    obtain ⟨found, -⟩ := AnalysisState.find_head modifiers
    obtain ⟨name, there, kind⟩ := (Option.any_eq_true _ _).mp item.names
    rw [List.find?_append, there] at found
    obtain rfl : name = head := Option.some.inj found
    have kind : name.kind = .keyword .fn := by simpa using kind
    have read : env.function setting mods name later = .ok accepted := by
      simp only [Environment.dispatch, kind, Environment.read, Outcome.ofChecked] at read
      cases result : env.function setting mods name later with
      | error => rw [result] at read; cases read
      | ok found =>
          rw [result] at read
          obtain ⟨environment, node⟩ := found
          cases accepted
          cases read
          rfl
    obtain ⟨h, header⟩ : ∃ h, Header.read env mods name later = .ok h := by
      simp only [Environment.function, Checked.bind_eq_ok] at read
      obtain ⟨_, _, _, _, h, header, _⟩ := read
      exact ⟨h, header⟩
    exact ⟨mods, name, later, h, reads modifiers header, read⟩

section Function

variable {env : Environment} {setting : Setting} {mods : LeadingModifiers} {head : Token}
  {tail : List Token} {h : Header} {accepted : Accepted} (reads : item.Reads mods head tail h)
  (function : env.function setting mods head tail = .ok accepted)

include reads function

omit reads in
theorem host_of_function : (env.frame.isModule || env.frame.isClass) = true := by
  simp only [Environment.function, Checked.bind_eq_ok] at function
  obtain ⟨_, _, _, place, _⟩ := function
  exact Environment.functionPlace place

-- The same header declares the same function wherever functions may stand.
theorem declares_of_function (pass : setting.declaring = true) :
    accepted.node = none ∧ ∃ body,
      env.addFunction? (env.definition mods h body) = some accepted.environment ∧
      ∀ other declared : Environment, other.requireFunctionPlace head = env.requireFunctionPlace head →
        other.addFunction? (other.definition mods h body) = some declared →
        other.function setting mods head tail = .ok ⟨declared, none⟩ := by
  simp only [Environment.function, Checked.bind_eq_ok, reads.header env, Except.ok.injEq,
    exists_eq_left'] at function
  obtain ⟨_, mutability, _, place, function⟩ := function
  have again (body : FunctionBody) (other declared : Environment)
      (place' : other.requireFunctionPlace head = env.requireFunctionPlace head)
      (added : other.addFunction? (other.definition mods h body) = some declared) :
      other.requireFunctionPlace head = .ok () ∧
        other.declareFunction mods h body = .ok ⟨declared, none⟩ := by
    refine ⟨place'.trans place, ?_⟩
    unfold Environment.definition at added
    simp only [Environment.declareFunction, added]
  cases host : h.hostClass with
  | none =>
      simp only [host, pass, if_true] at function
      obtain ⟨added, node⟩ := Environment.declareFunction_eq_ok function
      refine ⟨node, .pending, added, fun other declared place' added' => ?_⟩
      obtain ⟨place', declares⟩ := again .pending other declared place' added'
      simp only [Environment.function, mutability, place', reads.header other, Checked.ok_bind, host,
        pass, if_true, declares]
  | some hostClass =>
      simp only [host, pass, if_true] at function
      cases bound : NativeBinding.bind setting.host hostClass.lexeme h.name.lexeme h.paramTypes
          h.returnType with
      | error => simp [bound] at function
      | ok binding =>
          simp only [bound] at function
          obtain ⟨added, node⟩ := Environment.declareFunction_eq_ok function
          refine ⟨node, .native binding, added, fun other declared place' added' => ?_⟩
          obtain ⟨place', declares⟩ := again (.native binding) other declared place' added'
          simp only [Environment.function, mutability, place', reads.header other, Checked.ok_bind,
            host, pass, if_true, bound, declares]

-- The second pass opens the body, if there is one.
theorem opens_of_function (pass : setting.declaring = false) :
    (item.last.kind = .leftBrace ∧ ∃ node, accepted =
      ⟨env.openBody h.returnType (.function env.owner h.name.lexeme h.paramTypes) h.params h.name
        node, none⟩) ∨
      (item.last.kind = .semicolon ∧ ∃ node, accepted = ⟨env, some node⟩) := by
  have ends := (Header.read_eq_ok (reads.header env)).2.2
  have last := reads.ends
  simp only [Environment.function, Checked.bind_eq_ok, reads.header env, Except.ok.injEq,
    exists_eq_left'] at function
  obtain ⟨_, _, _, _, function⟩ := function
  cases host : h.hostClass with
  | none =>
      simp only [host] at ends
      simp only [host, pass, Bool.false_eq_true, if_false, Except.ok.injEq] at function
      exact .inl ⟨last ▸ ends, _, function.symm⟩
  | some hostClass =>
      simp only [host] at ends
      simp only [host, pass, Bool.false_eq_true, if_false, Except.ok.injEq] at function
      exact .inr ⟨last ▸ ends, _, function.symm⟩

end Function

theorem accepted (remaining : p.remaining = item.text ++ rest) (step : AnalysisState.CleanStep p p') :
    p.pendingDo = none ∧ ∃ mods head tail h accepted, item.Reads mods head tail h ∧
      p.environment.function p.setting mods head tail = .ok accepted ∧
      p' = { p with
        remaining := if p.declaring then rest else item.block ++ rest
        environment := accepted.settled p.setting } := by
  obtain ⟨first, tail, same, last, notClosing, loop, takes⟩ := takes remaining
  -- What is read outside of blocks is read where the pass is.
  have settles {warned : Environment} {log : DiagnosticLog} {accepted : Accepted}
      (warns : p.environment.Warned warned)
      (read : warned.statement p.setting first tail = ⟨accepted.environment, .ok accepted.node⟩)
      (checked : p.checkReachable first = { p with environment := warned, log }) :
      warned = p.environment ∧ log = p.log ∧ ∃ mods head later h, item.Reads mods head later h ∧
        p.environment.function p.setting mods head later = .ok accepted := by
    obtain ⟨mods, head, later, h, reads, function⟩ := function_of_statement same read
    have bare := isBlock_of_host (host_of_function function)
    have same : warned = p.environment := by
      cases warns with
      | same => rfl
      | marked frame =>
          rw [Environment.frame, Environment.modifyBlock, ScopeStack.modifyCurrentBlock,
            ScopeStack.current_modifyCurrent, show p.environment.scopes.current.frame = _ from frame] at bare
          cases bare
    subst same
    rw [checkReachable_bare bare] at checked
    exact ⟨rfl, (congrArg AnalysisState.log checked).symm, mods, head, later, h, reads, function⟩
  cases step.moves with
  | completes _ _ takes' kind =>
      obtain ⟨rfl, -, -⟩ := takes.unique takes' rfl
      exact absurd kind loop
  | closes _ _ remaining' kind =>
      have start := takes.split.1
      rw [remaining', List.cons.injEq] at start
      exact absurd (start.1 ▸ kind) notClosing
  | accepts log idle takes' _ warns modifiers _ stands read checked =>
      obtain ⟨rfl, rfl, rfl⟩ := takes.unique takes' rfl
      obtain ⟨rfl, rfl, mods, head, later, h, reads, function⟩ := settles warns read checked
      refine ⟨idle, mods, head, later, h, _, reads, function, ?_⟩
      cases pass : p.declaring with
      | false => rfl
      | true =>
          have read := reads.modifiers
          rw [same, modifiers] at read
          cases read
          rcases item.ends with ⟨-, block⟩ | ⟨brace, -⟩
          · rw [block]
            rfl
          · obtain ⟨-, body, added, -⟩ := declares_of_function reads function pass
            refine absurd ?_ (stands ((congrArg Token.kind reads.ends).trans brace))
            rw [Environment.length_shape, Environment.length_shape,
              Environment.shape_addFunction? added]
  | skips log idle takes' _ warns modifiers _ brace level skipped read checked =>
      obtain ⟨rfl, rfl, rfl⟩ := takes.unique takes' rfl
      obtain ⟨rfl, rfl, mods, head, later, h, reads, function⟩ := settles warns read checked
      refine ⟨idle, mods, head, later, h, _, reads, function, ?_⟩
      have modified := reads.modifiers
      rw [same, modifiers] at modified
      cases modified
      have brace : item.last.kind = .leftBrace := by
        rw [← reads.ends]
        exact brace
      have beyond := (item.skipBlock_block brace 0 rest).2
      rw [skipped, Option.some.injEq] at beyond
      subst beyond
      cases pass : p.declaring with
      | true => rfl
      | false =>
          rcases opens_of_function reads function pass with ⟨-, node, rfl⟩ | ⟨semicolon, -⟩
          · rw [Environment.depth_openBody] at level
            omega
          · rw [brace] at semicolon
            cases semicolon

theorem statement_of_function {env : Environment} {setting : Setting} {mods : LeadingModifiers}
    {head first : Token} {later tail : List Token} {h : Header} {accepted : Accepted}
    (same : item.heading ++ [item.last] = first :: tail) (reads : item.Reads mods head later h)
    (function : env.function setting mods head later = .ok accepted) :
    env.statement setting first tail = ⟨accepted.environment, .ok accepted.node⟩ := by
  have modifiers := reads.modifiers
  rw [same] at modifiers
  unfold Environment.statement
  rw [modifiers]
  simp only [Environment.dispatch, reads.keyword, Environment.read, function, Outcome.ofChecked]

theorem declares {mods : LeadingModifiers} {head : Token} {tail : List Token} {h : Header}
    {declared : Environment} (remaining : p.remaining = item.text ++ rest) (pass : p.declaring = true)
    (clean : p.Clean) (idle : p.pendingDo = none) (reads : item.Reads mods head tail h)
    (function : p.environment.function p.setting mods head tail = .ok ⟨declared, none⟩)
    (level : declared.scopes.depth = p.environment.scopes.depth) :
    AnalysisState.CleanStep p { p with remaining := rest, environment := declared } := by
  obtain ⟨first, later, same, last, notClosing, -, takes⟩ := takes remaining
  obtain ⟨head', tail', here, next⟩ := takes
  obtain ⟨rfl, -, -⟩ := Chunk.next_statement next
  have bare := isBlock_of_host (host_of_function function)
  have read := statement_of_function same reads function
  have leading : (first :: later).find? (!·.kind.isModifier) = some head := by
    rw [← same]
    exact (AnalysisState.find_head reads.modifiers).1
  refine ⟨?_, clean⟩
  unfold AnalysisState.step
  rw [here]
  simp only [next]
  rw [AnalysisState.statement_idle (by exact idle), AnalysisState.statementOrBrace,
    if_neg (by simpa using notClosing), AnalysisState.readStatement, checkReachable_bare (by exact bare)]
  simp only [read, leading, last, level, Option.getD_some]
  rcases item.ends with ⟨semicolon, block⟩ | ⟨brace, -⟩
  · rw [if_neg (by simp [semicolon]), block]
    rfl
  · rw [if_pos (by simp [brace]), AnalysisState.recover,
      if_pos (by unfold AnalysisState.skipsBody; rw [reads.keyword]; exact pass),
      AnalysisState.skipBlock]
    simp only [(item.skipBlock_block brace 0 rest).2]

end FunctionItem

end MiLanguage
