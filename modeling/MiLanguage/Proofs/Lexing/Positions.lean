import Mathlib.Algebra.GroupWithZero.Nat
import Mathlib.Data.Nat.Count
import Mathlib.Data.Prod.Lex
import MiLanguage.Proofs.Lexing.Lossless

set_option autoImplicit false

namespace MiLanguage

-- A newline of the text takes the byte at `offset`.
def NewlineAt (cs : List Char) (offset : Nat) : Prop :=
  ∃ before after, cs = before ++ '\n' :: after ∧ utf8Length before = offset

variable {cs : List Char} {base offset line start : Nat}

theorem newlineAt_nil : ¬NewlineAt [] offset := by
  rintro ⟨before, after, text, -⟩
  cases before <;> cases text

theorem newlineAt_cons {c : Char} : NewlineAt (c :: cs) offset ↔
    (c = '\n' ∧ offset = 0) ∨ ∃ past, NewlineAt cs past ∧ offset = c.utf8Size + past := by
  constructor
  · rintro ⟨before, after, text, rfl⟩
    cases before with
    | nil => cases text; exact .inl ⟨rfl, rfl⟩
    | cons d before => cases text; exact .inr ⟨_, ⟨before, after, rfl, rfl⟩, rfl⟩
  · rintro (⟨rfl, rfl⟩ | ⟨_, ⟨before, after, rfl, rfl⟩, rfl⟩)
    · exact ⟨[], cs, rfl, rfl⟩
    · exact ⟨c :: before, after, rfl, rfl⟩

theorem mem_lineBreaks {next : Nat} :
    next ∈ lineBreaks base cs ↔ ∃ past, NewlineAt cs past ∧ next = base + past + 1 := by
  induction cs generalizing base with
  | nil => simp [newlineAt_nil]
  | cons c cs ih =>
      have later : (∃ past, NewlineAt cs past ∧ next = base + c.utf8Size + past + 1) ↔
          ∃ past, (∃ more, NewlineAt cs more ∧ past = c.utf8Size + more) ∧ next = base + past + 1 := by
        constructor
        · rintro ⟨past, here, rfl⟩
          exact ⟨_, ⟨past, here, rfl⟩, by omega⟩
        · rintro ⟨_, ⟨past, here, rfl⟩, rfl⟩
          exact ⟨past, here, by omega⟩
      rw [lineBreaks]
      split
      next newline =>
        subst newline
        rw [List.mem_cons, ih, later]
        simp only [newlineAt_cons, or_and_right, exists_or, true_and, exists_eq_left]
        rfl
      next plain => simp only [ih, later, newlineAt_cons, plain, false_and, false_or]

theorem lineBreaks_bounded : ∀ next ∈ lineBreaks base cs, base < next := by
  intro next member
  obtain ⟨past, -, rfl⟩ := mem_lineBreaks.mp member
  omega

theorem lineBreaks_sorted (base : Nat) (cs : List Char) : (lineBreaks base cs).Pairwise (· < ·) := by
  induction cs generalizing base with
  | nil => exact .nil
  | cons c cs ih =>
      rw [lineBreaks]
      split
      next => exact List.pairwise_cons.mpr ⟨lineBreaks_bounded, ih _⟩
      next => exact ih _

-- The line is told by how many lines start no later than `offset`, and the column by the last of
-- these starts.
theorem locate_eq {breaks : List Nat} (sorted : breaks.Pairwise (· < ·)) :
    locate offset line start breaks =
      ⟨line + (breaks.filter (· ≤ offset)).length,
        offset - ((breaks.filter (· ≤ offset)).getLastD start) + 1⟩ := by
  induction breaks generalizing line start with
  | nil => rfl
  | cons next later ih =>
      obtain ⟨first, sorted⟩ := List.pairwise_cons.mp sorted
      rw [locate]
      split
      next reached =>
        rw [ih sorted, List.filter_cons_of_pos (by simpa using reached), List.length_cons, List.getLastD_cons]
        congr 1
        omega
      next beyond =>
        have allLater : (next :: later).filter (· ≤ offset) = [] := by
          refine List.filter_eq_nil_iff.mpr fun n member => ?_
          rcases List.mem_cons.mp member with rfl | member
          · simpa using beyond
          · have := first n member
            simp only [decide_eq_true_eq]
            omega
        rw [allLater]
        rfl

instance : DecidablePred (NewlineAt cs) := fun offset =>
  decidable_of_iff (offset + 1 ∈ lineBreaks 0 cs) <| mem_lineBreaks.trans
    ⟨fun ⟨past, here, same⟩ => by
      obtain rfl : offset = past := by omega
      exact here,
    fun here => ⟨offset, here, by omega⟩⟩

-- The line starts that are no later than the offset, first to last.
def startsUpTo (text : String) (offset : Nat) : List Nat :=
  (lineBreaks 0 text.toList).filter (· ≤ offset)

variable {text : String} {next : Nat}

theorem mem_startsUpTo : next ∈ startsUpTo text offset ↔
    ∃ past, NewlineAt text.toList past ∧ past < offset ∧ next = past + 1 := by
  rw [startsUpTo, List.mem_filter, mem_lineBreaks, decide_eq_true_eq]
  constructor
  · rintro ⟨⟨past, here, rfl⟩, reached⟩
    exact ⟨past, here, by omega, by omega⟩
  · rintro ⟨past, here, before, rfl⟩
    exact ⟨⟨past, here, by omega⟩, by omega⟩

theorem startsUpTo_sorted (text : String) (offset : Nat) :
    (startsUpTo text offset).Pairwise (· < ·) :=
  (lineBreaks_sorted 0 text.toList).filter _

theorem ofOffset_eq (text : String) (offset : Nat) : Position.ofOffset text offset =
    ⟨1 + (startsUpTo text offset).length, offset - (startsUpTo text offset).getLastD 0 + 1⟩ :=
  locate_eq (lineBreaks_sorted 0 text.toList)

theorem length_startsUpTo (text : String) (offset : Nat) :
    (startsUpTo text offset).length = Nat.count (NewlineAt text.toList) offset := by
  have distinct : (startsUpTo text offset).Nodup :=
    (startsUpTo_sorted text offset).imp Nat.ne_of_lt
  have shifted : (startsUpTo text offset).toFinset =
      ((Finset.range offset).filter (NewlineAt text.toList)).image Nat.succ := by
    ext next
    simp only [List.mem_toFinset, mem_startsUpTo, Finset.mem_image, Finset.mem_filter, Finset.mem_range]
    constructor
    · rintro ⟨past, here, before, rfl⟩
      exact ⟨past, ⟨before, here⟩, rfl⟩
    · rintro ⟨past, ⟨before, here⟩, rfl⟩
      exact ⟨past, here, before, rfl⟩
  rw [← List.toFinset_card_of_nodup distinct, shifted,
    Finset.card_image_of_injective _ Nat.succ_injective, Nat.count_eq_card_filter_range]

-- In an increasing list the last is the one that no other exceeds.
theorem getLastD_of_greatest {starts : List Nat} (sorted : starts.Pairwise (· < ·))
    (member : next ∈ starts) (greatest : ∀ n ∈ starts, n ≤ next) (default : Nat) :
    starts.getLastD default = next := by
  rcases List.eq_nil_or_concat starts with rfl | ⟨init, last, rfl⟩
  · cases member
  · rw [List.concat_eq_append] at *
    rw [List.getLastD_concat]
    rw [List.pairwise_append] at sorted
    have most := greatest last (List.mem_append_right _ List.mem_cons_self)
    rcases List.mem_append.mp member with inside | same
    · have less := sorted.2.2 next inside last List.mem_cons_self
      omega
    · exact (List.mem_singleton.mp same).symm

theorem column_after_newline {past : Nat} (newline : NewlineAt text.toList past) (before : past < offset)
    (last : ∀ later, past < later → later < offset → ¬NewlineAt text.toList later) :
    (Position.ofOffset text offset).column = 1 + (offset - (past + 1)) := by
  have start := getLastD_of_greatest (startsUpTo_sorted text offset)
    (mem_startsUpTo.mpr ⟨past, newline, before, rfl⟩) (fun n member => by
      obtain ⟨other, here, below, rfl⟩ := mem_startsUpTo.mp member
      refine Nat.succ_le_succ (Nat.le_of_not_lt fun later => ?_)
      exact last other later below here) 0
  rw [ofOffset_eq, start]
  exact Nat.add_comm _ 1

theorem column_in_first_line (noBreak : ∀ past < offset, ¬NewlineAt text.toList past) :
    (Position.ofOffset text offset).column = 1 + offset := by
  have empty : startsUpTo text offset = [] := by
    refine List.eq_nil_iff_forall_not_mem.mpr fun n member => ?_
    obtain ⟨past, here, before, -⟩ := mem_startsUpTo.mp member
    exact noBreak past before here
  rw [ofOffset_eq, empty]
  exact Nat.add_comm _ 1

-- Lines first, then columns.
def Position.key (p : Position) : Nat ×ₗ Nat := toLex (p.line, p.column)

theorem position_strictMono (text : String) :
    StrictMono fun offset => (Position.ofOffset text offset).key := by
  intro low high less
  have sublist : (startsUpTo text low).Sublist (startsUpTo text high) :=
    List.monotone_filter_right _ fun n reached => by
      simp only [decide_eq_true_eq] at reached ⊢
      omega
  simp only [ofOffset_eq, Position.key, Prod.Lex.toLex_lt_toLex]
  rcases Nat.lt_or_eq_of_le sublist.length_le with fewer | same
  · exact .inl (Nat.add_lt_add_left fewer 1)
  · -- On one line, whose start is no later than either.
    have one := sublist.eq_of_length same
    refine .inr ⟨by rw [one], ?_⟩
    have reached : (startsUpTo text low).getLastD 0 ≤ low := by
      rcases List.eq_nil_or_concat (startsUpTo text low) with noStart | ⟨init, last, starts⟩
      · rw [noStart]
        exact Nat.zero_le low
      · rw [List.concat_eq_append] at starts
        obtain ⟨past, -, before, rfl⟩ :=
          mem_startsUpTo.mp (starts ▸ List.mem_append_right init List.mem_cons_self)
        rw [starts, List.getLastD_concat]
        exact before
    rw [← one]
    omega

section Counting

theorem lineBreaks_append (base : Nat) (cs ds : List Char) :
    lineBreaks base (cs ++ ds) = lineBreaks base cs ++ lineBreaks (base + utf8Length cs) ds := by
  induction cs generalizing base with
  | nil => rfl
  | cons c cs ih =>
      rw [List.cons_append, lineBreaks, lineBreaks, ih, utf8Length, Nat.add_assoc]
      split <;> rfl

theorem length_lineBreaks (base : Nat) (cs : List Char) :
    (lineBreaks base cs).length = cs.count '\n' := by
  induction cs generalizing base with
  | nil => rfl
  | cons c cs ih =>
      rw [lineBreaks]
      split
      next newline => rw [List.length_cons, ih, newline, List.count_cons_self]
      next plain => rw [ih, List.count_cons_of_ne plain]

theorem NewlineAt.before_end (newline : NewlineAt cs offset) : offset < utf8Length cs := by
  obtain ⟨before, after, rfl, rfl⟩ := newline
  rw [utf8Length_append]
  exact Nat.lt_add_of_pos_right (Nat.lt_of_lt_of_le Nat.one_pos (Nat.le_add_right _ _))

theorem line_of_split {front rest : List Char} (split : text.toList = front ++ rest) :
    (Position.ofOffset text (utf8Length front)).line = 1 + front.count '\n' := by
  have starts : startsUpTo text (utf8Length front) = lineBreaks 0 front := by
    rw [startsUpTo, split, lineBreaks_append, List.filter_append]
    have all : (lineBreaks 0 front).filter (· ≤ utf8Length front) = lineBreaks 0 front := by
      refine List.filter_eq_self.mpr fun next member => ?_
      obtain ⟨past, here, rfl⟩ := mem_lineBreaks.mp member
      have inside := here.before_end
      simp only [decide_eq_true_eq]
      omega
    have behind : (lineBreaks (0 + utf8Length front) rest).filter (· ≤ utf8Length front) = [] := by
      refine List.filter_eq_nil_iff.mpr fun next member => ?_
      have past := lineBreaks_bounded next member
      simp only [decide_eq_true_eq]
      omega
    rw [all, behind, List.append_nil]
  rw [ofOffset_eq, starts, length_lineBreaks]

-- A place in front of some text is in a line that counts.
theorem line_le_lineCount {front rest : List Char} (split : text.toList = front ++ rest)
    (nonempty : rest ≠ []) : (Position.ofOffset text (utf8Length front)).line ≤ lineCount text := by
  rcases List.eq_nil_or_concat rest with rfl | ⟨init, last, rfl⟩
  · exact absurd rfl nonempty
  · rw [List.concat_eq_append, ← List.append_assoc] at split
    have whole : text.toList = front ++ (init ++ [last]) := by rw [split, List.append_assoc]
    rw [line_of_split whole, lineCount]
    simp only [split, List.getLast?_concat, List.count_append]
    by_cases newline : last = '\n'
    · subst newline
      simp only [List.count_singleton_self]
      omega
    · simp only [Option.all_some, newline, decide_false, Bool.false_eq_true, if_false]
      omega

end Counting

section Units

variable {unit : SourceUnit} {tokens : List Token}

-- Each unit counts its lines on from those of the units before it.
def Stacked (units : List SourceUnit) : Prop :=
  ∀ before unit after, units = before ++ unit :: after →
    unit.lineOffset = (before.map fun u => lineCount u.text).sum

namespace SourceUnit

theorem lossless_of_tokens (read : unit.tokens = .ok tokens) :
    unit.Lossless unit.text.toList tokens [] := by
  have lossless := tokens_lossless unit
  rwa [read] at lossless

theorem line_bounds (read : unit.tokens = .ok tokens) {t : Token} (member : t ∈ tokens) :
    0 < t.line ∧ t.line ≤ lineCount unit.text := by
  have place := (places_of_tokens read t member).position
  obtain ⟨front, back, text, span, longest⟩ := (lossless_of_tokens read).longest t member
  have start : t.span.start = utf8Length front := by rw [span]; rfl
  have line : t.line = (Position.ofOffset unit.text (utf8Length front)).line := by
    rw [← start, ← place]
  rw [line]
  constructor
  · rw [ofOffset_eq]
    exact Nat.lt_of_lt_of_le Nat.one_pos (Nat.le_add_right 1 _)
  · have whole : unit.text.toList = front ++ (t.lexeme.toList ++ back) := by
      rw [text, List.append_assoc]
    refine line_le_lineCount whole ?_
    exact List.append_ne_nil_of_left_ne_nil (ne_nil_of_spelled longest.spelled) _

theorem streamLine_bounds (read : unit.tokens = .ok tokens) {t : Token} (member : t ∈ tokens) :
    unit.lineOffset < t.streamLine ∧ t.streamLine ≤ unit.lineOffset + lineCount unit.text := by
  have bounds := line_bounds read member
  have stream := (places_of_tokens read t member).streamLine
  omega

theorem streamLine_sorted (read : unit.tokens = .ok tokens) :
    tokens.Pairwise fun t u => t.streamLine ≤ u.streamLine := by
  have lossless := lossless_of_tokens read
  refine lossless.ordered.imp_of_mem fun {t u} first second before => ?_
  have earlier : t.span.start < u.span.start :=
    Nat.lt_of_lt_of_le (lossless.nonempty t first) before
  have order := position_strictMono unit.text earlier
  have here := places_of_tokens read t first
  have there := places_of_tokens read u second
  simp only [← here.position, ← there.position, Position.key, Prod.Lex.toLex_lt_toLex] at order
  rw [here.streamLine, there.streamLine]
  omega

end SourceUnit

-- In units that are stacked on `lines` lines, the lines of a later one come behind those of an
-- earlier one.
theorem streamLines_of_stacked {units : List SourceUnit} {lists : List (List Token)} {lines : Nat}
    (stacked : ∀ before unit after, units = before ++ unit :: after →
      unit.lineOffset = lines + (before.map fun u => lineCount u.text).sum)
    (read : units.mapM SourceUnit.tokens = .ok lists) :
    (∀ list ∈ lists, ∀ t ∈ list, lines < t.streamLine) ∧
      lists.flatten.Pairwise (fun t u => t.streamLine ≤ u.streamLine) ∧
      lists.Pairwise fun list later => ∀ t ∈ list, ∀ u ∈ later, t.streamLine < u.streamLine := by
  induction units generalizing lists lines with
  | nil =>
      cases read
      exact ⟨nofun, .nil, .nil⟩
  | cons unit units ih =>
      rw [List.mapM_cons] at read
      cases first : unit.tokens with
      | error e => rw [first] at read; cases read
      | ok tokens =>
      rw [first] at read
      cases rest : units.mapM SourceUnit.tokens with
      | error e => rw [rest] at read; cases read
      | ok later =>
      rw [rest] at read
      cases read
      have offset : unit.lineOffset = lines := by simpa using stacked [] unit units rfl
      obtain ⟨above, sorted, apart⟩ := @ih later (lines + lineCount unit.text)
        (fun before other after split => by
          rw [stacked (unit :: before) other after (by rw [split]; rfl), List.map_cons, List.sum_cons,
            Nat.add_assoc]) rest
      have bounds (t : Token) (member : t ∈ tokens) := SourceUnit.streamLine_bounds first member
      have before (t : Token) (member : t ∈ tokens) (list : List Token) (inside : list ∈ later)
          (u : Token) (second : u ∈ list) : t.streamLine < u.streamLine := by
        have low := (bounds t member).2
        have high := above list inside u second
        omega
      refine ⟨List.forall_mem_cons.mpr ⟨fun t member => offset ▸ (bounds t member).1, ?_⟩, ?_, ?_⟩
      · intro list inside t member
        exact Nat.lt_of_le_of_lt (Nat.le_add_right _ _) (above list inside t member)
      · rw [List.flatten_cons, List.pairwise_append]
        refine ⟨SourceUnit.streamLine_sorted first, sorted, fun t member u second => ?_⟩
        obtain ⟨list, inside, second⟩ := List.mem_flatten.mp second
        exact Nat.le_of_lt (before t member list inside u second)
      · exact List.pairwise_cons.mpr ⟨fun list inside t member => before t member list inside, apart⟩

end Units

-- The units of a program, in the order in which they are read.
def programUnits (text : String) (withLibrary : Bool) : List SourceUnit :=
  (if withLibrary then [SourceUnit.library] else []) ++ [.user text withLibrary]

theorem programTokens_eq (text : String) (withLibrary : Bool) :
    programTokens text withLibrary = unitTokens (programUnits text withLibrary) := by
  cases withLibrary with
  | false =>
      show (do let second ← (SourceUnit.user text false).tokens; .ok ([] ++ second)) =
        unitTokens [.user text false]
      unfold unitTokens
      rw [List.mapM_cons, List.mapM_nil]
      cases (SourceUnit.user text false).tokens with
      | error e => rfl
      | ok tokens => exact congrArg Except.ok (List.append_nil tokens).symm
  | true =>
      show (do let first ← SourceUnit.library.tokens; let second ← (SourceUnit.user text true).tokens
               .ok (first ++ second)) = unitTokens [.library, .user text true]
      unfold unitTokens
      rw [List.mapM_cons, List.mapM_cons, List.mapM_nil]
      cases SourceUnit.library.tokens with
      | error e => rfl
      | ok first =>
          cases (SourceUnit.user text true).tokens with
          | error e => rfl
          | ok second =>
              refine congrArg Except.ok ?_
              rw [List.flatten_cons, List.flatten_cons, List.flatten_nil, List.append_nil]

theorem programUnits_stacked (text : String) (withLibrary : Bool) :
    Stacked (programUnits text withLibrary) := by
  intro before unit after split
  cases withLibrary with
  | false =>
      have split : [SourceUnit.user text false] = before ++ unit :: after := split
      match before, split with
      | [], split => cases split; rfl
      | _ :: _, split => simp at split
  | true =>
      have split : [.library, SourceUnit.user text true] = before ++ unit :: after := split
      match before, split with
      | [], split =>
          obtain ⟨rfl, -⟩ := List.cons.inj split
          rw [List.map_nil, List.sum_nil]
          rfl
      | [_], split =>
          obtain ⟨first, split⟩ := List.cons.inj split
          obtain ⟨rfl, -⟩ := List.cons.inj split
          rw [List.map_cons, List.map_nil, List.sum_cons, List.sum_nil, Nat.add_zero, ← first]
          simp only [SourceUnit.user, SourceUnit.library, if_true]
      | _ :: _ :: _, split => simp at split

/-- Positions are exact, and so ordered that no two units share a line of the stream. -/
theorem positions_exact :
    (∀ text offset,
      (Position.ofOffset text offset).line = 1 + Nat.count (NewlineAt text.toList) offset ∧
      (∀ past < offset, NewlineAt text.toList past →
        (∀ later, past < later → later < offset → ¬NewlineAt text.toList later) →
        (Position.ofOffset text offset).column = 1 + (offset - (past + 1))) ∧
      ((∀ past < offset, ¬NewlineAt text.toList past) →
        (Position.ofOffset text offset).column = 1 + offset)) ∧
    (∀ text, Function.Injective (Position.ofOffset text) ∧
      StrictMono fun offset => (Position.ofOffset text offset).key) ∧
    (∀ (unit : SourceUnit) tokens, unit.tokens = .ok tokens → ∀ t ∈ tokens,
      (⟨t.line, t.column⟩ : Position) = .ofOffset unit.text t.span.start ∧
        t.line ≤ lineCount unit.text) ∧
    (∀ units lists, Stacked units → units.mapM SourceUnit.tokens = .ok lists →
      lists.flatten.Pairwise (fun t u => t.streamLine ≤ u.streamLine) ∧
        lists.Pairwise fun list later => ∀ t ∈ list, ∀ u ∈ later, t.streamLine ≠ u.streamLine) ∧
    ∀ text withLibrary, Stacked (programUnits text withLibrary) ∧
      programTokens text withLibrary = unitTokens (programUnits text withLibrary) := by
  refine ⟨fun text offset => ⟨?_, fun past => ?_, column_in_first_line⟩, fun text => ⟨?_, ?_⟩, ?_, ?_, ?_⟩
  · rw [ofOffset_eq, length_startsUpTo]
  · exact fun before newline last => column_after_newline newline before last
  · exact fun low high same =>
      (position_strictMono text).injective (congrArg Position.key same)
  · exact position_strictMono text
  · exact fun unit tokens read t member =>
      ⟨(SourceUnit.places_of_tokens read t member).position, (SourceUnit.line_bounds read member).2⟩
  · intro units lists stacked read
    obtain ⟨-, sorted, apart⟩ := @streamLines_of_stacked units lists 0
      (fun before unit after split => by rw [stacked before unit after split, Nat.zero_add]) read
    exact ⟨sorted, apart.imp fun clear t member u second => Nat.ne_of_lt (clear t member u second)⟩
  · exact fun text withLibrary => ⟨programUnits_stacked text withLibrary, programTokens_eq text withLibrary⟩

def twoUnits : List SourceUnit := [{ text := "a;\n" }, { text := "b", fileId := 2, lineOffset := 1 }]

theorem twoUnits_stacked : Stacked twoUnits := by
  intro before unit after split
  match before, split with
  | [], split => cases split; rfl
  | [_], split => cases split; decide
  | _ :: _ :: _, split => simp [twoUnits] at split

-- The second unit starts in the second line of the stream, though a newline ends the first.
theorem twoUnits_apart : ∃ lists, twoUnits.mapM SourceUnit.tokens = .ok lists ∧
    lists.flatten.map Token.streamLine = [1, 1, 2] ∧
    lists.flatten.Pairwise (fun t u => t.streamLine ≤ u.streamLine) ∧
    lists.Pairwise fun list later => ∀ t ∈ list, ∀ u ∈ later, t.streamLine ≠ u.streamLine := by
  have lines : (twoUnits.mapM SourceUnit.tokens).map (·.flatten.map Token.streamLine) = .ok [1, 1, 2] := by
    decide +kernel
  cases read : twoUnits.mapM SourceUnit.tokens with
  | error e => rw [read] at lines; cases lines
  | ok lists =>
      rw [read] at lines
      have apart := positions_exact.2.2.2.1 twoUnits lists twoUnits_stacked read
      exact ⟨lists, rfl, Except.ok.inj lines, apart⟩

end MiLanguage
