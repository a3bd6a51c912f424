import MiLanguage.Proofs.Analysis.Pass

set_option autoImplicit false

namespace MiLanguage

-- Text that ends where a statement ends, if there is any.
def Whole (front : List Token) : Prop :=
  ∀ t, front.getLast? = some t → t.kind.isTerminator = true

instance (front : List Token) : Decidable (Whole front) :=
  decidable_of_iff ((front.getLast?.all (·.kind.isTerminator)) = true) <| by
    unfold Whole
    cases front.getLast? <;> simp

theorem Whole.suffix {front later : List Token} (whole : Whole front) (suffix : later <:+ front) :
    Whole later := by
  intro t last
  obtain ⟨before, rfl⟩ := suffix
  refine whole t ?_
  rw [List.getLast?_append, last]
  rfl

theorem Whole.exists_mem {front : List Token} (whole : Whole front) (nonempty : front ≠ []) :
    ∃ t ∈ front, t.kind.isTerminator = true :=
  ⟨_, List.getLast_mem nonempty, whole _ (List.getLast?_eq_some_getLast nonempty)⟩

namespace Chunk

-- A statement that ends in front is read without regard to what follows.
theorem readFrom_front (first : Token) (read : List Token) {front : List Token}
    (ends : ∃ t ∈ front, t.kind.isTerminator = true) :
    ∃ chunk later, later <:+ front ∧
      ∀ rest, readFrom first read (front ++ rest) = (chunk, later ++ rest) := by
  induction front generalizing read with
  | nil => obtain ⟨t, member, _⟩ := ends; cases member
  | cons t front ih =>
      have tail : front <:+ t :: front := List.suffix_cons t front
      have further (other : t.kind.isTerminator = false) : ∃ t ∈ front, t.kind.isTerminator = true := by
        obtain ⟨u, member, terminator⟩ := ends
        rcases List.mem_cons.mp member with rfl | member
        · rw [terminator] at other
          cases other
        · exact ⟨u, member, terminator⟩
      simp only [List.cons_append, readFrom]
      split
      · exact ⟨_, t :: front, List.suffix_refl _, fun _ => rfl⟩
      · exact ⟨_, front, tail, fun _ => rfl⟩
      · exact ⟨_, front, tail, fun _ => rfl⟩
      next brace semicolon leftBrace =>
        have other : t.kind.isTerminator = false := by
          unfold TokenKind.isTerminator
          split
          · exact absurd ‹_› semicolon
          · exact absurd ‹_› leftBrace
          · exact absurd ‹_› brace
          · rfl
        obtain ⟨chunk, later, suffix, reads⟩ := ih (read ++ [t]) (further other)
        exact ⟨chunk, later, suffix.trans tail, reads⟩

theorem next_front {first : Token} {front : List Token} (whole : Whole (first :: front)) :
    ∃ chunk later, later <:+ front ∧
      ∀ rest, next first (front ++ rest) = (chunk, later ++ rest) := by
  unfold next
  cases terminator : first.kind.isTerminator with
  | true => exact ⟨_, front, List.suffix_refl _, fun _ => rfl⟩
  | false =>
      refine readFrom_front first [] ?_
      obtain ⟨t, member, ends⟩ := whole.exists_mem (List.cons_ne_nil first front)
      rcases List.mem_cons.mp member with rfl | member
      · rw [terminator] at ends
        cases ends
      · exact ⟨t, member, ends⟩

-- A block either ends in front, or is open behind it.
theorem skipBlock_front (depth : Nat) (front : List Token) :
    (∃ later, later <:+ front ∧ ∀ rest, skipBlock depth (front ++ rest) = some (later ++ rest)) ∨
      ∃ inner, ∀ rest, skipBlock depth (front ++ rest) = skipBlock inner rest := by
  induction front generalizing depth with
  | nil => exact .inr ⟨depth, fun _ => rfl⟩
  | cons t front ih =>
      have tail : front <:+ t :: front := List.suffix_cons t front
      have further (inner : Nat)
          (same : ∀ rest, skipBlock depth (t :: front ++ rest) = skipBlock inner (front ++ rest)) :
          (∃ later, later <:+ t :: front ∧
            ∀ rest, skipBlock depth (t :: front ++ rest) = some (later ++ rest)) ∨
          ∃ inner, ∀ rest, skipBlock depth (t :: front ++ rest) = skipBlock inner rest := by
        rcases ih inner with ⟨later, suffix, ends⟩ | ⟨innermost, opens⟩
        · exact .inl ⟨later, suffix.trans tail, fun rest => (same rest).trans (ends rest)⟩
        · exact .inr ⟨innermost, fun rest => (same rest).trans (opens rest)⟩
      by_cases left : t.kind = .leftBrace
      · exact further (depth + 1) fun rest => skipBlock_leftBrace left depth _
      · by_cases right : t.kind = .rightBrace
        · cases depth with
          | zero => exact .inl ⟨front, tail, fun rest => by simp [skipBlock, right]⟩
          | succ depth => exact further depth fun rest => skipBlock_rightBrace right depth _
        · exact further depth fun rest => skipBlock_plain left right depth _

end Chunk

namespace AnalysisState

variable {s t : AnalysisState}

-- The state with another text to be read.
def facing (s : AnalysisState) (text : List Token) : AnalysisState := { s with remaining := text }

section Facing

variable (s) (left : List Token)

theorem flushDo_facing : (s.facing left).flushDo = s.flushDo.facing left := by
  have same : (s.facing left).pendingDo = s.pendingDo := rfl
  unfold flushDo
  rw [same]
  cases s.pendingDo <;> rfl

theorem closeFunction_facing (b : Block) (node : Node) (brace : Token) :
    (s.facing left).closeFunction b node brace = (s.closeFunction b node brace).facing left := by
  rw [closeFunction_eq, closeFunction_eq]
  cases b.returnType with
  | none => rfl
  | some type =>
      dsimp only
      split <;> rfl

theorem closeFrame_facing (frame : Frame) (node : Node) (brace : Token) :
    (s.facing left).closeFrame frame node brace = (s.closeFrame frame node brace).facing left := by
  have same : (s.facing left).declaring = s.declaring := rfl
  cases frame with
  | parent | module => rfl
  | «class» | enum =>
      simp only [closeFrame, same]
      cases s.declaring <;> rfl
  | block kind b =>
      cases kind with
      | function => exact closeFunction_facing s left b node brace
      | forLoop =>
          have same : ((s.facing left).append node).environment.scopes.pop? =
              (s.append node).environment.scopes.pop? := rfl
          simp only [closeFrame, same]
          cases (s.append node).environment.scopes.pop? <;> rfl
      | branch | whileLoop | doLoop | loopHead => rfl

theorem closeScope_facing (brace : Token) :
    (s.facing left).closeScope brace = (s.closeScope brace).facing left := by
  have same : (s.facing left).environment.scopes.pop? = s.environment.scopes.pop? := rfl
  unfold closeScope
  rw [same]
  cases s.environment.scopes.pop? with
  | none => rfl
  | some found =>
      dsimp only
      split
      · rfl
      · exact closeFrame_facing { s with environment := { s.environment with scopes := found.2 } }
          left found.1.frame found.1.node brace

theorem finishDo_facing (block : Node) (keyword : Token) (condition : List Token) :
    (s.facing left).finishDo block keyword condition =
      (s.finishDo block keyword condition).facing left := by
  have same : (s.facing left).environment.wrappedCondition condition keyword =
      s.environment.wrappedCondition condition keyword := rfl
  unfold finishDo
  dsimp only
  rw [same]
  cases s.environment.wrappedCondition condition keyword <;> rfl

end Facing

-- What is done without regard to the text that is left, but that a block may be skipped in the end.
def Heedless (f : List Token → AnalysisState) : Prop :=
  (∃ v : AnalysisState, ∀ left, f left = v.facing left) ∨
    ∃ (v : AnalysisState) (brace : Token), ∀ left, f left = (v.facing left).skipBlock brace

theorem skipBlock_facing (s : AnalysisState) (left : List Token) (brace : Token) :
    (s.facing left).skipBlock brace = match Chunk.skipBlock 0 left with
      | some rest => s.facing rest
      | none => (s.facing []).report (SyntaxFault.expected .rightBrace "to close this block") brace :=
  rfl

theorem skipBlock_append (s : AnalysisState) (brace : Token) (node : Node) :
    (s.skipBlock brace).append node = (s.append node).skipBlock brace := by
  have same : (s.append node).remaining = s.remaining := rfl
  unfold skipBlock
  rw [same]
  cases Chunk.skipBlock 0 s.remaining <;> rfl

theorem Heedless.append {f : List Token → AnalysisState} (heedless : Heedless f) (node : Node) :
    Heedless fun left => (f left).append node := by
  rcases heedless with ⟨v, same⟩ | ⟨v, brace, same⟩
  · exact .inl ⟨v.append node, fun left => congrArg (·.append node) (same left)⟩
  · exact .inr ⟨v.append node, brace, fun left =>
      (congrArg (·.append node) (same left)).trans (skipBlock_append _ brace node)⟩

theorem heedless_readStatement (s : AnalysisState) (first : Token) (rest : List Token) :
    Heedless fun left => (s.facing left).readStatement first rest := by
  have checked (left : List Token) :
      (s.facing left).checkReachable first = (s.checkReachable first).facing left :=
    checkReachable_remaining s left first
  unfold readStatement
  simp only [checked]
  generalize s.checkReachable first = w
  have recovered (u : AnalysisState) : Heedless fun left =>
      if (rest.getLast?.getD first).is .leftBrace &&
          (u.facing left).environment.scopes.depth = (w.facing left).environment.scopes.depth then
        (u.facing left).recover (((first :: rest).find? (!·.kind.isModifier)).getD first)
          (rest.getLast?.getD first)
      else u.facing left := by
    by_cases brace : ((rest.getLast?.getD first).is .leftBrace &&
        u.environment.scopes.depth = w.environment.scopes.depth) = true
    · by_cases skips : u.skipsBody (((first :: rest).find? (!·.kind.isModifier)).getD first) = true
      · exact .inr ⟨u, _, fun left => (if_pos brace).trans (if_pos skips)⟩
      · exact .inl ⟨u.pushRecovery _, fun left => (if_pos brace).trans (if_neg skips)⟩
    · exact .inl ⟨u, fun _ => if_neg brace⟩
  have read (left : List Token) : (w.facing left).environment.statement (w.facing left).setting first
      rest = w.environment.statement w.setting first rest := rfl
  simp only [read]
  generalize w.environment.statement w.setting first rest = outcome
  obtain ⟨after, result⟩ := outcome
  cases result with
  | error r => exact recovered ({ w with environment := after }.reportTo r)
  | ok node =>
      have done := recovered { w with environment := after }
      cases node with
      | none => exact done
      | some node => exact done.append node

theorem heedless_statementOrBrace (s : AnalysisState) (first : Token) (rest : List Token) :
    Heedless fun left => (s.facing left).statementOrBrace first rest := by
  unfold statementOrBrace
  split
  · exact .inl ⟨_, fun left => closeScope_facing s left first⟩
  · exact heedless_readStatement s first rest

theorem heedless_statement (s : AnalysisState) (first : Token) (rest : List Token) :
    Heedless fun left => (s.facing left).statement first rest := by
  cases waiting : s.pendingDo with
  | none =>
      have same (left : List Token) : (s.facing left).statement first rest =
          (s.facing left).statementOrBrace first rest :=
        statement_idle (s := s.facing left) waiting first rest
      simp only [same]
      exact heedless_statementOrBrace s first rest
  | some block =>
      have same (left : List Token) := statement_waiting (s := s.facing left) waiting first rest
      simp only [same]
      split
      · exact .inl ⟨_, fun left => finishDo_facing s left block first rest.dropLast⟩
      · have flushed (left : List Token) :
            ((s.facing left).report (SyntaxFault.doWithoutWhile false) first).flushDo =
              (s.report (SyntaxFault.doWithoutWhile false) first).flushDo.facing left :=
          flushDo_facing (s.report (SyntaxFault.doWithoutWhile false) first) left
        simp only [flushed]
        exact heedless_statementOrBrace _ first rest

/-- Two runs that are ahead of a place from where on their texts differ. -/
structure Ahead (text other : List Token) (s t : AnalysisState) : Prop where
  front : ∃ front, Whole front ∧ s.remaining = front ++ text ∧ t = s.facing (front ++ other)

variable {text other : List Token}

-- The end of a block has been skipped to that is open at the head of the text.
def Beyond (text : List Token) (s : AnalysisState) : Prop :=
  ∃ depth, s.remaining = (Chunk.skipBlock depth text).getD []

theorem Heedless.ahead {f : List Token → AnalysisState} (heedless : Heedless f)
    (level : ∀ depth, Chunk.skipBlock depth text = Chunk.skipBlock depth other)
    {front : List Token} (whole : Whole front) :
    Ahead text other (f (front ++ text)) (f (front ++ other)) ∨
      f (front ++ other) = f (front ++ text) ∧ Beyond text (f (front ++ text)) := by
  rcases heedless with ⟨v, same⟩ | ⟨v, brace, same⟩
  · rw [same, same]
    exact .inl ⟨front, whole, rfl, rfl⟩
  · rw [same, same, skipBlock_facing, skipBlock_facing]
    rcases Chunk.skipBlock_front 0 front with ⟨later, suffix, ends⟩ | ⟨inner, opens⟩
    · rw [ends, ends]
      exact .inl ⟨later, whole.suffix suffix, rfl, rfl⟩
    · rw [opens, opens, ← level]
      refine .inr ⟨rfl, inner, ?_⟩
      cases Chunk.skipBlock inner text <;> rfl

theorem Ahead.step (level : ∀ depth, Chunk.skipBlock depth text = Chunk.skipBlock depth other)
    (ahead : Ahead text other s t) (before : s.remaining ≠ text) :
    ∃ s' t', s.step = some s' ∧ t.step = some t' ∧
      (Ahead text other s' t' ∨ t' = s' ∧ Beyond text s') := by
  obtain ⟨front, whole, remaining, rfl⟩ := ahead.front
  cases front with
  | nil => exact absurd remaining before
  | cons first front =>
      obtain ⟨chunk, later, suffix, reads⟩ := Chunk.next_front whole
      have left : Whole later := whole.suffix (suffix.trans (List.suffix_cons first front))
      have same (rest : List Token) : (s.facing (first :: front ++ rest)).step =
          some (match chunk with
            | .statement first tail => (s.facing (later ++ rest)).statement first tail
            | .endsAtBrace brace =>
                (s.facing (later ++ rest)).report (SyntaxFault.expected .semicolon "before '\x7d'") brace
            | .endsAtInput last =>
                (s.facing (later ++ rest)).report (SyntaxFault.expected .semicolon "at end of input")
                  last) := by
        unfold step
        simp only [facing, List.cons_append, reads]
        cases chunk <;> rfl
      have here : s.facing (first :: front ++ text) = s := by rw [← remaining]; rfl
      have mine := same text
      rw [here] at mine
      refine ⟨_, _, mine, same other, ?_⟩
      cases chunk with
      | statement first tail => exact (heedless_statement s first tail).ahead level left
      | endsAtBrace | endsAtInput => exact .inl ⟨later, left, rfl, rfl⟩

theorem Ahead.arrived (ahead : Ahead text other s t) (here : s.remaining = text) :
    t = s.facing other := by
  obtain ⟨front, _, remaining, rfl⟩ := ahead.front
  have length := congrArg List.length (here.symm.trans remaining)
  rw [List.length_append] at length
  have empty : front = [] := List.eq_nil_of_length_eq_zero (by omega)
  rw [empty]
  rfl

-- A run that comes to `v` without an error passes over the place, or is still ahead of it, or comes
-- by it at `u`. The other run does the same until then.
theorem Ahead.leads (level : ∀ depth, Chunk.skipBlock depth text = Chunk.skipBlock depth other)
    {v : AnalysisState} (ahead : Ahead text other s t) (leads : s.Leads v) :
    t.Leads v ∨ (∃ w, t.Leads w ∧ Ahead text other v w) ∨
      ∃ u, s.Leads u ∧ u.Leads v ∧ u.remaining = text ∧ t.Leads (u.facing other) := by
  induction leads using Relation.ReflTransGen.head_induction_on generalizing t with
  | refl => exact .inr (.inl ⟨t, .refl, ahead⟩)
  | @head s s' step leads ih =>
      by_cases arrived : s.remaining = text
      · refine .inr (.inr ⟨s, .refl, .head step leads, arrived, ?_⟩)
        rw [ahead.arrived arrived]
        exact .refl
      · obtain ⟨u, w, mine, theirs, both⟩ := ahead.step level arrived
        rw [step.1] at mine
        cases mine
        have clean : w.Clean := by
          rcases both with both | ⟨same, -⟩
          · obtain ⟨_, _, _, rfl⟩ := both.front
            exact step.2
          · rw [same]
            exact step.2
        have stepped : CleanStep t w := ⟨theirs, clean⟩
        rcases both with both | ⟨rfl, -⟩
        · rcases ih both with past | ⟨x, toX, ahead⟩ | ⟨u, toU, toV, remaining, toOther⟩
          · exact .inl (.head stepped past)
          · exact .inr (.inl ⟨x, .head stepped toX, ahead⟩)
          · exact .inr (.inr ⟨u, .head step toU, toV, remaining, .head stepped toOther⟩)
        · exact .inl (.head stepped leads)

theorem Ahead.arrives (level : ∀ depth, Chunk.skipBlock depth text = Chunk.skipBlock depth other)
    {last : AnalysisState} (ahead : Ahead text other s t) (leads : s.Leads last)
    (ended : last.remaining = []) :
    t.Leads last ∨
      ∃ u, s.Leads u ∧ u.Leads last ∧ u.remaining = text ∧ t.Leads (u.facing other) := by
  rcases ahead.leads level leads with past | ⟨w, toW, still⟩ | arrives
  · exact .inl past
  · obtain ⟨front, _, remaining, _⟩ := still.front
    have here : last.remaining = text := by
      rw [ended] at remaining
      rw [ended, (List.append_eq_nil_iff.mp remaining.symm).2]
    exact .inr ⟨last, leads, .refl, here, still.arrived here ▸ toW⟩
  · exact .inr arrives

end AnalysisState

end MiLanguage
