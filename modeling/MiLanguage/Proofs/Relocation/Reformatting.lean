import MiLanguage.Proofs.Lexing.Layout
import MiLanguage.Proofs.Lexing.Lossless
import MiLanguage.Proofs.Relocation.Analysis

set_option autoImplicit false

namespace MiLanguage

theorem utf8Length_toList (s : String) : utf8Length s.toList = s.utf8ByteSize := by
  suffices ∀ cs : List Char, utf8Length cs = (String.ofList cs).utf8ByteSize by
    rw [this, String.ofList_toList]
  intro cs
  induction cs with
  | nil => rfl
  | cons c cs ih =>
      rw [← List.singleton_append, String.ofList_append, String.utf8ByteSize_append, utf8Length_append,
        ih, ← String.singleton_eq_ofList, String.utf8ByteSize_singleton]
      rfl

-- The text of the unit with this number, in the analysis of a user's text.
def unitText? (userText : String) (file : FileId) : Option String :=
  if file = userFile then some userText
  else if file = libraryFile then some librarySource
  else none

/-- The span is a part of a unit's text, and line and column are those of its start. -/
structure Diagnostic.PointsAt (d : Diagnostic) (place : Span) (text : String) : Prop where
  span : d.span = some place
  start_le_stop : place.start ≤ place.stop
  stop_le : place.stop ≤ text.utf8ByteSize
  position : (⟨d.line, d.column⟩ : Position) = .ofOffset text place.start

-- It points at the user's text or at the library's.
def Diagnostic.Anchored (userText : String) (d : Diagnostic) : Prop :=
  ∃ span text, unitText? userText span.fileId = some text ∧ d.PointsAt span text

section Sites

variable {tokens : List Token}

-- The places that tokens have.
def sites (tokens : List Token) : List (FileId × Site) :=
  tokens.map fun t => (t.span.fileId, t.site)

-- Moves everything that is not where one of the tokens is.
def Relocation.around (tokens : List Token) : Relocation where
  site file site := if (file, site) ∈ sites tokens then site else { site with line := site.line + 1 }
  streamLine := id
  streamLine_zero := rfl

theorem move_around (tokens : List Token) : move (.around tokens) tokens = tokens := by
  refine (List.map_congr_left fun t member => ?_).trans (List.map_id tokens)
  have stays : (Relocation.around tokens).site t.span.fileId t.site = t.site :=
    if_pos (List.mem_map_of_mem member)
  show (⟨t.kind, t.lexeme, _, _, t.streamLine, _⟩ : Token) = t
  rw [stays]
  rfl

theorem site_of_unmoved {d : Diagnostic} {span : Span} (placed : d.span = some span)
    (unmoved : move (.around tokens) d = d) :
    (span.fileId, ⟨d.line, d.column, span.start, span.stop⟩) ∈ sites tokens := by
  refine Decidable.byContradiction fun outside => ?_
  have moved : (move (.around tokens) d).line = d.line + 1 := by
    obtain ⟨severity, kind, message, hints, line, column, _⟩ := d
    cases placed
    exact congrArg Site.line (if_neg outside)
  have line := congrArg Diagnostic.line unmoved
  omega

end Sites

theorem DiagnosticLog.mem_report {log : DiagnosticLog} {d e : Diagnostic}
    (member : e ∈ (log.report d).entries) : e ∈ log.entries ∨ e = d := by
  unfold report at member
  split at member
  · split at member
    · exact .inl member
    · simpa using member
  · simpa using member

theorem DiagnosticLog.mem_reportAll {log : DiagnosticLog} {ds : List Diagnostic} {d : Diagnostic}
    (member : d ∈ (log.reportAll ds).entries) : d ∈ log.entries ∨ d ∈ ds := by
  induction ds generalizing log with
  | nil => exact .inl member
  | cons e ds ih =>
      rcases ih member with first | later
      · rcases mem_report first with old | rfl
        · exact .inl old
        · exact .inr List.mem_cons_self
      · exact .inr (List.mem_cons_of_mem e later)

namespace Analysis

theorem token_of_report {host : Host} {maxErrors : Nat} {tokens : List Token} {d : Diagnostic}
    (reported : d ∈ (ofTokens host maxErrors tokens).log.entries) :
    ∃ t ∈ tokens, d.line = t.line ∧ d.column = t.column ∧ d.span = some t.span := by
  obtain ⟨span, placed⟩ : ∃ span, d.span = some span := by
    obtain ⟨root, modules, ds, located, reports⟩ := ofTokens_blind host tokens
    rw [reports] at reported
    rcases DiagnosticLog.mem_reportAll reported with old | new
    · cases old
    · exact Option.isSome_iff_exists.mp (located d new)
  -- Moving everything else moves none of the tokens, and so none of the reports.
  have unmoved : move (.around tokens) (ofTokens host maxErrors tokens).log.entries =
      (ofTokens host maxErrors tokens).log.entries := by
    have same := ofTokens_move (m := .around tokens) host maxErrors tokens
    rw [move_around] at same
    exact congrArg (fun a => a.log.entries) same.symm
  have still : move (.around tokens) d = d :=
    List.map_inj_left.mp (unmoved.trans (List.map_id _).symm) d reported
  obtain ⟨t, member, site⟩ := List.mem_map.mp (site_of_unmoved placed still)
  simp only [Prod.mk.injEq, Token.site, Site.mk.injEq] at site
  obtain ⟨file, line, column, start, stop⟩ := site
  have same : span = t.span :=
    show (⟨span.start, span.stop, span.fileId⟩ : Span) = ⟨t.span.start, t.span.stop, t.span.fileId⟩ by
      rw [start, stop, file]
  exact ⟨t, member, line.symm, column.symm, same ▸ placed⟩

theorem programTokens_ok {text : String} {withLibrary : Bool} {tokens : List Token}
    (read : programTokens text withLibrary = .ok tokens) :
    ∃ first second, (first = [] ∨ libraryTokens = .ok first) ∧
      (SourceUnit.user text withLibrary).tokens = .ok second ∧ tokens = first ++ second := by
  have whole (first : List Token) (read : (do
      let second ← (SourceUnit.user text withLibrary).tokens
      Except.ok (first ++ second)) = .ok tokens) :
      ∃ second, (SourceUnit.user text withLibrary).tokens = .ok second ∧
        tokens = first ++ second := by
    cases user : (SourceUnit.user text withLibrary).tokens with
    | error e =>
        rw [user] at read
        cases read
    | ok second =>
        rw [user] at read
        cases read
        exact ⟨second, rfl, rfl⟩
  unfold programTokens at read
  cases withLibrary with
  | false =>
      obtain ⟨second, user, same⟩ := whole [] read
      exact ⟨[], second, .inl rfl, user, same⟩
  | true =>
      cases library : libraryTokens with
      | error e =>
          rw [if_pos rfl, library] at read
          cases read
      | ok first =>
          rw [if_pos rfl, library] at read
          obtain ⟨second, user, same⟩ := whole first read
          exact ⟨first, second, .inr rfl, user, same⟩

theorem programTokens_error {text : String} {withLibrary : Bool} {e : LexicalError}
    (failed : programTokens text withLibrary = .error e) :
    libraryTokens = .error e ∨ (SourceUnit.user text withLibrary).tokens = .error e := by
  have whole (first : List Token) (failed : (do
      let second ← (SourceUnit.user text withLibrary).tokens
      Except.ok (first ++ second)) = .error e) :
      (SourceUnit.user text withLibrary).tokens = .error e := by
    cases user : (SourceUnit.user text withLibrary).tokens with
    | error e =>
        rw [user] at failed
        cases failed
        rfl
    | ok second =>
        rw [user] at failed
        cases failed
  unfold programTokens at failed
  cases withLibrary with
  | false => exact .inr (whole [] failed)
  | true =>
      cases library : libraryTokens with
      | error e =>
          rw [if_pos rfl, library] at failed
          cases failed
          exact .inl rfl
      | ok first =>
          rw [if_pos rfl, library] at failed
          exact .inr (whole first failed)

theorem anchored_of_covers {userText : String} {withLibrary : Bool} {d : Diagnostic} {span : Span}
    {cs : List Char} {unit : SourceUnit}
    (known : unit = .library ∨ unit = .user userText withLibrary)
    (placed : d.span = some span) (covers : unit.Covers span cs)
    (position : (⟨d.line, d.column⟩ : Position) = .ofOffset unit.text span.start) :
    d.Anchored userText := by
  refine ⟨span, unit.text, ?_, placed, covers.start_le_stop, ?_, position⟩
  · rw [covers.fileId]
    rcases known with rfl | rfl <;> rfl
  · rw [← utf8Length_toList]
    exact covers.stop_le

/-- Every diagnostic of an analysis points at the text that it is about. -/
theorem ofSource_anchored (text : String) (settings : Settings) (host : Host) :
    ∀ d ∈ (ofSource text settings host).log.entries, d.Anchored text := by
  intro d reported
  unfold ofSource at reported
  cases read : programTokens text settings.withLibrary with
  | ok tokens =>
      rw [read] at reported
      obtain ⟨t, member, line, column, placed⟩ := token_of_report reported
      obtain ⟨first, second, library, user, rfl⟩ := programTokens_ok read
      have stands : ∃ unit : SourceUnit, (unit = .library ∨ unit = .user text settings.withLibrary) ∧
          unit.Places t := by
        rcases List.mem_append.mp member with member | member
        · rcases library with rfl | library
          · cases member
          · exact ⟨_, .inl rfl, SourceUnit.places_of_tokens library t member⟩
        · exact ⟨_, .inr rfl, SourceUnit.places_of_tokens user t member⟩
      obtain ⟨unit, known, place⟩ := stands
      refine anchored_of_covers known placed place.covers ?_
      rw [line, column, place.position]
  | error e =>
      rw [read] at reported
      have once : d = lexicalDiagnostic (if e.span.isLibrary then librarySource else text) e := by
        rcases DiagnosticLog.mem_report reported with old | new
        · cases old
        · exact new
      subst once
      obtain ⟨unit, known, failed⟩ : ∃ unit : SourceUnit,
          (unit = .library ∨ unit = .user text settings.withLibrary) ∧ unit.tokens = .error e := by
        rcases programTokens_error read with failed | failed
        · exact ⟨_, .inl rfl, failed⟩
        · exact ⟨_, .inr rfl, failed⟩
      obtain ⟨cs, covers⟩ := SourceUnit.covers_of_error failed
      have own : (if e.span.isLibrary then librarySource else text) = unit.text := by
        rw [Span.isLibrary, covers.fileId]
        rcases known with rfl | rfl
        · exact if_pos rfl
        · exact if_neg (by simp [SourceUnit.user, userFile, libraryFile])
      refine anchored_of_covers known rfl covers ?_
      rw [own]
      rfl

-- A text without a semicolon at its end has an error, at its last token.
theorem unfinishedText_anchored :
    ∃ d ∈ (ofSource "ret" { withLibrary := false } {}).log.entries, d.Anchored "ret" := by
  have reported : (ofSource "ret" { withLibrary := false } {}).log.entries ≠ [] := by decide +kernel
  obtain ⟨d, member⟩ := List.exists_mem_of_ne_nil _ reported
  exact ⟨d, member, ofSource_anchored "ret" { withLibrary := false } {} d member⟩

end Analysis

-- Forgets all places but the file.
def Relocation.nowhere : Relocation where
  site _ _ := ⟨0, 0, 0, 0⟩
  streamLine _ := 0
  streamLine_zero := rfl

section Layouts

variable {text : String} {tokens again : List Token}

-- The lexemes, with a space between each two.
def spaced (lexemes : List String) : String := " ".intercalate lexemes

theorem laid_spaced {lexemes : List String} (nonempty : lexemes ≠ []) :
    Laid lexemes (spaced lexemes).toList := by
  induction lexemes with
  | nil => exact absurd rfl nonempty
  | cons lexeme lexemes ih =>
      cases lexemes with
      | nil =>
          rw [spaced, String.intercalate_singleton, ← List.append_nil lexeme.toList]
          exact .last [] (.trivia .nil) fun _ => by simp
      | cons next lexemes =>
          rw [spaced, String.intercalate_cons_cons, String.toList_append, String.toList_append,
            List.append_assoc]
          exact .next [' '] (.blank rfl .nil) rfl (ih (List.cons_ne_nil _ _))

theorem layout_spaced (lexemes : List String) : Layout lexemes (spaced lexemes).toList := by
  by_cases none : lexemes = []
  · subst none
    exact .empty (.trivia .nil)
  · exact .lexemes .nil (laid_spaced none)

theorem SourceUnit.fileId_of_tokens {unit : SourceUnit} (read : unit.tokens = .ok tokens) :
    ∀ t ∈ tokens, t.span.fileId = unit.fileId :=
  fun t member => (SourceUnit.places_of_tokens read t member).covers.fileId

theorem SourceUnit.tokens_layout {unit : SourceUnit} (read : unit.tokens = .ok tokens)
    (other : SourceUnit)
    (layout : Layout (tokens.map Token.lexeme) other.text.toList) :
    ∃ again, other.tokens = .ok again ∧ again.map Token.spelling = tokens.map Token.spelling :=
  tokensFrom_layout layout (spelled_of_tokensFrom read) 0

theorem SourceUnit.tokens_anywhere {unit : SourceUnit} (read : unit.tokens = .ok tokens)
    (other : SourceUnit)
    (same : other.text = unit.text) :
    ∃ again, other.tokens = .ok again ∧ again.map Token.spelling = tokens.map Token.spelling := by
  unfold SourceUnit.tokens at read ⊢
  rw [same]
  exact tokensFrom_anywhere other _ 0 read

theorem move_nowhere (file : FileId) (same : again.map Token.spelling = tokens.map Token.spelling)
    (here : ∀ t ∈ tokens, t.span.fileId = file) (there : ∀ t ∈ again, t.span.fileId = file) :
    move .nowhere again = move .nowhere tokens := by
  have plain {tokens : List Token} (files : ∀ t ∈ tokens, t.span.fileId = file) :
      move .nowhere tokens = (tokens.map Token.spelling).map fun s =>
        ⟨s.1, s.2, 0, 0, 0, ⟨0, 0, file⟩⟩ := by
    rw [List.map_map]
    refine List.map_congr_left fun t member => ?_
    rw [Function.comp, ← files t member]
    rfl
  rw [plain here, plain there, same]

end Layouts

namespace Analysis

/-- The same verdict, diagnostics, tree and modules, each but for lines, columns and offsets. -/
structure SameButForPlaces (settings : Settings) (a b : Analysis) : Prop where
  passes : a.passes settings = b.passes settings
  isOk : a.isOk = b.isOk
  diagnostics : move .nowhere a.log = move .nowhere b.log
  root : move .nowhere a.root = move .nowhere b.root
  modules : move .nowhere a.modules = move .nowhere b.modules

theorem isOk_move {m : Relocation} (a : Analysis) : (move m a).isOk = a.isOk := rfl

theorem passes_move {m : Relocation} (a : Analysis) (settings : Settings) :
    (move m a).passes settings = a.passes settings := by
  have warnings : (move m a).log.warnings = move m a.log.warnings := DiagnosticLog.warnings_move a.log
  rw [passes, passes, warnings, isEmpty_move, isOk_move]

theorem sameButForPlaces_of_move {a b : Analysis} (settings : Settings)
    (same : move .nowhere a = move .nowhere b) : SameButForPlaces settings a b where
  passes := by rw [← passes_move (m := .nowhere), same, passes_move]
  isOk := by rw [← isOk_move (m := .nowhere), same, isOk_move]
  diagnostics := congrArg Analysis.log same
  root := congrArg Analysis.root same
  modules := congrArg Analysis.modules same

theorem libraryTokens_isLibrary {e : LexicalError} (failed : libraryTokens = .error e) :
    e.span.isLibrary = true := by
  obtain ⟨cs, covers⟩ := SourceUnit.covers_of_error failed
  rw [Span.isLibrary, covers.fileId]
  rfl

/-- How a text is laid out makes no difference. -/
theorem ofSource_reformatted {text other : String} {tokens : List Token}
    (lexes : SourceUnit.tokens { text } = .ok tokens)
    (layout : Layout (tokens.map Token.lexeme) other.toList) :
    (∃ again, SourceUnit.tokens { text := other } = .ok again ∧
      again.map Token.spelling = tokens.map Token.spelling) ∧
    (∀ settings host,
      SameButForPlaces settings (ofSource other settings host) (ofSource text settings host)) ∧
    ∃ again, SourceUnit.tokens { text := spaced (tokens.map Token.lexeme) } = .ok again ∧
      again.map Token.spelling = tokens.map Token.spelling := by
  refine ⟨SourceUnit.tokens_layout lexes _ layout, fun settings host => ?_,
    SourceUnit.tokens_layout lexes _ (layout_spaced _)⟩
  obtain ⟨first, read, alike⟩ := SourceUnit.tokens_anywhere lexes
    (.user text settings.withLibrary) rfl
  have same : first.map Token.lexeme = tokens.map Token.lexeme := by
    have second := congrArg (List.map Prod.snd) alike
    rw [List.map_map, List.map_map] at second
    exact second
  obtain ⟨second, reread, again⟩ := SourceUnit.tokens_layout read
    (.user other settings.withLibrary) (same ▸ layout)
  have moved := move_nowhere userFile again (SourceUnit.fileId_of_tokens read)
    (SourceUnit.fileId_of_tokens reread)
  apply sameButForPlaces_of_move
  have after (library : List Token) :
      move .nowhere (ofTokens host settings.maxErrors (library ++ second)) =
        move .nowhere (ofTokens host settings.maxErrors (library ++ first)) := by
    rw [← ofTokens_move, ← ofTokens_move, move_append, move_append, moved]
  unfold ofSource programTokens
  rw [read, reread]
  cases settings.withLibrary with
  | false => exact after []
  | true =>
      cases lexed : libraryTokens with
      | ok library => exact after library
      | error e =>
          -- The library itself does not split into tokens, and neither text is looked at.
          have own := libraryTokens_isLibrary lexed
          simp only [bind, Except.bind, own, if_true]

-- The tokens of the text `a/b`.
def quotient : List Token :=
  [⟨.identifier, "a", 1, 1, 1, ⟨0, 1, userFile⟩⟩, ⟨.binary .div, "/", 1, 2, 1, ⟨1, 2, userFile⟩⟩,
    ⟨.identifier, "b", 1, 3, 1, ⟨2, 3, userFile⟩⟩]

theorem quotient_reformatted :
    SourceUnit.tokens { text := "a/b" } = .ok quotient ∧
    Layout (quotient.map Token.lexeme) "a /**/ /\tb//".toList ∧
    SameButForPlaces {} (ofSource "a /**/ /\tb//" {} {}) (ofSource "a/b" {} {}) := by
  have lexes : SourceUnit.tokens { text := "a/b" } = .ok quotient := rfl
  have layout : Layout (quotient.map Token.lexeme) "a /**/ /\tb//".toList :=
    .lexemes .nil (.next [' ', '/', '*', '*', '/', ' ']
      (.blank rfl (.block [] (by decide) (.blank rfl .nil))) rfl
      (.next ['\t'] (.blank rfl .nil) rfl
        (.last ['/', '/'] (.line [] .nil nofun) nofun)))
  exact ⟨lexes, layout, (ofSource_reformatted lexes layout).2.1 {} {}⟩

/-- A comment right behind a slash takes the slash in, also behind the last one. -/
theorem slash_before_comment :
    (∃ tokens, SourceUnit.tokens { text := "a /" } = .ok tokens ∧
      tokens.map Token.lexeme = ["a", "/"]) ∧
    Trivia "/**/".toList ∧
    ∃ again, SourceUnit.tokens { text := "a /" ++ "/**/" } = .ok again ∧
      again.map Token.lexeme = ["a"] := by
  refine ⟨⟨_, rfl, rfl⟩, .block [] (by decide) .nil, ⟨_, rfl, rfl⟩⟩

end Analysis

end MiLanguage
