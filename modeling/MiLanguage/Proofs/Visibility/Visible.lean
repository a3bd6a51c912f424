import MiLanguage.Proofs.Visibility.Run

set_option autoImplicit false

namespace MiLanguage

namespace ModuleTree

variable {t : ModuleTree} {s : Sight} {n : Node} {place : Token} {name : String} {id : ModuleId}

theorem entry_of_class? {c : ClassDeclaration} (found : t.class? id name = some c) :
    ∃ m ∈ t.modules, (name, c) ∈ m.members.classes.entries := by
  obtain ⟨front, back, entries, _⟩ := List.lookup_eq_some_iff.mp found
  exact ⟨_, get_mem (inside_of_class found), by simp [entries]⟩

theorem entry_of_enum? {e : EnumDeclaration} (found : t.enum? id name = some e) :
    ∃ m ∈ t.modules, (name, e) ∈ m.members.enums.entries := by
  obtain ⟨front, back, entries, _⟩ := List.lookup_eq_some_iff.mp found
  exact ⟨_, get_mem (inside_of_enum found), by simp [entries]⟩

/-- The class or the enum of this full name may be used at `place`. -/
inductive AdmitsType (t : ModuleTree) (s : Sight) (place : Token) : String → Prop
  | «class» {id : ModuleId} {name : String} {c : ClassDeclaration} :
      t.class? id name = some c → c.origin.module = id → t.Admits s c.modifiers c.origin place →
      AdmitsType t s place (t.qualify id name)
  | enum {id : ModuleId} {name : String} {e : EnumDeclaration} :
      t.enum? id name = some e → e.origin.module = id → t.Admits s e.modifiers e.origin place →
      AdmitsType t s place (t.qualify id name)

/-- What a node uses of the declarations of modules it may use where it stands: what is `priv` only
inside of its module, what is `own` only in its file. -/
structure Visible (t : ModuleTree) (s : Sight) (n : Node) : Prop where
  reference : n.kind = .variableReference →
    ∃ place type, n.token = some place ∧ n.type = some type ∧ t.Denotes s place type
  target : n.kind = .varSetValue → ∃ place type, n.title? = some place ∧ t.Denotes s place type
  call : n.kind = .functionCall → ∃ (place : Token) (args : List Datatype) (type : Datatype)
    (first second : Node), n.children = [first, second] ∧ first.token = some place ∧
      second.children.map Node.type = args.map some ∧ n.type = some type ∧
      t.Selects s place args type
  member : n.kind = .getEnumMember → ∃ (place : Token) (id : ModuleId) (name : String)
    (e : EnumDeclaration) (first second : Node), n.children = [first, second] ∧
      first.token = some place ∧ place.lexeme = t.qualify id name ∧ t.enum? id name = some e ∧
      e.origin.module = id ∧ t.Admits s e.modifiers e.origin place
  construct : n.kind = .structConstruct → ∃ (place : Token) (id : ModuleId) (name : String)
    (c : ClassDeclaration), n.token = some place ∧ place.lexeme = t.qualify id name ∧
      t.class? id name = some c ∧ c.origin.module = id ∧ t.Admits s c.modifiers c.origin place
  spelled : n.kind = .type → ∀ place, n.token = some place → place.kind = .identifier →
    ∃ name nullable, n.type = some (.of (.named name) nullable) ∧ t.AdmitsType s place name

theorem admits_inside {c : ClassDeclaration} (home : c.origin.module = id)
    (path : t.pathSegments id = s.path) (file : place.span.fileId = c.origin.fileId) :
    t.Admits s c.modifiers c.origin place where
  priv _ := by rw [home, path]
  own _ := file

theorem NamesType.admits (names : t.NamesType s place name)
    (file : ∀ label, s.owner = some label → place.span.fileId = label.2) :
    t.AdmitsType s place name := by
  cases names with
  | «class» found home admits =>
      rcases admits with admits | ⟨owner, path⟩
      · exact .class found home admits
      · exact .class found home (admits_inside home path (file _ owner))
  | enum found home admits => exact .enum found home admits

theorem Finds.visible (finds : t.Finds s n)
    (file : ∀ label, s.owner = some label → n.NamedIn (· = label.2)) : t.Visible s n where
  reference := finds.reference
  target := finds.target
  call := finds.call
  member kind := by
    obtain ⟨place, _, id, name, e, first, second, children, token, _, found, named, _, home,
      admits⟩ := finds.member kind
    exact ⟨place, id, name, e, first, second, children, token, named, found, home, admits⟩
  construct kind := by
    obtain ⟨place, id, name, c, token, found, named, home, admits⟩ := finds.construct kind
    refine ⟨place, id, name, c, token, named, found, home, ?_⟩
    rcases admits with admits | ⟨owner, path⟩
    · exact admits
    · exact admits_inside home path (file _ owner (by rw [kind]; rfl) place token)
  spelled kind place token identifier := by
    obtain ⟨name, nullable, type, names⟩ := finds.spelled kind place token identifier
    exact ⟨name, nullable, type,
      names.admits fun label owner => file label owner (by rw [kind]; rfl) place token⟩

end ModuleTree

section Owners

variable {holds : Sight → Node → Prop} {s : Sight} {n : Node}

-- What is in a class is in the file that the class is in.
theorem Node.OneFile.inside (oneFile : n.OneFile)
    (file : ∀ label, s.owner = some label → ∀ c ∈ n.children, c.Every (Node.NamedIn (· = label.2)))
    (label : String × FileId) (owner : (s.inside n).owner = some label) :
    ∀ c ∈ n.children, c.Every (Node.NamedIn (· = label.2)) := by
  unfold Sight.inside at owner
  split at owner
  next => cases owner
  next kind =>
    obtain ⟨name, title, rfl⟩ := Option.map_eq_some_iff.mp owner
    exact oneFile kind name title
  next => exact file label owner
  next => exact file label owner
  next => exact file label owner

mutual

theorem Throughout.inFile : {s : Sight} → {n : Node} → Throughout holds s n →
    n.Every Node.OneFile →
    (∀ label, s.owner = some label → n.Every (Node.NamedIn (· = label.2))) →
    Throughout (fun s n => holds s n ∧
      ∀ label, s.owner = some label → n.NamedIn (· = label.2)) s n
  | _, _, .node here kind children, oneFile, file =>
      .node ⟨here, fun label owner => (file label owner).top⟩ kind
        (ThroughoutAll.inFile children (fun _ member => oneFile.child member)
          (oneFile.top.inside fun label owner _ member => (file label owner).child member))
  | _, _, .doLoop here kind conditions body, oneFile, file =>
      .doLoop ⟨here, fun label owner => (file label owner).top⟩ kind
        (fun c member condition => Throughout.inFile (conditions c member condition)
          (oneFile.child member) fun label owner => (file label owner).child member)
        (ThroughoutAll.inFile body (fun _ member => oneFile.child (List.mem_of_mem_filter member))
          fun label owner _ member => (file label owner).child (List.mem_of_mem_filter member))

theorem ThroughoutAll.inFile : {s : Sight} → {ns : List Node} → ThroughoutAll holds s ns →
    (∀ n ∈ ns, n.Every Node.OneFile) →
    (∀ label, s.owner = some label → ∀ n ∈ ns, n.Every (Node.NamedIn (· = label.2))) →
    ThroughoutAll (fun s n => holds s n ∧
      ∀ label, s.owner = some label → n.NamedIn (· = label.2)) s ns
  | _, _, .nil, _, _ => .nil
  | s, n :: _, .cons here rest, oneFile, file =>
      .cons (Throughout.inFile here (oneFile n (by simp)) fun label owner => file label owner n (by simp))
        (ThroughoutAll.inFile rest (fun m member => oneFile m (by simp [member]))
          fun label owner m member => file label (by simpa using owner) m (by simp [member]))

end

end Owners

namespace AnalysisState

variable {s t first last : AnalysisState} {tokens : List Token}

theorem Files.reaches (files : s.Files tokens) (classes : ClassesInOneFile tokens)
    (keeps : Keeps Unasked first last s) (coherent : first.Coherent)
    (known : last.environment.declared.Known last.environment.declared) (reaches : s.Reaches t) :
    t.Files tokens := by
  suffices Keeps Unasked first last t ∧ t.Files tokens from this.2
  induction reaches with
  | refl => exact ⟨keeps, files⟩
  | tail _ turns ih =>
      exact ⟨ih.1.turns coherent known (fun p _ _ => p.answers_unasked) turns, ih.2.turns classes ih.1 coherent known turns⟩

theorem Files.root (files : s.Files tokens) (pass : s.declaring = false) :
    s.root.Every Node.OneFile := by
  unfold AnalysisState.root
  rw [if_neg (by simp [pass])]
  exact files.filing.filed.closeAll (by simp)

end AnalysisState

namespace Analysis

variable {host : Host} {maxErrors : Nat} {tokens : List Token}

theorem files_start : (bodiesStart host maxErrors tokens).Files tokens := by
  refine .of_idle ⟨List.suffix_rfl, .base rfl rfl, .base rfl (Scope.holds_new rfl (by simp) rfl)⟩ rfl

/-- In the tree of any text in which each class is in one file, whatever else is wrong with it, each
use of a declaration stands where the modifiers of the declaration allow it. -/
theorem uses_visible (host : Host) (maxErrors : Nat) (tokens : List Token)
    (classes : ClassesInOneFile tokens) :
    Throughout (ofTokens host maxErrors tokens).modules.Visible {}
      (ofTokens host maxErrors tokens).root := by
  by_cases clean : (runPass ⟨.declarations, host⟩ .empty { maxErrors } tokens).Clean
  · obtain ⟨_, throughout, _⟩ := finds_secondPass clean
    obtain ⟨leads, _, closed, _⟩ := runPass_leads clean
    have coherent := coherent_start host maxErrors tokens
    have known := (known_of_firstPass clean).2
    have declared := declared_of_closed (coherent.leads leads).1.outer.outside closed
    have keeps : AnalysisState.Keeps Unasked _ _ _ := keeps_start clean
    rw [← declared] at known
    have files := files_start.reaches classes keeps coherent known (runPass_reaches rfl _ _ _)
    rw [ofTokens_eq clean]
    exact (throughout.inFile (files.root (keeps.reaches coherent known
      (fun p _ _ => p.answers_unasked) (runPass_reaches rfl _ _ _)).inStep.pass) (by simp)).mono fun _ _ both => both.1.visible both.2
  · have failed : (runPass ⟨.declarations, host⟩ .empty { maxErrors } tokens).log.failed = true := by
      simpa [AnalysisState.Clean] using clean
    have empty : (ofTokens host maxErrors tokens).root = emptyRoot := by
      simp only [ofTokens, failed, if_true]
    rw [empty]
    refine .node ?_ (by simp [emptyRoot, Node.new]) .nil
    constructor <;> (intro kind; cases kind)

-- The program `module m { own class C { fn f (C c) { } } priv fn g { } fn h (m.C c) { m.g(); } }`.
def guardedProgram : List Token :=
  [Token.alone (.keyword .module) "module", .alone .identifier "m", .alone .leftBrace "\x7b",
    .alone (.modifier .own) "own", .alone (.keyword .«class») "class", .alone .identifier "C",
    .alone .leftBrace "\x7b", .alone (.keyword .fn) "fn", .alone .identifier "f",
    .alone .leftParen "(", .alone .identifier "C", .alone .identifier "c", .alone .rightParen ")",
    .alone .leftBrace "\x7b", .alone .rightBrace "\x7d", .alone .rightBrace "\x7d",
    .alone (.modifier .priv) "priv", .alone (.keyword .fn) "fn", .alone .identifier "g",
    .alone .leftBrace "\x7b", .alone .rightBrace "\x7d", .alone (.keyword .fn) "fn",
    .alone .identifier "h", .alone .leftParen "(", .alone .identifier "m.C", .alone .identifier "c",
    .alone .rightParen ")", .alone .leftBrace "\x7b", .alone .identifier "m.g",
    .alone .leftParen "(", .alone .rightParen ")", .alone .semicolon ";", .alone .rightBrace "\x7d",
    .alone .rightBrace "\x7d"]

theorem guardedProgram_visible :
    ClassesInOneFile guardedProgram ∧ (ofTokens {} 100 guardedProgram).isOk = true ∧
      ((ofTokens {} 100 guardedProgram).root.findAll .functionCall).length = 1 ∧
      Throughout (ofTokens {} 100 guardedProgram).modules.Visible {}
        (ofTokens {} 100 guardedProgram).root := by
  have classes : ClassesInOneFile guardedProgram := by decide +kernel
  exact ⟨classes, by decide +kernel, by decide +kernel, uses_visible {} 100 _ classes⟩

-- The program `module m { own class C { C x; } }`, with the name of the class in one file and its
-- braces in another.
def dividedProgram : List Token :=
  let elsewhere (t : Token) : Token := { t with span := { t.span with fileId := 2 } }
  [Token.alone (.keyword .module) "module", .alone .identifier "m", .alone .leftBrace "\x7b",
    .alone (.modifier .own) "own", .alone (.keyword .«class») "class", .alone .identifier "C"] ++
  [Token.alone .leftBrace "\x7b", .alone .identifier "C", .alone .identifier "x",
    .alone .semicolon ";", .alone .rightBrace "\x7d", .alone .rightBrace "\x7d"].map elsewhere

-- Inside of a class its own name may be used in any file.
theorem dividedProgram_circumvents :
    ClassBodiesInOneFile dividedProgram ∧ (ofTokens {} 100 dividedProgram).isOk = true ∧
      ¬Throughout (ofTokens {} 100 dividedProgram).modules.Visible {}
        (ofTokens {} 100 dividedProgram).root := by
  refine ⟨by decide +kernel, by decide +kernel, fun throughout => ?_⟩
  have classes : ∀ m ∈ (ofTokens {} 100 dividedProgram).modules.modules,
      ∀ e ∈ m.members.classes.entries, e.2.modifiers.visibility = .own ∧ e.2.origin.fileId = 0 := by
    decide +kernel
  have enums : ∀ m ∈ (ofTokens {} 100 dividedProgram).modules.modules,
      ∀ e ∈ m.members.enums.entries, False := by
    decide +kernel
  have written : ∃ n ∈ (ofTokens {} 100 dividedProgram).root.preorder, n.kind = .type ∧
      n.token.any (fun t => t.kind = .identifier && t.span.fileId = 2) = true := by
    decide +kernel
  obtain ⟨n, member, kind, spelled⟩ := written
  obtain ⟨place, token, spelled⟩ := (Option.any_eq_true _ _).mp spelled
  simp only [Bool.and_eq_true, decide_eq_true_eq] at spelled
  obtain ⟨_, visible⟩ := throughout.every n member
  obtain ⟨_, _, _, admits⟩ := visible.spelled kind place token spelled.1
  cases admits with
  | «class» found _ admits =>
      obtain ⟨m, inside, entry⟩ := ModuleTree.entry_of_class? found
      obtain ⟨own, file⟩ := classes m inside _ entry
      rw [admits.own own, file] at spelled
      exact absurd spelled.2 (by decide)
  | enum found =>
      obtain ⟨m, inside, entry⟩ := ModuleTree.entry_of_enum? found
      exact enums m inside _ entry

end Analysis

end MiLanguage
