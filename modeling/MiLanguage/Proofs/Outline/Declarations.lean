import MiLanguage.Proofs.Outline.Entries
import MiLanguage.Proofs.Outline.Run
import MiLanguage.Proofs.Passes.Lockstep
import MiLanguage.Proofs.Statement.Names

set_option autoImplicit false

namespace MiLanguage

namespace Environment

variable {env warned after : Environment} {setting : Setting} {first head : Token}
  {tail rest : List Token} {mods : LeadingModifiers} {accepted : Accepted} {id : ModuleId}

theorem Warned.eq (warns : env.Warned warned) (bare : env.frame.isBlock = false) :
    warned = env := by
  cases warns with
  | same => rfl
  | marked frame =>
      rw [frame] at bare
      cases bare

theorem filter_statement (read : LeadingModifiers.read (first :: tail) = .ok (mods, head :: rest)) :
    (first :: tail).filter (·.kind = .identifier) =
      (head :: rest).filter (·.kind = .identifier) := by
  obtain ⟨whole, modifiers, _⟩ := LeadingModifiers.read_append read
  have nameless : mods.tokens.filter (·.kind = .identifier) = [] := by
    rw [List.filter_eq_nil_iff]
    intro t member
    have kind := modifiers t member
    cases same : t.kind <;> simp_all [TokenKind.isModifier]
  rw [whole, List.filter_append, nameless, List.nil_append]

-- The current scope collects something else.
def withFrame (env : Environment) (frame : Frame) : Environment :=
  { env with scopes := env.scopes.modifyCurrent ({ · with frame := frame }) }

section Enum

variable {e : EnumDeclaration}

theorem declareMembers_eq_ok {node : Option Node}
    (read : env.declareMembers setting id e mods head rest = (after, .ok node)) :
    Ends head rest .semicolon ∧
      (∃ names : List Token, node = some (.new .enumValues head.streamLine
        (names.map (Node.leaf .identifier)))) ∧
      (setting.declaring = true → after = env.withFrame (.enum id { e with
        members := e.members ++
          ((head :: rest).filter (·.kind = .identifier)).map Token.lexeme })) ∧
      (setting.declaring = false → after = env) := by
  unfold declareMembers at read
  split at read
  next => cases read
  next names members =>
    have same := readMembers_eq_ok members
    simp only [readMembers, Checked.bind_eq_ok] at members
    obtain ⟨_, _, _, dropped, _⟩ := members
    have ends : Ends head rest .semicolon := by
      simpa [Ends, List.getLast?_cons] using (dropLastOf_eq_ok dropped).1
    refine ⟨ends, ?_⟩
    rw [← same]
    dsimp only at read
    split at read
    next declaring =>
      split at read
      next =>
        generalize added : addMembers e names = found at read
        obtain ⟨extended, repeated⟩ := found
        cases repeated with
        | some name => simp [blame] at read
        | none =>
            cases read
            refine ⟨⟨names, rfl⟩, fun _ => ?_, fun kept => ?_⟩
            · rw [addMembers_eq added]
              rfl
            · rw [declaring] at kept
              cases kept
      next => simp [blame] at read
    next kept =>
      cases read
      exact ⟨⟨names, rfl⟩, fun declaring => absurd declaring kept, fun _ => rfl⟩

-- In an enum stand its members, and nothing else.
theorem statement_ofEnum (frame : env.frame = .enum id e) (deep : env.scopes.opened ≠ [])
    (read : env.statement setting first tail = ⟨accepted.environment, .ok accepted.node⟩) :
    Ends first tail .semicolon ∧
      (∃ line, ∃ names : List Token, accepted.node = some (.new .enumValues line
        (names.map (Node.leaf .identifier)))) ∧
      (setting.declaring = true → accepted.environment = env.withFrame (.enum id { e with
        members := e.members ++
          ((first :: tail).filter (·.kind = .identifier)).map Token.lexeme })) ∧
      (setting.declaring = false → accepted.environment = env) := by
  obtain ⟨mods, head, rest, modifiers, accepts⟩ := statement_accepts read
  have members : head.kind = .identifier := by
    clear read
    generalize (⟨accepted.environment, accepted.node⟩ : Accepted) = found at accepts
    cases accepts with
    | membersDeclared kind => exact kind
    | membersKept kind => exact kind
    | libraryEnded _ _ depth => simp_all [ScopeStack.depth]
    | variableDefined _ _ placed => simp_all [placement]
    | variableKept _ _ placed => simp_all [placement]
    | _ => simp_all [Frame.isModule, Frame.isClass, Frame.class?, Frame.isBlock, Frame.block?]
  rw [filter_statement modifiers]
  obtain ⟨ends, ⟨names, node⟩, declares⟩ :=
    declareMembers_eq_ok (statement_members read modifiers members frame)
  exact ⟨ends_of_read ends modifiers, ⟨_, names, node⟩, declares⟩

end Enum

theorem title_of_read (modifiers : LeadingModifiers.read (first :: tail) = .ok (mods, head :: rest))
    {name : Token} {later : List Token} {keyword : Keyword} (kind : head.kind = .keyword keyword)
    (same : rest = name :: later) :
    Outline.title? (first :: tail) = some (keyword, name.lexeme) := by
  unfold Outline.title?
  rw [Outline.lead_of_read modifiers, same]
  simp [kind]

theorem untitled_of_read
    (modifiers : LeadingModifiers.read (first :: tail) = .ok (mods, head :: rest))
    (noModule : head.kind ≠ .keyword .module) (noClass : head.kind ≠ .keyword .«class»)
    (noEnum : head.kind ≠ .keyword .enum) : Outline.Untitled (first :: tail) := by
  intro keyword name title
  unfold Outline.title? at title
  rw [Outline.lead_of_read modifiers] at title
  cases rest with
  | nil => cases title
  | cons t later =>
      simp only at title
      split at title
      next k kind =>
        cases title
        rw [kind] at noModule noClass noEnum
        exact ⟨fun same => noModule (by rw [same]), fun same => noClass (by rw [same]),
          fun same => noEnum (by rw [same])⟩
      next => cases title

theorem untitled_of_variable
    (modifiers : LeadingModifiers.read (first :: tail) = .ok (mods, head :: rest))
    (starts : startsVariable head = true) : Outline.Untitled (first :: tail) := by
  have keyword : ∀ k, head.kind ≠ .keyword k := by
    intro k kind
    simp [startsVariable, kind, TokenKind.isDatatype] at starts
  exact untitled_of_read modifiers (keyword _) (keyword _) (keyword _)

theorem defined_of_keyword {k : Keyword}
    (modifiers : LeadingModifiers.read (first :: tail) = .ok (mods, head :: rest))
    (kind : head.kind = .keyword k) : Outline.Defined (first :: tail) := by
  intro other later lead starts
  rw [Outline.lead_of_read modifiers] at lead
  cases lead
  simp [startsVariable, kind, TokenKind.isDatatype] at starts

theorem defined_of_names {v : Variable} {name : Token}
    (modifiers : LeadingModifiers.read (first :: tail) = .ok (mods, head :: rest))
    (names : Names rest v name) (ends : Ends head rest .semicolon) :
    Outline.Defined (first :: tail) := by
  intro other later lead _
  rw [Outline.lead_of_read modifiers] at lead
  cases lead
  exact names.length ends

section Class

variable {c : ClassDeclaration}

theorem entries_of_starts {name : Token} {later : List Token} (owner : Option String)
    (modifiers : LeadingModifiers.read (first :: tail) = .ok (mods, head :: name :: later))
    (starts : startsVariable head = true) :
    Outline.entries owner (first :: tail) =
      [.variable owner name.lexeme (later.head?.any (·.is .assign))] := by
  unfold Outline.entries
  rw [Outline.lead_of_read modifiers]
  simp only [startsVariable, Bool.or_eq_true, decide_eq_true_eq] at starts
  dsimp only
  split
  next kind => simp_all [TokenKind.isDatatype]
  next kind => simp_all [TokenKind.isDatatype]
  next kind => simp_all [TokenKind.isDatatype]
  next => rfl

theorem entries_variable {v : Variable} {name : Token} (owner : Option String)
    (modifiers : LeadingModifiers.read (first :: tail) = .ok (mods, head :: rest))
    (starts : startsVariable head = true) (names : Names rest v name) :
    Outline.entries owner (first :: tail) = [.variable owner v.name v.value.isSome] := by
  obtain ⟨found, _, named, valued⟩ := names
  cases rest with
  | nil => cases found
  | cons t later =>
      cases found
      rw [entries_of_starts owner modifiers starts, named, valued]
      rfl

theorem entries_function {h : Header} (owner : Option String)
    (modifiers : LeadingModifiers.read (first :: tail) = .ok (mods, head :: rest))
    (kind : head.kind = .keyword .fn) (read : Header.read env mods head rest = .ok h) :
    Outline.entries owner (first :: tail) = [.function owner h.name.lexeme] := by
  have found := (Header.read_eq_ok read).1
  cases rest with
  | nil => cases found
  | cons t later =>
      cases found
      unfold Outline.entries
      rw [Outline.lead_of_read modifiers]
      simp [kind]

-- The class that is open takes what stands in it.
theorem statement_ofClass (pass : setting.declaring = true) (frame : env.frame = .class id c)
    (deep : env.scopes.opened ≠ [])
    (read : env.statement setting first tail = ⟨accepted.environment, .ok accepted.node⟩) :
    (Outline.Untitled (first :: tail) ∧ Outline.Defined (first :: tail)) ∧
    ∃ grown : ClassDeclaration, grown.name = c.name ∧
      accepted.environment = env.withFrame (.class id grown) ∧ ∀ owner entry,
        (grown.entries owner).count entry = (c.entries owner).count entry +
          (Outline.entries (some owner) (first :: tail)).count entry := by
  obtain ⟨mods, head, rest, modifiers, accepts⟩ := statement_accepts read
  have dispatched : env.read setting mods head rest = .ok accepted :=
    statement_read read modifiers (.inr (by simp [frame]))
  have word : ∀ {k : Keyword}, head.kind = .keyword k → k ≠ .module ∧ k ≠ .class ∧ k ≠ .enum →
      Outline.Untitled (first :: tail) ∧ Outline.Defined (first :: tail) := by
    intro k kind other
    refine ⟨untitled_of_read modifiers ?_ ?_ ?_, defined_of_keyword modifiers kind⟩
    all_goals simp_all
  have function : ∀ {h : Header} {body : FunctionBody} {declared : Environment},
      head.kind = .keyword .fn → Header.read env mods head rest = .ok h →
      env.addFunction? (env.definition mods h body) = some declared →
      ∃ grown : ClassDeclaration, grown.name = c.name ∧
        declared = env.withFrame (.class id grown) ∧ ∀ owner entry,
          (grown.entries owner).count entry = (c.entries owner).count entry +
            (Outline.entries (some owner) (first :: tail)).count entry := by
    intro h body declared kind header added
    simp only [addFunction?, definition, owner, frame, class?_of_frame frame] at added
    obtain ⟨methods, add, inserted⟩ := Option.bind_eq_some_iff.mp added
    rw [modifyClass?_of_frame frame deep] at inserted
    cases inserted
    refine ⟨{ c with methods }, rfl, rfl, fun owner entry => ?_⟩
    rw [entries_function (some owner) modifiers kind header]
    exact ClassDeclaration.count_addMethod entry add
  generalize same : (⟨accepted.environment, accepted.node⟩ : Accepted) = found at accepts
  have environment : accepted.environment = found.environment := congrArg Accepted.environment same
  rw [environment]
  cases accepts with
  | functionDeclared kind _ _ _ header _ added =>
      exact ⟨word kind (by decide), function kind header added⟩
  | nativeDeclared kind _ _ _ header added =>
      exact ⟨word kind (by decide), function kind header added⟩
  | @constructorDeclared id' c' h brace kind _ frame' _ _ _ list none =>
      rw [frame] at frame'
      cases frame'
      refine ⟨word kind (by decide), { c with constructor := some (constructorDefinition id c mods h) }, rfl, rfl,
        fun owner entry => ?_⟩
      cases rest with
      | nil => simp [Parameter.readList] at list
      | cons t later =>
          unfold Outline.entries
          rw [Outline.lead_of_read modifiers]
          simp only [kind, Option.toList_some, List.map_cons, List.map_nil]
          exact ClassDeclaration.count_addConstructor entry _ none
  | variableDefined starts ends =>
      obtain ⟨placement, placed, ⟨_, v, name, declared, names, _, added, rfl⟩ | ⟨kept, _⟩⟩ :=
        variableStatement_eq_ok (read_variable starts (by simp [frame, Frame.isBlock, Frame.block?])
          dispatched).2
      · cases same
        simp only [Environment.placement, frame, Except.ok.injEq] at placed
        subst placed
        simp only [declareVariable?, class?_of_frame frame, modifyClass?_of_frame frame deep] at added
        split at added
        next => cases added
        next fresh =>
          cases added
          have fresh : c.fields.find? v.name = none := by
            simpa [SymbolTable.contains] using fresh
          refine ⟨⟨untitled_of_variable modifiers starts, defined_of_names modifiers names ends⟩,
            { c with fields := c.fields.insert v.name v }, rfl, rfl, fun owner entry => ?_⟩
          rw [entries_variable (some owner) modifiers starts names]
          exact ClassDeclaration.count_insertField entry v fresh
      · rw [pass] at kept
        cases kept
  | libraryEnded _ _ depth => simp_all [ScopeStack.depth]
  | _ => simp_all [Frame.isModule, Frame.isBlock, Frame.block?]

end Class

end Environment

/-- What a text adds to the modules: what it declares, by the path of the module, and the modules
that it opens. -/
structure ModuleTree.Gains (old new : ModuleTree) (declared : List (List String × Entry))
    (opened : List (List String)) : Prop where
  arena : new.Arena
  found : ∀ path id, old.at? path = some id → new.at? path = some id
  paths : ∀ path, (new.at? path).isSome = true ↔ (old.at? path).isSome = true ∨ path ∈ opened
  entries : ∀ path entry, (new.entriesAt path).count entry =
    (old.entriesAt path).count entry + declared.count (path, entry)

namespace ModuleTree

variable {t : ModuleTree} {path : List String} {id : ModuleId}

theorem gains_refl (arena : t.Arena) : t.Gains t [] [] :=
  ⟨arena, fun _ _ found => found, by simp, by simp⟩

theorem Gains.trans {a b c : ModuleTree} {declared more : List (List String × Entry)}
    {opened others : List (List String)} (first : a.Gains b declared opened)
    (second : b.Gains c more others) : a.Gains c (declared ++ more) (opened ++ others) where
  arena := second.arena
  found path id here := second.found path id (first.found path id here)
  paths path := by rw [second.paths, first.paths, List.mem_append, or_assoc]
  entries path entry := by rw [second.entries, first.entries, List.count_append, Nat.add_assoc]

theorem Gains.congr {new : ModuleTree} {declared other : List (List String × Entry)}
    {opened : List (List String)} (gains : t.Gains new declared opened)
    (same : declared.Perm other) : t.Gains new other opened where
  arena := gains.arena
  found := gains.found
  paths := gains.paths
  entries path entry := by rw [gains.entries, same.count_eq]

theorem gains_modifyMembers {f : Members → Members} {added : List Entry} (arena : t.Arena)
    (found : t.at? path = some id)
    (gains : ∀ entry, (f (t.get id).members).entries.count entry =
      (t.get id).members.entries.count entry + added.count entry) :
    t.Gains (t.modifyMembers id f) (added.map (path, ·)) [] where
  arena := arena.modifyMembers id f
  found sought other here := by rwa [at?_modifyMembers]
  paths sought := by simp
  entries := count_entriesAt arena found gains

theorem gains_addChild (arena : t.Arena) (found : t.at? path = some id) (name : String) :
    t.Gains (t.addChild id name).2 [] [path ++ [name]] where
  arena := arena.addChild ((at?_eq_some arena).mp found).1 name
  found sought other here :=
    (t.grows_addChild id name).at? arena (arena.addChild ((at?_eq_some arena).mp found).1 name) here
  paths sought := by
    rw [at?_addChild arena found, List.mem_singleton]
    by_cases new : sought = path ++ [name] <;> simp [new]
  entries sought entry := by simp [entriesAt_addChild arena found]

section Insert

variable (arena : t.Arena) (found : t.at? path = some id)

include arena found

theorem gains_insertVariable (v : Variable)
    (fresh : (t.get id).members.globals.find? v.name = none) :
    t.Gains (t.insertVariable id v) ([Entry.variable none v.name v.value.isSome].map (path, ·)) [] := by
  apply gains_modifyMembers arena found
  intro entry
  exact Members.count_insertVariable entry v fresh

theorem gains_insertClass (c : ClassDeclaration)
    (fresh : (t.get id).members.classes.find? c.name = none) :
    t.Gains (t.insertClass id c) ((Entry.class c.name :: c.entries c.name).map (path, ·)) [] := by
  apply gains_modifyMembers arena found
  intro entry
  exact Members.count_insertClass entry c fresh

theorem gains_insertEnum (e : EnumDeclaration)
    (fresh : (t.get id).members.enums.find? e.name = none) :
    t.Gains (t.insertEnum id e) ([Entry.enum e.name e.members].map (path, ·)) [] := by
  apply gains_modifyMembers arena found
  intro entry
  exact Members.count_insertEnum entry e fresh

theorem gains_addFunction? {f : FunctionDefinition} {grown : ModuleTree}
    (added : t.addFunction? id f = some grown) :
    t.Gains grown ([Entry.function none f.name].map (path, ·)) [] := by
  obtain ⟨functions, add, rfl⟩ := Option.map_eq_some_iff.mp added
  apply gains_modifyMembers arena found
  intro entry
  exact Members.count_addFunction entry add

end Insert

theorem not_contains {α : Type} {table : SymbolTable α} {name : String}
    (free : table.contains name = false) : table.find? name = none := by
  simpa [SymbolTable.contains] using free

theorem nameTaken_eq_false {m : Module} {name : String} (free : m.nameTaken name = false) :
    m.members.globals.find? name = none ∧ m.members.classes.find? name = none ∧
      m.members.enums.find? name = none := by
  simp only [Module.nameTaken, Bool.or_eq_false_iff] at free
  exact ⟨not_contains free.1.1.1, not_contains free.1.1.2, not_contains free.1.2⟩

end ModuleTree

namespace Environment

variable {env : Environment} {setting : Setting} {first head : Token} {tail rest : List Token}
  {mods : LeadingModifiers} {accepted : Accepted} {path : List String}

/-- The current scope is that of the module at `path`. -/
structure InModule (env : Environment) (path : List String) : Prop where
  isModule : env.frame.isModule = true
  arena : env.modules.Arena
  place : env.modules.at? path = some env.currentModule

/-- What a header in a module opens in the first pass. -/
inductive Opens (env : Environment) (header : List Token) : Environment → Prop
  | module {name : String} {id : ModuleId} {modules : ModuleTree} {node : Node} :
      Outline.title? header = some (.module, name) →
      env.modules.addChild env.currentModule name = (id, modules) →
      Opens env header ({ env with modules }.push (.module id) node)
  | «class» {c : ClassDeclaration} {node : Node} :
      Outline.title? header = some (.class, c.name) → (∀ owner, c.entries owner = []) →
      (env.modules.get env.currentModule).nameTaken c.name = false →
      Opens env header
        ({ env with modules := env.modules.insertClass env.currentModule c }.push
          (.class env.currentModule c) node)
  | enum {e : EnumDeclaration} {node : Node} :
      Outline.title? header = some (.enum, e.name) → e.members = [] →
      (env.modules.get env.currentModule).nameTaken e.name = false →
      Opens env header
        ({ env with modules := env.modules.insertEnum env.currentModule e }.push
          (.enum env.currentModule e) node)

theorem Opens.depth {header : List Token} {opened : Environment} (opens : env.Opens header opened) :
    opened.scopes.depth = env.scopes.depth + 1 := by
  cases opens <;> rfl

section OfModule

variable (inModule : env.InModule path)
  (modifiers : LeadingModifiers.read (first :: tail) = .ok (mods, head :: rest))

include modifiers

theorem titleless_of_word {k : Keyword} (kind : head.kind = .keyword k)
    (other : k ≠ .module ∧ k ≠ .class ∧ k ≠ .enum) :
    Outline.Untitled (first :: tail) ∧ Outline.Defined (first :: tail) := by
  refine ⟨untitled_of_read modifiers ?_ ?_ ?_, defined_of_keyword modifiers kind⟩
  all_goals simp_all

include inModule

theorem InModule.addsFunction {h : Header} {body : FunctionBody} {declared : Environment}
    (kind : head.kind = .keyword .fn) (header : Header.read env mods head rest = .ok h)
    (added : env.addFunction? (env.definition mods h body) = some declared) :
    declared.scopes = env.scopes ∧
      (Outline.Untitled (first :: tail) ∧ Outline.Defined (first :: tail)) ∧
      env.modules.Gains declared.modules
        ((Outline.entries none (first :: tail)).map (path, ·)) [] := by
  obtain ⟨isModule, arena, place⟩ := inModule
  have module : env.owner = .module env.currentModule := by
    unfold owner
    split
    next frame =>
      rw [frame] at isModule
      cases isModule
    next => rfl
  simp only [addFunction?, definition, module] at added
  obtain ⟨modules, add, rfl⟩ := Option.map_eq_some_iff.mp added
  refine ⟨rfl, titleless_of_word modifiers kind (by decide), ?_⟩
  rw [entries_function none modifiers kind header]
  exact ModuleTree.gains_addFunction? arena place add

theorem InModule.addsVariable (pass : setting.declaring = true)
    (starts : startsVariable head = true) (ends : Ends head rest .semicolon)
    (read : env.variableStatement setting mods head rest = .ok accepted) :
    accepted.environment.scopes = env.scopes ∧
      (Outline.Untitled (first :: tail) ∧ Outline.Defined (first :: tail)) ∧
      env.modules.Gains accepted.environment.modules
        ((Outline.entries none (first :: tail)).map (path, ·)) [] := by
  obtain ⟨isModule, arena, place⟩ := inModule
  obtain ⟨placement, placed, ⟨_, v, name, declared, names, _, added, rfl⟩ | ⟨kept, _⟩⟩ :=
    variableStatement_eq_ok read
  · have global : placement = .global := by
      unfold Environment.placement at placed
      cases frame : env.frame with
      | parent =>
          simp only [frame, Checked.bind_eq_ok] at placed
          obtain ⟨_, _, same⟩ := placed
          cases same
          rfl
      | module =>
          simp only [frame] at placed
          cases placed
          rfl
      | _ =>
          rw [frame] at isModule
          cases isModule
    subst global
    simp only [declareVariable?] at added
    split at added
    next => cases added
    next free =>
      cases added
      have fresh := (ModuleTree.nameTaken_eq_false (by simpa using free)).1
      refine ⟨rfl, ⟨untitled_of_variable modifiers starts,
        defined_of_names modifiers names ends⟩, ?_⟩
      rw [entries_variable none modifiers starts names]
      exact ModuleTree.gains_insertVariable arena place v fresh
  · rw [pass] at kept
    cases kept

end OfModule

-- A module takes what stands in it, or another one opens in it, a class or an enum.
theorem statement_ofModule (pass : setting.declaring = true) (inModule : env.InModule path)
    (read : env.statement setting first tail = ⟨accepted.environment, .ok accepted.node⟩) :
    (accepted.environment.scopes = env.scopes ∧
      (Outline.Untitled (first :: tail) ∧ Outline.Defined (first :: tail)) ∧
      env.modules.Gains accepted.environment.modules
        ((Outline.entries none (first :: tail)).map (path, ·)) []) ∨
    (Ends first tail .leftBrace ∧ env.Opens (first :: tail) accepted.environment) := by
  have isModule := inModule.isModule
  have bare : env.frame.isBlock = false := isBlock_of_isModule isModule
  obtain ⟨mods, head, rest, modifiers, accepts⟩ := statement_accepts read
  have dispatched : env.read setting mods head rest = .ok accepted := by
    refine statement_read read modifiers (.inr ?_)
    intro id e frame
    rw [frame] at isModule
    cases isModule
  generalize same : (⟨accepted.environment, accepted.node⟩ : Accepted) = found at accepts
  have environment : accepted.environment = found.environment := congrArg Accepted.environment same
  rw [environment]
  cases accepts with
  | moduleDeclared kind titled _ _ added =>
      have ⟨brace, shape, _⟩ := titled
      have title := title_of_read modifiers kind shape
      exact .inr ⟨ends_of_read titled.ends modifiers, .module title added⟩
  | classDeclared kind titled _ _ free fresh =>
      have ⟨brace, shape, _⟩ := titled
      subst fresh
      have title := title_of_read modifiers kind shape
      exact .inr ⟨ends_of_read titled.ends modifiers, .class title (fun _ => rfl) free⟩
  | enumDeclared kind titled _ _ free fresh =>
      have ⟨brace, shape, _⟩ := titled
      subst fresh
      have title := title_of_read modifiers kind shape
      exact .inr ⟨ends_of_read titled.ends modifiers, .enum title rfl free⟩
  | functionDeclared kind _ _ _ header _ added =>
      exact .inl (inModule.addsFunction modifiers kind header added)
  | nativeDeclared kind _ _ _ header added =>
      exact .inl (inModule.addsFunction modifiers kind header added)
  | libraryEnded kind =>
      refine .inl ⟨rfl, titleless_of_word modifiers kind (by decide), ?_⟩
      have undeclaring : Outline.entries none (first :: tail) = [] := by
        unfold Outline.entries
        rw [Outline.lead_of_read modifiers]
        cases rest <;> simp [kind]
      rw [undeclaring]
      exact ModuleTree.gains_refl inModule.arena
  | variableDefined starts ends =>
      have adds := inModule.addsVariable modifiers pass starts ends
        (read_variable starts bare dispatched).2
      exact .inl (environment ▸ adds)
  | _ =>
      cases frame : env.frame
      all_goals simp_all [Frame.isModule, Frame.isBlock, Frame.block?]

@[simp] theorem frame_withFrame (env : Environment) (frame : Frame) :
    (env.withFrame frame).frame = frame :=
  env.frame_modifyCurrent frame

@[simp] theorem withFrame_withFrame (env : Environment) (frame other : Frame) :
    (env.withFrame frame).withFrame other = env.withFrame other := by
  unfold withFrame
  simp only [ScopeStack.modifyCurrent_modifyCurrent]

theorem withFrame_self {frame : Frame} (same : env.frame = frame) : env.withFrame frame = env := by
  obtain ⟨modules, ⟨opened, base⟩, inLibrary⟩ := env
  subst same
  cases opened <;> rfl

theorem opened_withFrame (env : Environment) (frame : Frame) :
    (env.withFrame frame).scopes.opened ≠ [] ↔ env.scopes.opened ≠ [] := by
  unfold withFrame ScopeStack.modifyCurrent
  cases env.scopes.opened <;> simp

variable {last : Environment} {waiting : Option Node} {o : Outline} {id : ModuleId}
  {alarms : List Token}

theorem Reads.ofEnum {e : EnumDeclaration} (reads : Reads setting waiting env o last alarms)
    (pass : setting.declaring = true) (idle : waiting = none) (frame : env.frame = .enum id e)
    (deep : env.scopes.opened ≠ []) :
    last = env.withFrame (.enum id { e with members := e.members ++ o.memberNames }) := by
  have bare : ∀ {e env}, Environment.frame env = .enum id e → env.frame.isBlock = false := by
    intro e env frame
    rw [frame]
    rfl
  induction reads generalizing e with
  | nil =>
      simp only [Outline.memberNames, List.append_nil]
      exact (withFrame_self frame).symm
  | statement warns read _ _ ih =>
      cases warns.warned.eq (bare frame)
      obtain ⟨_, _, declares, _⟩ := statement_ofEnum frame deep read
      rw [settled_declaring pass, declares pass] at ih
      rw [ih rfl (frame_withFrame _ _) ((opened_withFrame _ _).mpr deep), withFrame_withFrame]
      simp only [Outline.memberNames, List.append_assoc]
  | passed warns read leftBrace =>
      cases warns.warned.eq (bare frame)
      have semicolon := (statement_ofEnum frame deep read).1
      rw [Ends, leftBrace] at semicolon
      cases semicolon
  | block warns read leftBrace =>
      cases warns.warned.eq (bare frame)
      have semicolon := (statement_ofEnum frame deep read).1
      rw [Ends, leftBrace] at semicolon
      cases semicolon
  | completes => cases idle

theorem Reads.ofClass {c : ClassDeclaration} (reads : Reads setting waiting env o last alarms)
    (pass : setting.declaring = true) (idle : waiting = none) (frame : env.frame = .class id c)
    (deep : env.scopes.opened ≠ []) :
    o.Complete ∧ ∃ grown : ClassDeclaration, grown.name = c.name ∧
      last = env.withFrame (.class id grown) ∧
      ∀ owner entry, (grown.entries owner).count entry =
        (c.entries owner).count entry + (o.classEntries owner).count entry := by
  have bare : ∀ {c env}, Environment.frame env = .class id c → env.frame.isBlock = false := by
    intro c env frame
    rw [frame]
    rfl
  induction reads generalizing c with
  | nil => exact ⟨trivial, c, rfl, (withFrame_self frame).symm, by simp [Outline.classEntries]⟩
  | statement warns read _ _ ih =>
      cases warns.warned.eq (bare frame)
      obtain ⟨⟨_, defined⟩, grown, named, after, counts⟩ := statement_ofClass pass frame deep read
      rw [settled_declaring pass, after] at ih
      obtain ⟨complete, later, named', after', counts'⟩ :=
        ih rfl (frame_withFrame _ _) ((opened_withFrame _ _).mpr deep)
      refine ⟨⟨defined, complete⟩, later, named'.trans named, by rw [after', withFrame_withFrame], fun owner entry => ?_⟩
      rw [counts', counts, Outline.classEntries, List.count_append, Nat.add_assoc]
  | passed warns read _ _ _ ih =>
      cases warns.warned.eq (bare frame)
      obtain ⟨⟨untitled, _⟩, grown, named, after, counts⟩ :=
        statement_ofClass pass frame deep read
      rw [settled_declaring pass, after] at ih
      obtain ⟨complete, later, named', after', counts'⟩ :=
        ih rfl (frame_withFrame _ _) ((opened_withFrame _ _).mpr deep)
      refine ⟨untitled.complete _ _ complete, later, named'.trans named, by rw [after', withFrame_withFrame], fun owner entry => ?_⟩
      rw [counts', counts, Outline.classEntries, List.count_append, Nat.add_assoc]
  | block warns read _ deeper =>
      cases warns.warned.eq (bare frame)
      obtain ⟨_, grown, _, after, _⟩ := statement_ofClass pass frame deep read
      rw [after] at deeper
      exact absurd (ScopeStack.depth_modifyCurrent _ _) deeper
  | completes => cases idle

section Closes

variable {after : Environment} {scope : Scope}

-- In the first pass, only a class or an enum leaves anything when it closes.
theorem Closes.ofModule (closes : Closes setting env scope after waiting)
    (pass : setting.declaring = true) (kept : scope.discard = false)
    (frame : scope.frame = .module id) : waiting = none ∧ after = env := by
  cases closes with
  | discarded discard => simp [kept] at discard
  | module => exact ⟨rfl, append_declaring pass _ _⟩
  | _ => simp_all

theorem Closes.ofClass {c : ClassDeclaration} (closes : Closes setting env scope after waiting)
    (pass : setting.declaring = true) (kept : scope.discard = false)
    (frame : scope.frame = .class id c) :
    waiting = none ∧ after = { env with modules := env.modules.insertClass id c } := by
  cases closes with
  | discarded discard => simp [kept] at discard
  | «class» _ same =>
      rw [frame] at same
      cases same
      rw [if_pos pass]
      exact ⟨rfl, append_declaring pass _ _⟩
  | module _ isModule => simp [frame, Frame.isModule] at isModule
  | _ => simp_all

theorem Closes.ofEnum {e : EnumDeclaration} (closes : Closes setting env scope after waiting)
    (pass : setting.declaring = true) (kept : scope.discard = false)
    (frame : scope.frame = .enum id e) :
    waiting = none ∧ after = { env with modules := env.modules.insertEnum id e } := by
  cases closes with
  | discarded discard => simp [kept] at discard
  | enum _ same =>
      rw [frame] at same
      cases same
      rw [if_pos pass]
      exact ⟨rfl, append_declaring pass _ _⟩
  | module _ isModule => simp [frame, Frame.isModule] at isModule
  | _ => simp_all

end Closes

theorem InModule.of_gains {after : Environment} {declared : List (List String × Entry)}
    {opened : List (List String)} (inModule : env.InModule path)
    (scopes : after.scopes = env.scopes) (gains : env.modules.Gains after.modules declared opened) :
    after.InModule path where
  isModule := by rw [frame, scopes]; exact inModule.isModule
  arena := gains.arena
  place := by rw [currentModule, scopes]; exact gains.found _ _ inModule.place

theorem currentModule_push {id : ModuleId} (env : Environment) (node : Node) :
    (env.push (.module id) node).currentModule = id := rfl

theorem Opens.closes {header : List Token} {opened full after : Environment} {inner : Outline}
    {brace : Token} {scope : Scope} {scopes : ScopeStack} (opens : env.Opens header opened)
    (pass : setting.declaring = true) (inModule : env.InModule path)
    (reads : Reads setting none opened inner full alarms)
    (inside : ∀ path, opened.InModule path → inner.Complete ∧ full.scopes = opened.scopes ∧
      opened.modules.Gains full.modules (inner.declared path) (inner.modulePaths path))
    (popped : full.scopes.pop? = some (scope, scopes))
    (closes : Closes setting { full with scopes } scope after waiting) :
    waiting = none ∧ after.scopes = env.scopes ∧
      (∀ rest : Outline, rest.Complete → (Outline.block header inner brace rest).Complete) ∧
      ∀ rest : Outline, ∃ declared paths, env.modules.Gains after.modules declared paths ∧
        (Outline.block header inner brace rest).declared path = declared ++ rest.declared path ∧
        (Outline.block header inner brace rest).modulePaths path = paths ++ rest.modulePaths path := by
  obtain ⟨isModule, arena, place⟩ := inModule
  cases opens with
  | @module name id modules node title added =>
      have child : (env.modules.addChild env.currentModule name).2 = modules := by rw [added]
      have first : (env.modules.addChild env.currentModule name).1 = id := by rw [added]
      have gains := ModuleTree.gains_addChild arena place name
      rw [child] at gains
      obtain ⟨complete, same, further⟩ := inside (path ++ [name]) ⟨rfl, gains.arena, by
        rw [currentModule_push, ← first]
        show modules.at? _ = _
        rw [← child, ModuleTree.at?_addChild arena place, if_pos rfl]⟩
      rw [same] at popped
      cases popped
      obtain ⟨rfl, rfl⟩ := closes.ofModule pass rfl rfl
      refine ⟨rfl, rfl, fun rest behind => ⟨fun _ _ => complete, behind⟩,
        fun rest => ⟨_, _, gains.trans further, ?_, ?_⟩⟩
      · simp [Outline.declared, title]
      · simp [Outline.modulePaths, title]
  | @«class» c node title empty free =>
      obtain ⟨complete, grown, named, rfl, counts⟩ :=
        reads.ofClass pass rfl rfl (by simp [push, ScopeStack.push])
      cases popped
      obtain ⟨rfl, rfl⟩ := closes.ofClass pass rfl rfl
      have fresh := (ModuleTree.nameTaken_eq_false free).2.1
      rw [← named] at fresh
      have members : (Entry.class grown.name :: grown.entries grown.name).Perm
          (.class c.name :: inner.classEntries c.name) := by
        rw [named, List.perm_cons, List.perm_iff_count]
        intro entry
        rw [counts, empty, List.count_nil, Nat.zero_add]
      have gains := (ModuleTree.gains_insertClass arena place grown fresh).congr (members.map _)
      rw [← ModuleTree.insertClass_insertClass named] at gains
      refine ⟨rfl, rfl, fun rest behind => ⟨fun _ _ => complete, behind⟩,
        fun rest => ⟨_, [], gains, ?_, ?_⟩⟩
      · simp [Outline.declared, title]
      · simp [Outline.modulePaths, title]
  | @enum e node title empty free =>
      have same := reads.ofEnum pass rfl rfl (by simp [push, ScopeStack.push])
      rw [empty, List.nil_append] at same
      cases same
      cases popped
      obtain ⟨rfl, rfl⟩ := closes.ofEnum pass rfl rfl
      have fresh := (ModuleTree.nameTaken_eq_false free).2.2
      let full : EnumDeclaration := { e with members := inner.memberNames }
      have gains := ModuleTree.gains_insertEnum arena place full fresh
      rw [← ModuleTree.insertEnum_insertEnum (show full.name = e.name from rfl)] at gains
      refine ⟨rfl, rfl, fun rest behind => ⟨by simp [title], behind⟩,
        fun rest => ⟨_, [], gains, ?_, ?_⟩⟩
      · simp [Outline.declared, title, full]
      · simp [Outline.modulePaths, title]

theorem Reads.ofModule (reads : Reads setting waiting env o last alarms) (pass : setting.declaring = true)
    (idle : waiting = none) (inModule : env.InModule path) :
    o.Complete ∧ last.scopes = env.scopes ∧
      env.modules.Gains last.modules (o.declared path) (o.modulePaths path) := by
  have bare : ∀ {env path}, InModule env path → env.frame.isBlock = false :=
    fun inModule => isBlock_of_isModule inModule.isModule
  induction reads generalizing path with
  | nil => exact ⟨trivial, rfl, ModuleTree.gains_refl inModule.arena⟩
  | statement warns read semicolon _ ih =>
      cases warns.warned.eq (bare inModule)
      rw [settled_declaring pass] at ih
      obtain ⟨scopes, ⟨_, defined⟩, gains⟩ | ⟨brace, opens⟩ := statement_ofModule pass inModule read
      · obtain ⟨complete, scopes', gains'⟩ := ih rfl (inModule.of_gains scopes gains)
        exact ⟨⟨defined, complete⟩, scopes'.trans scopes, gains.trans gains'⟩
      · rw [Ends, semicolon] at brace
        cases brace
  | passed warns read _ level _ ih =>
      cases warns.warned.eq (bare inModule)
      rw [settled_declaring pass] at ih
      obtain ⟨scopes, ⟨untitled, _⟩, gains⟩ | ⟨brace, opens⟩ := statement_ofModule pass inModule read
      · obtain ⟨complete, scopes', gains'⟩ := ih rfl (inModule.of_gains scopes gains)
        refine ⟨untitled.complete _ _ complete, scopes'.trans scopes, ?_⟩
        rw [(untitled.block _ _ _ _).1, (untitled.block _ _ _ _).2]
        exact gains.trans gains'
      · rw [opens.depth] at level
        omega
  | block warns read _ deeper inner popped closes _ ihInner ih =>
      cases warns.warned.eq (bare inModule)
      rw [settled_declaring pass] at inner ihInner
      obtain ⟨scopes, _, _⟩ | ⟨brace, opens⟩ := statement_ofModule pass inModule read
      · rw [scopes] at deeper
        exact absurd rfl deeper
      · obtain ⟨rfl, scopes, goesOn, behind⟩ := opens.closes pass inModule inner
          (fun path inside => ihInner rfl inside) popped closes
        obtain ⟨declared, paths, gains, same, same'⟩ := behind _
        obtain ⟨complete, scopes', gains'⟩ := ih rfl (inModule.of_gains scopes gains)
        refine ⟨goesOn _ complete, scopes'.trans scopes, ?_⟩
        rw [same, same']
        exact gains.trans gains'
  | completes => cases idle

end Environment

end MiLanguage

