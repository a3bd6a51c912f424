import MiLanguage.Proofs.Analysis.Progress
import MiLanguage.Proofs.Expression.Bound
import MiLanguage.Proofs.Places.Arena
import MiLanguage.Proofs.Places.Statement

set_option autoImplicit false

namespace MiLanguage

namespace Indexed

variable {env : Environment} {setting : Setting} {mods : LeadingModifiers} {first : Token}
  {tokens : List Token}

section Declarations

def openModule (env : Environment) (setting : Setting) (mods : LeadingModifiers)
    (rest : List Token) : Indexed Accepted := do
  let keyword ← get rest[0]?
  check mods.requireNone
  check (match env.frame with
    | .parent _ | .module _ => pure ()
    | _ => blame ScopeFault.misplacedModule keyword)
  let name ← check (declaredName rest[1]? keyword "module")
  requireBrace name rest 2 "after module name"
  check do
    let node := Node.new .createModule keyword.streamLine [.leaf .identifier name]
    if setting.declaring then
      let (id, modules) := env.modules.addChild env.currentModule name.lexeme
      .ok ⟨{ env with modules }.push (.module id) node, none⟩
    else
      match env.modules.child? env.currentModule name.lexeme with
      | some id => .ok ⟨env.push (.module id) node, none⟩
      | none => blame InternalFault.undeclaredModule name

theorem openModule_eq : openModule env setting mods (first :: tokens) =
    check (env.openModule setting mods first tokens) := by
  unfold openModule Environment.openModule
  rw [List.getElem?_cons_zero, get_some, pure_bind, List.getElem?_cons_succ, ← List.head?_eq_getElem?]
  refine check_bind fun _ _ => ?_
  cases env.frame with
  | parent id | module id =>
      dsimp only
      rw [show check (pure () : Checked Unit) = pure () from rfl, pure_bind]
      refine check_bind fun name _ => ?_
      rw [requireBrace_eq, show (first :: tokens).drop 2 = tokens.tail by cases tokens <;> rfl]
      exact check_bind fun _ _ => rfl
  | _ => rfl

-- The header of a class or an enum: a name at place one, and a brace.
def title (rest : List Token) (keyword : Token) (what place : String) : Indexed Token := do
  let name ← check (declaredName rest[1]? keyword what)
  requireBrace name rest 2 place
  pure name

theorem title_bind {β : Type} {what place : String} {k : Token → Indexed β}
    {h : Token → Checked β} (each : ∀ name, k name = check (h name)) :
    (title (first :: tokens) first what place >>= k) = check (do
      let name ← declaredName tokens.head? first what
      MiLanguage.requireBrace name tokens.tail place
      h name) := by
  unfold title
  rw [List.getElem?_cons_succ, ← List.head?_eq_getElem?, bind_assoc]
  refine check_bind fun name _ => ?_
  rw [requireBrace_eq, bind_assoc, show (first :: tokens).drop 2 = tokens.tail by cases tokens <;> rfl]
  refine check_bind fun _ _ => ?_
  rw [pure_bind, each]

def openClass (env : Environment) (setting : Setting) (mods : LeadingModifiers)
    (rest : List Token) : Indexed Accepted := do
  let keyword ← get rest[0]?
  check (mods.requireVisibilityOnly "classes")
  check (env.requireTypePlace keyword "classes" "Classes")
  let name ← title rest keyword "class" "after class name"
  check do
    let id := env.currentModule
    let line := keyword.streamLine
    let node := Node.new .createClass line [.leaf .identifier name, mods.node line]
    if setting.declaring then
      env.requireFreeName name
      let c : ClassDeclaration :=
        { name := name.lexeme, modifiers := mods.set, origin := env.originOf name }
      .ok ⟨{ env with modules := env.modules.insertClass id c }.push (.class id c) node, none⟩
    else
      match (env.modules.get id).members.classes.find? name.lexeme with
      | some c => .ok ⟨env.push (.class id c) node, none⟩
      | none => .ok ⟨env, none⟩

theorem openClass_eq : openClass env setting mods (first :: tokens) =
    check (env.openClass setting mods first tokens) := by
  unfold openClass Environment.openClass
  rw [List.getElem?_cons_zero, get_some, pure_bind]
  exact check_bind fun _ _ => check_bind fun _ _ => title_bind fun _ => rfl

def openEnum (env : Environment) (setting : Setting) (mods : LeadingModifiers)
    (rest : List Token) : Indexed Accepted := do
  let keyword ← get rest[0]?
  check (mods.requireVisibilityOnly "enums")
  check (env.requireTypePlace keyword "enums" "Enums")
  let name ← title rest keyword "enum" "after enum name"
  check do
    let id := env.currentModule
    let line := keyword.streamLine
    let node := Node.new .createEnum line [.leaf .identifier name, mods.node line]
    if setting.declaring then
      env.requireFreeName name
      let e : EnumDeclaration :=
        { name := name.lexeme, modifiers := mods.set, origin := env.originOf name }
      .ok ⟨{ env with modules := env.modules.insertEnum id e }.push (.enum id e) node, none⟩
    else
      match (env.modules.get id).members.enums.find? name.lexeme with
      | some e => .ok ⟨env.push (.enum id e) node, none⟩
      | none => .ok ⟨env, none⟩

theorem openEnum_eq : openEnum env setting mods (first :: tokens) =
    check (env.openEnum setting mods first tokens) := by
  unfold openEnum Environment.openEnum
  rw [List.getElem?_cons_zero, get_some, pure_bind]
  exact check_bind fun _ _ => check_bind fun _ _ => title_bind fun _ => rfl

def readMembers (mods : LeadingModifiers) (rest : List Token) : Indexed (List Token) := do
  check mods.requireNone
  let names ← upToLast 0 .semicolon rest "after enum members"
  let last ← last rest
  let parts ← get (parts names)
  check (Environment.memberNames last parts)

theorem readMembers_eq : readMembers mods (first :: tokens) =
    check (Environment.readMembers mods first tokens) := by
  unfold readMembers Environment.readMembers
  rw [upToLast_all _ first, last_cons]
  refine check_bind fun _ _ => check_bind fun names _ => ?_
  rw [pure_bind, parts_eq, get_some, pure_bind]

def declareMembers (env : Environment) (setting : Setting) (id : ModuleId) (e : EnumDeclaration)
    (mods : LeadingModifiers) (rest : List Token) :
    Option (Environment × Except Report (Option Node)) := do
  match ← (readMembers mods rest).run with
  | .error report => some (env, .error report)
  | .ok names =>
      let first ← rest[0]?
      let node := Node.new .enumValues first.streamLine (names.map (Node.leaf .identifier))
      some (
        if setting.declaring then
          if e.members.isEmpty then
            let (e, repeated) := Environment.addMembers e names
            let env := { env with
              scopes := env.scopes.modifyCurrent fun s => { s with frame := .enum id e } }
            match repeated with
            | some name => (env, blame (SyntaxFault.memberAgain name.lexeme) name)
            | none => (env, .ok (some node))
          else (env, blame SyntaxFault.membersAgain first)
        else (env, .ok (some node)))

theorem run_check {α : Type} (x : Checked α) : (check x).run = some x := rfl

theorem declareMembers_eq (id : ModuleId) (e : EnumDeclaration) :
    declareMembers env setting id e mods (first :: tokens) =
      some (env.declareMembers setting id e mods first tokens) := by
  unfold declareMembers Environment.declareMembers
  rw [readMembers_eq, run_check]
  cases Environment.readMembers mods first tokens <;> rfl

def function (env : Environment) (setting : Setting) (mods : LeadingModifiers)
    (rest : List Token) : Indexed Accepted := do
  let keyword ← get rest[0]?
  check (mods.requireNoMutability "functions")
  check (env.requireFunctionPlace keyword)
  let h ← header env mods rest
  let line := keyword.streamLine
  let parts := [.leaf .identifier h.name, h.returnNode line, mods.node line, h.parametersNode line]
  check (match h.hostClass with
    | some hostClass =>
        if setting.declaring then
          match NativeBinding.bind setting.host hostClass.lexeme h.name.lexeme h.paramTypes
              h.returnType with
          | .ok binding => env.declareFunction mods h (.native binding)
          | .error e => blame (NativeFault.binding e) h.name
        else
          .ok ⟨env, some (.new .nativeFunctionDefinition line
            (parts ++ [.leaf .nativeHostClass hostClass]))⟩
    | none =>
        if setting.declaring then env.declareFunction mods h .pending
        else
          .ok ⟨env.openBody h.returnType (.function env.owner h.name.lexeme h.paramTypes) h.params
            h.name (.new .functionDefinition line parts), none⟩)

theorem function_eq : function env setting mods (first :: tokens) =
    check (env.function setting mods first tokens) := by
  unfold function Environment.function
  rw [List.getElem?_cons_zero, get_some, pure_bind, header_eq]
  exact check_bind fun _ _ => check_bind fun _ _ => check_bind fun _ _ => rfl

def constructor (env : Environment) (setting : Setting) (mods : LeadingModifiers)
    (rest : List Token) : Indexed Accepted := do
  let keyword ← get rest[0]?
  let (id, c) ← match env.frame with
    | .class id c => pure (id, c)
    | _ => check (blame ScopeFault.outsideClass keyword)
  check (mods.requireNoMutability "constructors")
  let (read_, i) ← parameters env rest 1
  let last ← last rest
  requireBrace last rest i "after constructor arguments"
  check do
    let h : Header := { name := keyword, parameters := read_ }
    let line := keyword.streamLine
    if setting.declaring then
      require c.constructor.isNone ResolutionFault.constructorAgain keyword
      let f : FunctionDefinition :=
        { name := "new", returnType := .void, parameters := h.params, modifiers := mods.set
          owner := .inClass id c.name, fileId := keyword.span.fileId, line, body := .pending }
      let scopes := env.scopes.modifyCurrent fun s =>
        { s with frame := .class id { c with constructor := some f } }
      .ok ⟨{ env with scopes }, none⟩
    else
      .ok ⟨env.openBody .void (.constructor id c.name) h.params keyword
        (.new .createConstructor line [mods.node line, h.parametersNode line]), none⟩

theorem constructor_eq : constructor env setting mods (first :: tokens) =
    check (env.constructor setting mods first tokens) := by
  unfold constructor Environment.constructor
  rw [List.getElem?_cons_zero, get_some, pure_bind]
  cases env.frame with
  | «class» id c =>
      dsimp only
      rw [pure_bind, Checked.ok_bind]
      refine check_bind fun _ _ => parameters_bind 1 fun ps i => ?_
      dsimp only
      rw [last_cons, pure_bind, requireBrace_eq]
      exact check_bind fun _ _ => rfl
  | _ => rfl

end Declarations

section Dispatch

-- Reads a statement that is no list of enum members.
def read (env : Environment) (setting : Setting) (mods : LeadingModifiers) (rest : List Token) :
    Indexed Accepted := do
  let first ← get rest[0]?
  match first.kind with
  | .keyword .module => openModule env setting mods rest
  | .keyword .«class» => openClass env setting mods rest
  | .keyword .enum => openEnum env setting mods rest
  | .keyword .fn => function env setting mods rest
  | .keyword .new => constructor env setting mods rest
  | .keyword .«if» => openConditional env mods .branch .ifStatement rest
  | .keyword .«while» => openConditional env mods .whileLoop .whileStatement rest
  | .keyword .«do» => openDo env mods rest
  | .keyword .«for» => openFor env setting mods rest
  | .keyword .ret => returnStatement env mods rest
  | .keyword .«break» => loopExit env mods .breakStatement rest
  | .keyword .«continue» => loopExit env mods .continueStatement rest
  | .keyword .use => useStatement env mods rest
  | .keyword .libraryEnd => endLibrary env mods rest
  | .question => variableStatement env setting mods rest
  | .identifier => nameStatement env setting mods rest
  | kind =>
      if kind.isDatatype then variableStatement env setting mods rest
      else check (blame (SyntaxFault.unwanted first.lexeme .noStatement) first)

-- The keywords and types that a statement starts with are no ends of statements.
theorem read_eq : read env setting mods (first :: tokens) =
    check (env.read setting mods first tokens) := by
  unfold read Environment.read
  rw [List.getElem?_cons_zero, get_some, pure_bind]
  cases kind : first.kind with
  | keyword k =>
      cases k with
      | module => exact openModule_eq
      | «class» => exact openClass_eq
      | enum => exact openEnum_eq
      | fn => exact function_eq
      | new => exact constructor_eq
      | «if» | «while» => exact openConditional_eq (by simp [kind])
      | «do» => exact openDo_eq
      | «for» => exact openFor_eq (by simp [kind])
      | ret => exact returnStatement_eq (by simp [kind])
      | «break» => exact loopExit_eq .breakStatement
      | «continue» => exact loopExit_eq .continueStatement
      | use => exact useStatement_eq
      | libraryEnd => exact endLibrary_eq
  | identifier => exact nameStatement_eq (by simp [kind])
  | datatype p =>
      dsimp only
      by_cases typed : (TokenKind.datatype p).isDatatype = true
      · rw [if_pos typed, if_pos typed]
        exact variableStatement_eq (by simp [kind])
      · rw [if_neg typed, if_neg typed]
  | punctuation p =>
      cases p with
      | question => exact variableStatement_eq (by simp [kind])
      | _ => rfl
  | _ => rfl

def dispatch (env : Environment) (setting : Setting) (mods : LeadingModifiers)
    (rest : List Token) : Option Outcome := do
  let first ← rest[0]?
  match first.kind, env.frame with
  | .identifier, .enum id e =>
      let (env, result) ← declareMembers env setting id e mods rest
      some ⟨env, result⟩
  | _, _ =>
      let result ← (read env setting mods rest).run
      some (.ofChecked env result)

theorem dispatch_eq : dispatch env setting mods (first :: tokens) =
    some (env.dispatch setting mods first tokens) := by
  unfold dispatch Environment.dispatch
  simp only [List.getElem?_cons_zero, Option.bind_eq_bind, Option.bind_some, declareMembers_eq, read_eq,
    run_check]
  cases first.kind with
  | identifier => cases env.frame <;> rfl
  | _ => rfl

-- Reads a statement, its modifiers included.
def statement (env : Environment) (setting : Setting) (tokens : List Token) : Option Outcome := do
  match ← (modifiersFrom tokens {} 0).run with
  | .error report => some ⟨env, .error report⟩
  | .ok (mods, rest) =>
      if rest.isEmpty then
        let first ← tokens[0]?
        some ⟨env, blame SyntaxFault.modifiersAlone first⟩
      else dispatch env setting mods rest

theorem statement_eq : statement env setting (first :: tokens) =
    some (env.statement setting first tokens) := by
  unfold statement Environment.statement
  rw [modifiersFrom_eq (Nat.zero_le _), List.drop_zero, run_check]
  unfold LeadingModifiers.read
  generalize LeadingModifiers.readFrom _ _ _ = found
  cases found with
  | error report => rfl
  | ok both =>
      obtain ⟨mods, rest⟩ := both
      cases rest with
      | nil => rfl
      | cons head rest => exact dispatch_eq

end Dispatch

section Passes

-- Skips what is in a block, up to the brace that closes it.
def skipBody (s : AnalysisState) (brace : Token) : Option AnalysisState := do
  match ← skipBlock 1 s.remaining with
  | some rest => some { s with remaining := rest }
  | none =>
      some (({ s with remaining := [] } : AnalysisState).report
        (SyntaxFault.expected .rightBrace "to close this block") brace)

theorem skipBody_eq (s : AnalysisState) (brace : Token) : skipBody s brace = some (s.skipBlock brace) := by
  unfold skipBody AnalysisState.skipBlock
  rw [skipBlock_eq]
  cases Chunk.skipBlock 0 s.remaining <;> rfl

def recover (s : AnalysisState) (head brace : Token) : Option AnalysisState :=
  if s.skipsBody head then skipBody s brace else some (s.pushRecovery head)

theorem recover_eq (s : AnalysisState) (head brace : Token) :
    recover s head brace = some (s.recover head brace) := by
  unfold recover AnalysisState.recover
  rw [skipBody_eq]
  split <;> rfl

-- Reads a statement that neither closes a scope nor completes a `do` block.
def readStatement (s : AnalysisState) (first : Token) (tokens : List Token) :
    Option AnalysisState := do
  let s := s.checkReachable first
  let depth := s.environment.scopes.depth
  let outcome ← statement s.environment s.setting tokens
  let s := { s with environment := outcome.environment }
  let s := match outcome.result with
    | .error r => s.reportTo r
    | .ok _ => s
  let last := tokens.getLast?.getD first
  let s ←
    if last.is .leftBrace && s.environment.scopes.depth = depth then
      recover s ((tokens.find? (!·.kind.isModifier)).getD first) last
    else some s
  some (match outcome.result with
    | .ok (some node) => s.append node
    | _ => s)

theorem readStatement_eq (s : AnalysisState) (first : Token) (rest : List Token) :
    readStatement s first (first :: rest) = some (s.readStatement first rest) := by
  unfold readStatement AnalysisState.readStatement
  simp only [statement_eq, Option.bind_eq_bind, Option.bind_some, recover_eq, List.getLast?_cons,
    Option.getD_some]
  generalize (s.checkReachable first).environment.statement (s.checkReachable first).setting first rest =
    outcome
  obtain ⟨after, result⟩ := outcome
  cases result with
  | error r => dsimp only; split <;> rfl
  | ok node => dsimp only; split <;> rfl

def statementOrBrace (s : AnalysisState) (first : Token) (tokens : List Token) :
    Option AnalysisState :=
  if first.is .rightBrace then some (s.closeScope first) else readStatement s first tokens

theorem statementOrBrace_eq (s : AnalysisState) (first : Token) (rest : List Token) :
    statementOrBrace s first (first :: rest) = some (s.statementOrBrace first rest) := by
  unfold statementOrBrace AnalysisState.statementOrBrace
  rw [readStatement_eq]
  split <;> rfl

def finishDo (s : AnalysisState) (block : Node) (tokens : List Token) : Option AnalysisState := do
  let keyword ← tokens[0]?
  let stop ← minus? tokens.length 1
  let test ← slice? tokens 1 stop
  let s := { s with pendingDo := none }
  match ← (condition s.environment test keyword).run with
  | .ok node => some (s.append (block.push node))
  | .error r => some ((s.reportTo r).append block)

theorem finishDo_eq (s : AnalysisState) (block : Node) {first : Token} {rest : List Token}
    (more : rest ≠ []) :
    finishDo s block (first :: rest) = some (s.finishDo block first rest.dropLast) := by
  have longer := List.length_pos_iff.mpr more
  have slice : slice? (first :: rest) 1 ((first :: rest).length - 1) = some rest.dropLast := by
    rw [slice_of_le (by simp only [List.length_cons]; omega) (Nat.sub_le _ _), ← List.dropLast_eq_take,
      List.dropLast_cons_of_ne_nil more]
    rfl
  unfold finishDo AnalysisState.finishDo
  simp only [List.getElem?_cons_zero, Option.bind_eq_bind, Option.bind_some, slice, condition_eq,
    run_check, minus_of_le (show 1 ≤ (first :: rest).length by simp)]
  cases s.environment.wrappedCondition rest.dropLast first <;> rfl

-- Takes a whole statement.
def takeStatement (s : AnalysisState) (tokens : List Token) : Option AnalysisState := do
  let first ← tokens[0]?
  match s.pendingDo with
  | none => statementOrBrace s first tokens
  | some block =>
      if first.is (.keyword .«while») && (tokens.getLast?.getD first).is .semicolon then
        finishDo s block tokens
      else
        statementOrBrace (s.report (SyntaxFault.doWithoutWhile false) first).flushDo first tokens

theorem takeStatement_eq (s : AnalysisState) (first : Token) (rest : List Token) :
    takeStatement s (first :: rest) = some (s.statement first rest) := by
  unfold takeStatement AnalysisState.statement
  simp only [List.getElem?_cons_zero, Option.bind_eq_bind, Option.bind_some, statementOrBrace_eq,
    List.getLast?_cons, Option.getD_some]
  cases s.pendingDo with
  | none => rfl
  | some block =>
      dsimp only
      split
      next completes =>
        have more : rest ≠ [] := by
          rintro rfl
          simp only [List.getLast?_nil, Option.getD_none, Bool.and_eq_true, Token.is_iff] at completes
          rw [completes.1] at completes
          cases completes.2
        exact finishDo_eq s block more
      next => rfl

-- Takes the next statement, or what stands in for one, off the remaining tokens.
def step (s : AnalysisState) : Option (Option AnalysisState) :=
  match s.remaining with
  | [] => some none
  | first :: rest =>
      let (chunk, rest) := Chunk.next first rest
      let s := { s with remaining := rest }
      match chunk with
      | .statement first rest => (takeStatement s (first :: rest)).map some
      | .endsAtBrace brace =>
          some (some (s.report (SyntaxFault.expected .semicolon "before '\x7d'") brace))
      | .endsAtInput last =>
          some (some (s.report (SyntaxFault.expected .semicolon "at end of input") last))

theorem step_eq (s : AnalysisState) : step s = some s.step := by
  unfold step AnalysisState.step
  cases s.remaining with
  | nil => rfl
  | cons first rest =>
      dsimp only
      cases (Chunk.next first rest).1 with
      | statement first rest =>
          dsimp only
          rw [takeStatement_eq]
          rfl
      | endsAtBrace | endsAtInput => rfl

-- Statement after statement, for as long as there are tokens.
def loop (s : AnalysisState) : Option AnalysisState :=
  match _taken : step s with
  | none => none
  | some none => some s
  | some (some t) => loop t
termination_by s.remaining.length
decreasing_by
  rw [step_eq] at _taken
  exact AnalysisState.step_remaining_lt (Option.some.inj _taken)

theorem loop_eq {s : AnalysisState} {bound : Nat} (enough : s.remaining.length ≤ bound) :
    loop s = some (s.steps bound) := by
  induction bound generalizing s with
  | zero =>
      have halted : s.step = none := by
        have nil := List.length_eq_zero_iff.mp (Nat.le_zero.mp enough)
        unfold AnalysisState.step
        rw [nil]
      unfold loop
      split
      next stuck => rw [step_eq] at stuck; cases stuck
      next => rfl
      next t taken => rw [step_eq, halted] at taken; cases taken
  | succ bound ih =>
      unfold loop AnalysisState.steps
      split
      next stuck => rw [step_eq] at stuck; cases stuck
      next taken =>
        rw [step_eq] at taken
        rw [Option.some.inj taken]
      next t taken =>
        rw [step_eq] at taken
        have stepped := Option.some.inj taken
        have fewer := AnalysisState.step_remaining_lt stepped
        rw [stepped]
        exact ih (by omega)

def runPass (setting : Setting) (modules : ModuleTree) (log : DiagnosticLog) (tokens : List Token) :
    Option AnalysisState := do
  let s ← loop (Analysis.startPass setting modules log tokens)
  some (s.finish tokens.getLast?)

theorem runPass_eq (setting : Setting) (modules : ModuleTree) (log : DiagnosticLog)
    (tokens : List Token) :
    runPass setting modules log tokens = some (Analysis.runPass setting modules log tokens) := by
  unfold runPass Analysis.runPass
  rw [loop_eq (Nat.le_refl _)]
  rfl

-- The analysis of a list of tokens, each taken by its place.
def ofTokens (host : Host) (maxErrors : Nat) (tokens : List Token) : Option Analysis := do
  let first ← runPass ⟨.declarations, host⟩ .empty { maxErrors } tokens
  let modules := first.environment.modules
  if first.log.failed then some ⟨Analysis.emptyRoot, modules, first.log⟩
  else
    let second ← runPass ⟨.bodies, host⟩ modules first.log tokens
    some ⟨second.root, second.environment.modules, second.log⟩

theorem ofTokens_eq (host : Host) (maxErrors : Nat) (tokens : List Token) :
    ofTokens host maxErrors tokens = some (Analysis.ofTokens host maxErrors tokens) := by
  unfold ofTokens Analysis.ofTokens
  simp only [runPass_eq, Option.bind_eq_bind, Option.bind_some]
  split <;> rfl

end Passes

end Indexed

end MiLanguage
