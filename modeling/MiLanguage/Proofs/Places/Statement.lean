import MiLanguage.Proofs.Places.Readers

set_option autoImplicit false

namespace MiLanguage

namespace Indexed

variable {α β : Type} {env : Environment} {setting : Setting} {mods : LeadingModifiers}
  {first : Token} {tokens : List Token}

section Variables

-- The tokens of the initial value. The name stands at place one.
def initialTokens (rest : List Token) : Indexed (Option (Token × List Token)) :=
  match rest[2]? with
  | none => pure none
  | some t =>
      if t.is .assign then do
        let value ← get (slice? rest 3 rest.length)
        pure (some (t, value))
      else check (blame (SyntaxFault.unwanted t.lexeme .afterVariableName) t)

theorem initialTokens_eq (first : Token) (tokens : List Token) :
    initialTokens (first :: tokens) = check (MiLanguage.initialTokens tokens.tail) := by
  have left : (first :: tokens).drop 2 = tokens.tail := by cases tokens <;> rfl
  generalize tokens.tail = behind at left
  unfold initialTokens
  cases behind with
  | nil =>
      rw [drop_nil left]
      rfl
  | cons t behind =>
      obtain ⟨here, next, inside⟩ := drop_cons left
      rw [here]
      dsimp only
      rw [slice_to_end inside, next, MiLanguage.initialTokens]
      split <;> rfl

-- A definition, its type at place zero.
def newVariable (env : Environment) (placement : Placement) (mods : LeadingModifiers)
    (rest : List Token) (stop : Token) : Indexed (Environment × Node) := do
  let typeToken ← get rest[0]?
  check (match mods.first? (· = .nat) with
    | some t => blame (SyntaxFault.misplacedModifier "nat" "variables") t
    | none => .ok ())
  let name ← check (declaredName rest[1]? typeToken "variable")
  let initial ← initialTokens rest
  check do
    let declared ←
      if typeToken.is .question then .ok none
      else do .ok (some (← env.resolveDatatype typeToken mods.set.isNullable))
    let value ← match initial with
      | none => .ok none
      | some (equals, value) => do .ok (some (← env.expression value equals))
    let valueToken := (initial.bind fun (_, value) => value.head?).getD stop
    let type ← Environment.variableType declared value mods.set.isNullable name typeToken valueToken
    require (!(mods.set.isConst && value.isNone)) (TypeFault.constantWithoutValue name.lexeme) name
    let v : Variable :=
      { name := name.lexeme
        type
        modifiers := mods.set
        origin := env.originOf name
        initialized := value.isSome
        value := value.map Typed.node }
    match env.declareVariable? placement v with
    | none => blame (ResolutionFault.variableAgain name.lexeme) name
    | some env => .ok (env, variableNode typeToken name mods type (value.map Typed.node))

theorem newVariable_eq (placement : Placement) (stop : Token) :
    newVariable env placement mods (first :: tokens) stop =
      check (env.newVariable placement mods first tokens stop) := by
  unfold newVariable Environment.newVariable
  rw [List.getElem?_cons_zero, get_some, pure_bind, initialTokens_eq, List.getElem?_cons_succ,
    ← List.head?_eq_getElem?]
  cases mods.first? (· = .nat) with
  | some t => rfl
  | none =>
      dsimp only
      rw [check_ok, pure_bind]
      exact check_bind fun name _ => check_bind fun initial _ => rfl

-- The node of a global or a field that is declared already.
def knownVariable (env : Environment) (placement : Placement) (mods : LeadingModifiers)
    (rest : List Token) : Option (Option Node) :=
  match rest[1]? with
  | none => some none
  | some name =>
      match env.findMember? placement name.lexeme with
      | none => some none
      | some v => do
          let typeToken ← rest[0]?
          let name ← rest[1]?
          some (some (variableNode typeToken name mods v.type v.value))

theorem knownVariable_eq (placement : Placement) : knownVariable env placement mods (first :: tokens) =
    some (env.knownVariable placement mods first tokens) := by
  unfold knownVariable Environment.knownVariable
  rw [List.getElem?_cons_succ, ← List.head?_eq_getElem?]
  cases tokens.head? with
  | none => rfl
  | some name => cases found : env.findMember? placement name.lexeme <;> simp [found]

def variableStatement (env : Environment) (setting : Setting) (mods : LeadingModifiers)
    (rest : List Token) : Indexed Accepted := do
  let definition ← upToLast 0 .semicolon rest "after variable definition"
  let last ← last rest
  let typeToken ← get definition[0]?
  let placement ← check (env.placement typeToken)
  if setting.declaring || placement = .inBlock then do
    let (env, node) ← newVariable env placement mods definition last
    pure ⟨env, some node⟩
  else do
    let node ← get (knownVariable env placement mods definition)
    pure ⟨env, node⟩

theorem variableStatement_eq (other : first.kind ≠ .semicolon) :
    variableStatement env setting mods (first :: tokens) =
      check (env.variableStatement setting mods first tokens) := by
  unfold variableStatement Environment.variableStatement
  rw [upToLast_cons other, last_cons]
  cases MiLanguage.dropLastOf .semicolon first tokens "after variable definition" with
  | error report => rfl
  | ok front =>
      refine check_bind (x := env.placement first) fun placement _ => ?_
      rw [newVariable_eq, knownVariable_eq]
      split
      · exact check_bind fun found _ => rfl
      · rfl

-- `target op`, perhaps with a value. The caller has seen the operator.
def assign (env : Environment) (implied : Bool) (tokens : List Token) :
    Indexed (Environment × Node) := do
  let target ← get tokens[0]?
  let op ← get tokens[1]?
  check (require (target.is .identifier) (SyntaxFault.unwanted target.lexeme .noVariableName) target)
  let v ← check (env.resolveVariable target)
  check (require (!v.modifiers.isConst) (TypeFault.constantReassigned target.lexeme) target)
  check (require (implied || v.canAssign) (TypeFault.immutableReassigned target.lexeme) target)
  let value ← match op.kind with
    | .increment => check (Environment.stepValue v .add op tokens[2]?.toList)
    | .decrement => check (Environment.stepValue v .sub op tokens[2]?.toList)
    | _ => do
        let value ← get (slice? tokens 2 tokens.length)
        check (env.assignedValue v op value)
  let name := Token.synthetic .identifier v.qualified target
  pure (env.markInitialized v, .new .varSetValue target.streamLine
    [.leaf .identifier name, .leaf .operator op, .new .value op.streamLine [value]])

theorem assign_eq (implied : Bool) (target op : Token) (tokens : List Token) :
    assign env implied (target :: op :: tokens) = check (env.assign implied target op tokens) := by
  have step (v : ResolvedVariable) (binary : BinaryOperator) :
      Environment.stepValue v binary op (target :: op :: tokens)[2]?.toList =
        Environment.stepValue v binary op tokens := by
    cases tokens <;> rfl
  unfold assign Environment.assign
  rw [List.getElem?_cons_zero, get_some, pure_bind, List.getElem?_cons_succ,
    List.getElem?_cons_zero, get_some, pure_bind]
  refine check_bind fun _ _ => check_bind fun v _ => check_bind fun _ _ => check_bind fun _ _ => ?_
  rw [step, step, slice_to_end (by simp)]
  dsimp only
  cases op.kind <;> exact check_bind fun _ _ => rfl

end Variables

section Control

def condition (env : Environment) (tokens : List Token) (keyword : Token) : Indexed Node := do
  match ← get (wrapped tokens) with
  | some (opening, inner) => check (env.conditionNode inner opening)
  | none => check (blame (SyntaxFault.conditionExpected keyword.lexeme) (tokens.headD keyword))

theorem condition_eq (keyword : Token) :
    condition env tokens keyword = check (env.wrappedCondition tokens keyword) := by
  unfold condition Environment.wrappedCondition
  rw [wrapped_eq, get_some, pure_bind]
  cases unwrap tokens <;> rfl

-- `v -> end`, with the arrow at place one.
def desugarRange (range : List Token) (keyword : Token) : Indexed (List Token × List Token) :=
  match range.findIdx? (·.is .arrow), range[0]? with
  | some i, some v =>
      if i ≠ 1 ∨ ¬v.is .identifier then check (blame SyntaxFault.loopVariableExpected v)
      else do
        let arrow ← get range[i]?
        let stop ← get (slice? range (i + 1) range.length)
        pure
          ([v, .synthetic (.binary .less) "<" arrow, .synthetic .leftParen "(" arrow] ++ stop ++
              [.synthetic .rightParen ")" arrow],
            [v, .synthetic .increment "++" arrow])
  | _, v => check (blame SyntaxFault.forHeader (v.getD keyword))

theorem desugarRange_eq (range : List Token) (keyword : Token) :
    desugarRange range keyword = check (MiLanguage.desugarRange range keyword) := by
  unfold desugarRange MiLanguage.desugarRange
  cases range with
  | nil => rfl
  | cons v rest =>
      rw [List.findIdx?_cons, List.getElem?_cons_zero, List.any_cons]
      by_cases first : v.is .arrow = true
      · have other : v.is .identifier = false := by
          have kind := (Token.is_iff _ _).mp first
          cases is : v.is .identifier with
          | false => rfl
          | true => rw [(Token.is_iff _ _).mp is] at kind; cases kind
        simp only [first, if_true, Bool.true_or, other]
        cases rest <;> rfl
      · have no : v.is .arrow = false := Bool.eq_false_iff.mpr first
        simp only [no, Bool.false_or, Bool.false_eq_true, if_false]
        cases rest with
        | nil => rfl
        | cons arrow stop =>
            rw [List.findIdx?_cons, List.any_cons]
            cases here : arrow.is .arrow with
            | true =>
                simp only [if_true, Option.map_some, Bool.true_or]
                cases v.is .identifier with
                | false => rfl
                | true =>
                    have behind : slice? (v :: arrow :: stop) 2 (v :: arrow :: stop).length = some stop :=
                      slice_to_end (by simp)
                    simp only [Nat.zero_add, ne_eq, not_true_eq_false, or_self, if_false,
                      List.getElem?_cons_succ, List.getElem?_cons_zero, get_some, pure_bind, behind,
                      here, Bool.and_self]
                    rfl
            | false =>
                simp only [Bool.false_or, Bool.false_eq_true, if_false]
                cases later : stop.findIdx? (·.is .arrow) with
                | none =>
                    have arrowless : stop.any (·.is .arrow) = false := by
                      rw [List.any_eq_false]
                      exact fun t member => Bool.not_eq_true _ ▸ List.findIdx?_eq_none_iff.mp later t member
                    rw [arrowless]
                    rfl
                | some i =>
                    have arrowed : stop.any (·.is .arrow) = true := by
                      obtain ⟨inside, holds, -⟩ := List.findIdx?_eq_some_iff_getElem.mp later
                      exact List.any_eq_true.mpr ⟨_, List.getElem_mem inside, holds⟩
                    simp only [arrowed, Option.map_some, here]
                    rw [if_pos (.inl (by omega)), Bool.and_false]
                    rfl

def forHead (keyword : Token) (inner : List Token) : Indexed ForHead := do
  let parts ← get (parts inner)
  match parts with
  | [start, condition, step] => pure ⟨start, condition, step, false⟩
  | [start, range] => do
      let (condition, step) ← desugarRange range keyword
      pure ⟨start, condition, step, true⟩
  | _ => check (blame SyntaxFault.forHeader keyword)

theorem forHead_eq (keyword : Token) (inner : List Token) :
    forHead keyword inner = check (ForHead.read keyword inner) := by
  unfold forHead ForHead.read
  rw [parts_eq, get_some, pure_bind]
  generalize splitCommas inner = parts
  rcases parts with _ | ⟨start, _ | ⟨range, _ | ⟨step, _ | ⟨extra, more⟩⟩⟩⟩
  case cons.cons.nil =>
    simp only [desugarRange_eq]
    exact check_bind fun _ _ => rfl
  all_goals rfl

def openConditional (env : Environment) (mods : LeadingModifiers) (kind : BlockKind)
    (nodeKind : NodeKind) (rest : List Token) : Indexed Accepted := do
  let keyword ← get rest[0]?
  check mods.requireNone
  check (env.requireBlock keyword)
  let head ← upToLast 1 .leftBrace rest s!"after '{keyword.lexeme}' condition"
  let condition ← condition env head keyword
  pure ⟨env.push (.block kind {}) (.new nodeKind keyword.streamLine [condition]), none⟩

theorem openConditional_eq {kind : BlockKind} {nodeKind : NodeKind} (other : first.kind ≠ .leftBrace) :
    openConditional env mods kind nodeKind (first :: tokens) =
      check (env.openConditional mods kind nodeKind first tokens) := by
  unfold openConditional Environment.openConditional
  rw [List.getElem?_cons_zero, get_some, pure_bind, upToLast_tail other]
  refine check_bind fun _ _ => check_bind fun _ _ => check_bind fun head _ => ?_
  rw [condition_eq]
  exact check_bind fun _ _ => rfl

def openDo (env : Environment) (mods : LeadingModifiers) (rest : List Token) : Indexed Accepted := do
  let keyword ← get rest[0]?
  check mods.requireNone
  check (env.requireBlock keyword)
  requireBrace keyword rest 1 "after 'do'"
  pure ⟨env.push (.block .doLoop {}) (.new .doStatement keyword.streamLine), none⟩

theorem openDo_eq : openDo env mods (first :: tokens) = check (env.openDo mods first tokens) := by
  unfold openDo Environment.openDo
  rw [List.getElem?_cons_zero, get_some, pure_bind]
  refine check_bind fun _ _ => check_bind fun _ _ => ?_
  rw [requireBrace_eq]
  exact check_bind fun _ _ => rfl

-- The definition at the start of a loop's head.
def loopDefinition (env : Environment) (tokens : List Token) (keyword : Token) :
    Indexed (Environment × Node) := do
  let (mods, rest) ← modifiersFrom tokens {} 0
  match rest[0]? with
  | none => check (blame SyntaxFault.definitionExpected keyword)
  | some first => do
      check (require
        (first.is .question || first.kind.isDatatype ||
          (first.is .identifier && rest[1]?.any (·.is .identifier)))
        SyntaxFault.definitionExpected first)
      let (env, node) ← newVariable env .inBlock mods rest keyword
      check do
        require (node.kind = .varDefAndSetValue) SyntaxFault.initialValueExpected first
        .ok (env, node)

theorem loopDefinition_eq (keyword : Token) :
    loopDefinition env tokens keyword = check (env.loopDefinition tokens keyword) := by
  unfold loopDefinition Environment.loopDefinition LeadingModifiers.read
  rw [modifiersFrom_eq (Nat.zero_le _), List.drop_zero]
  refine check_bind fun found _ => ?_
  obtain ⟨mods, rest⟩ := found
  cases rest with
  | nil => rfl
  | cons first rest =>
      dsimp only
      rw [List.getElem?_cons_zero, List.getElem?_cons_succ, ← List.head?_eq_getElem?]
      refine check_bind fun _ _ => ?_
      rw [newVariable_eq]
      exact check_bind fun _ _ => rfl

-- The step at the end of a loop's head.
def loopStep (env : Environment) (implied : Bool) (tokens : List Token) (keyword : Token) :
    Indexed (Environment × Node) :=
  let place := tokens.headD keyword
  if tokens[1]?.any (·.kind.isAssignment) then assign env implied tokens
  else if tokens.isEmpty then check (blame SyntaxFault.stepExpected place)
  else check (env.callStep tokens place)

theorem loopStep_eq (implied : Bool) (keyword : Token) :
    loopStep env implied tokens keyword = check (env.loopStep implied tokens keyword) := by
  cases tokens with
  | nil => rfl
  | cons target rest =>
      cases rest with
      | nil => rfl
      | cons op rest =>
          unfold loopStep Environment.loopStep
          rw [assign_eq]
          simp only [List.getElem?_cons_succ, List.getElem?_cons_zero, Option.any_some,
            List.isEmpty_cons, Bool.false_eq_true, if_false]
          exact check_ite _ _

def openFor (env : Environment) (setting : Setting) (mods : LeadingModifiers) (rest : List Token) :
    Indexed Accepted := do
  let keyword ← get rest[0]?
  check mods.requireNone
  check (env.requireBlock keyword)
  let header ← upToLast 1 .leftBrace rest "after 'for' header"
  let inner ← match ← get (wrapped header) with
    | some (_, inner) => pure inner
    | none => check (blame (SyntaxFault.expected .leftParen "after 'for'") (header.headD keyword))
  let head ← forHead keyword inner
  let line := keyword.streamLine
  let env := env.push (.block .loopHead {}) (.new .forFakeScope line)
  let (env, definition) ← loopDefinition env head.start keyword
  let condition ← check (env.conditionNode head.condition keyword)
  let (env, step) ← loopStep env head.implied head.step keyword
  let env := [definition, condition, .new .forInstruct line [step]].foldl
    (fun env node => env.append setting node) env
  pure ⟨env.push (.block .forLoop {}) (.new .forStatement line), none⟩

theorem openFor_eq (other : first.kind ≠ .leftBrace) : openFor env setting mods (first :: tokens) =
    check (env.openFor setting mods first tokens) := by
  unfold openFor Environment.openFor
  rw [List.getElem?_cons_zero, get_some, pure_bind, upToLast_tail other]
  refine check_bind fun _ _ => check_bind fun _ _ => check_bind fun header _ => ?_
  rw [wrapped_eq, get_some, pure_bind]
  cases unwrap header with
  | none => rfl
  | some found =>
      dsimp only
      rw [pure_bind, forHead_eq, Checked.ok_bind]
      refine check_bind fun head _ => ?_
      rw [loopDefinition_eq]
      refine check_bind fun defined _ => check_bind fun condition _ => ?_
      rw [loopStep_eq]
      exact check_bind fun _ _ => rfl

def returnStatement (env : Environment) (mods : LeadingModifiers) (rest : List Token) :
    Indexed Accepted := do
  let keyword ← get rest[0]?
  check mods.requireNone
  check (env.requireBlock keyword)
  let tokens ← upToLast 1 .semicolon rest "after return value"
  check do
    let value ← match tokens with
      | [] => .ok none
      | tokens => do .ok (some (← env.expression tokens keyword))
    let found := (value.map Typed.type).getD .void
    if let some wanted := env.scopes.returnType? then
      require (Environment.returnFits wanted found) (TypeFault.returned wanted found)
        (tokens.headD keyword)
    .ok
      ⟨env.modifyBlock fun b => { b with returned := true, terminated := true },
        some (.new .returnValue keyword.streamLine (value.map Typed.node).toList)⟩

theorem returnStatement_eq (other : first.kind ≠ .semicolon) :
    returnStatement env mods (first :: tokens) = check (env.returnStatement mods first tokens) := by
  unfold returnStatement Environment.returnStatement
  rw [List.getElem?_cons_zero, get_some, pure_bind, upToLast_tail other]
  exact check_bind fun _ _ => check_bind fun _ _ => check_bind fun _ _ => rfl

def loopExit (env : Environment) (mods : LeadingModifiers) (nodeKind : NodeKind)
    (rest : List Token) : Indexed Accepted := do
  let keyword ← get rest[0]?
  check mods.requireNone
  check (env.requireBlock keyword)
  requireEnd rest 1 s!"'{keyword.lexeme}'"
  check do
    require env.scopes.inLoop ScopeFault.outsideLoop keyword
    .ok ⟨env.modifyBlock ({ · with terminated := true }), some (.leaf nodeKind keyword)⟩

theorem loopExit_eq (nodeKind : NodeKind) : loopExit env mods nodeKind (first :: tokens) =
    check (env.loopExit mods nodeKind first tokens) := by
  unfold loopExit Environment.loopExit
  rw [List.getElem?_cons_zero, get_some, pure_bind]
  refine check_bind fun _ _ => check_bind fun _ _ => ?_
  rw [requireEnd_eq, List.drop_zero]
  exact check_bind fun _ _ => rfl

def useStatement (env : Environment) (mods : LeadingModifiers) (rest : List Token) :
    Indexed Accepted := do
  let keyword ← get rest[0]?
  check mods.requireNone
  check (env.requireBlock keyword)
  let path ← match rest[1]? with
    | none => check (blame SyntaxFault.moduleNameExpected keyword)
    | some t => if t.is .identifier then pure t else check (blame SyntaxFault.moduleNameExpected t)
  requireEnd rest 2 "module name"
  check (match env.resolveModule path.lexeme with
    | none => blame (ResolutionFault.moduleNotFound path.lexeme) path
    | some id =>
        let scopes := (env.scopes.addUse? id).getD env.scopes
        .ok ⟨{ env with scopes },
          some (.leaf .useStatement (.synthetic .identifier (env.modules.path id) path))⟩)

theorem useStatement_eq :
    useStatement env mods (first :: tokens) = check (env.useStatement mods first tokens) := by
  unfold useStatement Environment.useStatement
  rw [List.getElem?_cons_zero, get_some, pure_bind]
  refine check_bind fun _ _ => check_bind fun _ _ => ?_
  cases tokens with
  | nil => rfl
  | cons t tokens =>
      rw [List.getElem?_cons_succ, List.getElem?_cons_zero]
      dsimp only
      split
      · rw [pure_bind, Checked.ok_bind, requireEnd_eq, ← List.tail_drop, List.drop_zero]
        exact check_bind fun _ _ => rfl
      · rfl

def endLibrary (env : Environment) (mods : LeadingModifiers) (rest : List Token) :
    Indexed Accepted := do
  let keyword ← get rest[0]?
  check mods.requireNone
  requireEnd rest 1 "standard library end marker"
  check do
    require (env.inLibrary && env.scopes.depth = 1) InternalFault.misplacedLibraryEnd keyword
    .ok ⟨{ env with inLibrary := false }, some (.leaf .stdlibFinish keyword)⟩

theorem endLibrary_eq :
    endLibrary env mods (first :: tokens) = check (env.endLibrary mods first tokens) := by
  unfold endLibrary Environment.endLibrary
  rw [List.getElem?_cons_zero, get_some, pure_bind]
  refine check_bind fun _ _ => ?_
  rw [requireEnd_eq, List.drop_zero]
  exact check_bind fun _ _ => rfl

def callStatement (env : Environment) (mods : LeadingModifiers) (rest : List Token) :
    Indexed Accepted := do
  let first ← get rest[0]?
  check mods.requireNone
  check (env.requireBlock first)
  let call ← upToLast 0 .semicolon rest "after function call"
  check do
    let e ← env.expression call first
    require (e.node.kind = .functionCall) SyntaxFault.valueAsStatement first
    .ok ⟨env, some e.node⟩

theorem callStatement_eq :
    callStatement env mods (first :: tokens) = check (env.callStatement mods first tokens) := by
  unfold callStatement Environment.callStatement
  rw [List.getElem?_cons_zero, get_some, pure_bind, upToLast_all _ first]
  exact check_bind fun _ _ => check_bind fun _ _ => check_bind fun _ _ => rfl

def assignment (env : Environment) (mods : LeadingModifiers) (rest : List Token) :
    Indexed Accepted := do
  let target ← get rest[0]?
  check mods.requireNone
  check (env.requireBlock target)
  let tokens ← upToLast 0 .semicolon rest "after assignment"
  let (env, node) ← assign env false tokens
  pure ⟨env, some node⟩

theorem assignment_eq {op : Token} (other : first.kind ≠ .semicolon) (applies : op.kind ≠ .semicolon) :
    assignment env mods (first :: op :: tokens) = check (env.assignment mods first op tokens) := by
  unfold assignment Environment.assignment
  rw [List.getElem?_cons_zero, get_some, pure_bind, upToLast_cons other, dropLastOf_cons applies]
  refine check_bind fun _ _ => check_bind fun _ _ => ?_
  cases MiLanguage.dropLastOf .semicolon op tokens "after assignment" with
  | error report => rfl
  | ok front =>
      refine (congrArg (· >>= _) (assign_eq false first op front)).trans ?_
      exact check_bind fun _ _ => rfl

-- A statement that starts with a name.
def nameStatement (env : Environment) (setting : Setting) (mods : LeadingModifiers)
    (rest : List Token) : Indexed Accepted := do
  let first ← get rest[0]?
  match rest[1]? with
  | none => check (blame (SyntaxFault.unwanted first.lexeme .alone) first)
  | some second =>
      match second.kind with
      | .identifier => variableStatement env setting mods rest
      | .leftParen => callStatement env mods rest
      | kind =>
          if kind.isAssignment then assignment env mods rest
          else check (blame (SyntaxFault.unwanted second.lexeme (.after first.lexeme)) second)

theorem nameStatement_eq (other : first.kind ≠ .semicolon) :
    nameStatement env setting mods (first :: tokens) =
      check (env.nameStatement setting mods first tokens) := by
  unfold nameStatement Environment.nameStatement
  rw [List.getElem?_cons_zero, get_some, pure_bind]
  cases tokens with
  | nil => rfl
  | cons second rest =>
      rw [List.getElem?_cons_succ, List.getElem?_cons_zero]
      dsimp only
      cases kind : second.kind with
      | identifier => exact variableStatement_eq other
      | assign | compound | increment | decrement => exact assignment_eq other (by simp [kind])
      | punctuation p =>
          cases p with
          | leftParen => exact callStatement_eq
          | _ => rfl
      | _ => rfl

end Control

end Indexed

end MiLanguage
