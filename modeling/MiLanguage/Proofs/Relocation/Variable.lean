import MiLanguage.Proofs.Relocation.Expression

set_option autoImplicit false

namespace MiLanguage

variable {m : Relocation}

instance : Movable Accepted := ⟨fun m a => ⟨move m a.environment, move m a.node⟩⟩

section Variables

@[simp] theorem variableNode_move (typeToken name : Token) (mods : LeadingModifiers)
    (type : Datatype) (value : Option Node) :
    variableNode (move m typeToken) (move m name) (move m mods) type (move m value) =
      move m (variableNode typeToken name mods type value) := by
  have parts : [(move m mods).node (m.streamLine typeToken.streamLine),
      .leaf .identifier (move m name),
      typeNode (some (move m typeToken)) type (m.streamLine typeToken.streamLine)] =
      move m [mods.node typeToken.streamLine, .leaf .identifier name,
        typeNode (some typeToken) type typeToken.streamLine] := by
    rw [LeadingModifiers.node_move, leaf_move, ← move_some, typeNode_move]
    rfl
  cases value with
  | none => simp only [variableNode, move_none, streamLine_move, parts, node_new_move]
  | some value =>
      have whole : move m [mods.node typeToken.streamLine, .leaf .identifier name,
          typeNode (some typeToken) type typeToken.streamLine] ++
          [Node.new .value (m.streamLine typeToken.streamLine) [move m value]] =
          move m ([mods.node typeToken.streamLine, .leaf .identifier name,
            typeNode (some typeToken) type typeToken.streamLine] ++
            [Node.new .value typeToken.streamLine [value]]) := by
        rw [move_append]
        exact congrArg (move m _ ++ [·]) (node_new_move .value typeToken.streamLine [value])
      simp only [variableNode, move_some, streamLine_move, parts, whole, node_new_move]

@[simp] theorem initialTokens_move (rest : List Token) :
    initialTokens (move m rest) = move m (initialTokens rest) := by
  cases rest with
  | nil => rfl
  | cons t value =>
      simp only [move_cons, initialTokens, is_move, lexeme_move]
      exact ite_move rfl rfl

namespace Environment

@[simp] theorem placement_move (env : Environment) (place : Token) :
    (move m env).placement (move m place) = move m (env.placement place) := by
  unfold placement
  rw [frame_move, inLibrary_move]
  cases env.frame with
  | parent id => exact bind_move (require_move _ _ place) fun _ => rfl
  | _ => rfl

@[simp] theorem declareVariable?_move (env : Environment) (placement : Placement) (v : Variable) :
    (move m env).declareVariable? placement (move m v) = move m (env.declareVariable? placement v) := by
  cases placement with
  | inBlock =>
      simp only [declareVariable?, scopes_move, ScopeStack.declareLocal?_move]
      cases env.scopes.declareLocal? v <;> rfl
  | global =>
      simp only [declareVariable?, modules_move, currentModule_move, ModuleTree.get_move,
        nameTaken_move, variable_name_move, ModuleTree.insertVariable_move]
      exact ite_move rfl rfl
  | field =>
      have taken : (move m env.scopes.class?).all
            (fun x => (x.2.fields.contains (move m v).name)) =
          env.scopes.class?.all fun x => x.2.fields.contains v.name := by
        cases env.scopes.class? with
        | none => rfl
        | some found => exact SymbolTable.contains_move found.2.fields v.name
      have modified := ScopeStack.modifyClass?_move (m := m)
        (f := fun c => { c with fields := c.fields.insert v.name (move m v) })
        (g := fun c => { c with fields := c.fields.insert v.name v })
        (fun c => congrArg (fun fields => { move m c with fields })
          (SymbolTable.insert_move c.fields v.name v)) env.scopes
      simp only [declareVariable?, scopes_move, ScopeStack.class?_move]
      refine (congrArg (fun c : Bool => if c = true then none else _) taken).trans (ite_move rfl ?_)
      refine (congrArg (Option.map _) modified).trans ?_
      cases env.scopes.modifyClass? _ <;> rfl

@[simp] theorem findMember?_move (env : Environment) (placement : Placement) (name : String) :
    (move m env).findMember? placement name = move m (env.findMember? placement name) := by
  have member : ((move m env).modules.get (move m env).currentModule).members.globals.find? name =
      move m ((env.modules.get env.currentModule).members.globals.find? name) := by
    simp only [modules_move, currentModule_move, ModuleTree.get_move, members_move, globals_move,
      SymbolTable.find?_move]
  cases placement with
  | field =>
      simp only [findMember?, scopes_move, ScopeStack.class?_move]
      exact option_bind_move (β := Variable)
        (fun found => SymbolTable.find?_move found.2.fields name) _
  | global | inBlock => exact member

@[simp] theorem variableType_move (declared : Option Datatype) (value : Option Typed)
    (nullable : Bool) (name typeToken valueToken : Token) :
    variableType declared (move m value) nullable (move m name) (move m typeToken)
        (move m valueToken) =
      move m (variableType declared value nullable name typeToken valueToken) := by
  cases declared <;> cases value
  · rfl
  · exact bind_move (require_move _ _ typeToken) fun _ => rfl
  · rfl
  · exact bind_move (require_move _ _ valueToken) fun _ => rfl

-- What is left to do for a definition once its type and its value have been read.
theorem defines_move (env : Environment) (placement : Placement) (mods : LeadingModifiers)
    (typeToken name valueToken : Token) (declared : Option Datatype) (value : Option Typed) :
    (do
      let type ← variableType declared (move m value) mods.set.isNullable (move m name)
        (move m typeToken) (move m valueToken)
      require (!(mods.set.isConst && (move m value).isNone))
        (TypeFault.constantWithoutValue name.lexeme) (move m name)
      let v : Variable :=
        { name := name.lexeme
          type
          modifiers := mods.set
          origin := (move m env).originOf (move m name)
          initialized := (move m value).isSome
          value := (move m value).map Typed.node }
      match (move m env).declareVariable? placement v with
      | none => blame (ResolutionFault.variableAgain name.lexeme) (move m name)
      | some env => .ok (env, variableNode (move m typeToken) (move m name) (move m mods) type
          ((move m value).map Typed.node)) : Checked (Environment × Node)) =
    move m (do
      let type ← variableType declared value mods.set.isNullable name typeToken valueToken
      require (!(mods.set.isConst && value.isNone)) (TypeFault.constantWithoutValue name.lexeme) name
      let v : Variable :=
        { name := name.lexeme
          type
          modifiers := mods.set
          origin := env.originOf name
          initialized := value.isSome
          value := value.map Typed.node }
      match env.declareVariable? placement v with
      | none => blame (ResolutionFault.variableAgain name.lexeme) name
      | some env => .ok (env, variableNode typeToken name mods type (value.map Typed.node))) := by
  have node : (move m value).map Typed.node = move m (value.map Typed.node) := by
    cases value <;> rfl
  refine bind_move (variableType_move _ _ _ _ _ _) fun type => ?_
  rw [isNone_move, isSome_move, node]
  refine bind_move (require_move _ _ name) fun _ => ?_
  rw [originOf_move]
  simp only [move_datatype]
  have declares := declareVariable?_move (m := m) env placement
    { name := name.lexeme, type, modifiers := mods.set, origin := env.originOf name,
      initialized := value.isSome, value := value.map Typed.node }
  refine (congrArg (fun found : Option Environment => match found with
    | none => blame (ResolutionFault.variableAgain name.lexeme) (move m name)
    | some env => .ok (env, variableNode (move m typeToken) (move m name) (move m mods) type
        (move m (value.map Typed.node)))) declares).trans ?_
  generalize env.declareVariable? placement _ = found
  cases found with
  | none => rfl
  | some env => simp only [move_some, variableNode_move, move_ok, move_pair]

@[simp] theorem newVariable_move (env : Environment) (placement : Placement)
    (mods : LeadingModifiers) (typeToken : Token) (tokens : List Token) (stop : Token) :
    (move m env).newVariable placement (move m mods) (move m typeToken) (move m tokens)
        (move m stop) =
      move m (env.newVariable placement mods typeToken tokens stop) := by
  unfold newVariable
  rw [LeadingModifiers.first?_move]
  cases mods.first? (· = .nat) with
  | some t => rfl
  | none =>
      simp only [move_none]
      rw [head?_move, tail_move]
      refine bind_move (declaredName_move _ _ _) fun name => ?_
      refine bind_move (initialTokens_move _) fun initial => ?_
      have place : ((move m initial).bind fun x => x.2.head?).getD (move m stop) =
          move m ((initial.bind fun x => x.2.head?).getD stop) := by
        rw [option_bind_move (β := Token) (g := fun x => x.2.head?) fun x => head?_move x.2,
          getD_move]
      simp only [place, Checked.ok_bind]
      cases initial with
      | none =>
          have rest := defines_move (m := m) env placement mods typeToken name stop
          refine ite_move (rest none none) ?_
          exact bind_move (resolveDatatype_move env typeToken _) fun type => rest (some type) none
      | some initial =>
          obtain ⟨equals, value⟩ := initial
          have rest := defines_move (m := m) env placement mods typeToken name (value.head?.getD stop)
          refine ite_move ?_ ?_
          · exact bind_move (expression_move env value equals) fun e => rest none (some e)
          · refine bind_move (resolveDatatype_move env typeToken _) fun type => ?_
            exact bind_move (expression_move env value equals) fun e => rest (some type) (some e)

@[simp] theorem knownVariable_move (env : Environment) (placement : Placement)
    (mods : LeadingModifiers) (typeToken : Token) (tokens : List Token) :
    (move m env).knownVariable placement (move m mods) (move m typeToken) (move m tokens) =
      move m (env.knownVariable placement mods typeToken tokens) := by
  unfold knownVariable
  rw [head?_move]
  refine option_bind_move (β := Node) (fun name => ?_) _
  rw [lexeme_move, findMember?_move]
  refine option_bind_move (β := Node) (fun v => ?_) _
  simp only [variable_type_move, variable_value_move, variableNode_move, move_some]

@[simp] theorem variableStatement_move (env : Environment) (setting : Setting)
    (mods : LeadingModifiers) (typeToken : Token) (tokens : List Token) :
    (move m env).variableStatement setting (move m mods) (move m typeToken) (move m tokens) =
      move m (env.variableStatement setting mods typeToken tokens) := by
  unfold variableStatement
  refine bind_move (dropLastOf_move _ _ _ _) fun definition => ?_
  refine bind_move (placement_move env typeToken) fun placement => ?_
  simp only [move_placement, getLast?_move, getD_move, knownVariable_move]
  refine ite_move (bind_move (newVariable_move _ _ _ _ _ _) ?_) rfl
  rintro ⟨env, node⟩
  rfl

@[simp] theorem markInitialized_move (env : Environment) (v : ResolvedVariable) :
    (move m env).markInitialized v = move m (env.markInitialized v) := by
  obtain ⟨name, qualified, type, modifiers, initialized, place⟩ := v
  cases place with
  | inBlock =>
      refine congrArg (fun scopes => { move m env with scopes })
        (ScopeStack.modifyLocal_move (g := fun l =>
          { l with declaration := { l.declaration with initialized := true } }) ?_ env.scopes name)
      exact fun _ => rfl
  | inModule id =>
      refine congrArg (fun modules => { move m env with modules })
        (ModuleTree.modifyVariable_move (g := ({ · with initialized := true })) ?_ env.modules id name)
      exact fun _ => rfl
  | inClass =>
      refine congrArg (fun scopes : Option ScopeStack =>
          { move m env with scopes := scopes.getD (move m env.scopes) })
        (ScopeStack.modifyClass?_move (g := fun c =>
          { c with fields := c.fields.modify name ({ · with initialized := true }) }) ?_ env.scopes)
          |>.trans ?_
      · refine fun c => congrArg (fun fields => { move m c with fields })
          (SymbolTable.modify_move (g := ({ · with initialized := true })) ?_ c.fields name)
        exact fun _ => rfl
      · rw [getD_move]
        rfl

@[simp] theorem assignedValue_move (env : Environment) (v : ResolvedVariable) (op : Token)
    (tokens : List Token) :
    (move m env).assignedValue v (move m op) (move m tokens) =
      move m (env.assignedValue v op tokens) := by
  refine bind_move (expression_move env tokens op) fun value => ?_
  simp only [kind_move, typed_type_move, headD_move, typed_node_move, Checked.ok_bind]
  cases op.kind.applied? with
  | none => exact bind_move (require_move _ _ _) fun _ => rfl
  | some binary =>
      simp only
      cases Datatype.binaryResult binary v.type value.type with
      | none => rfl
      | some type => exact bind_move (require_move _ _ _) fun _ => rfl

@[simp] theorem stepValue_move (v : ResolvedVariable) (binary : BinaryOperator) (op : Token)
    (tokens : List Token) :
    stepValue v binary (move m op) (move m tokens) = move m (stepValue v binary op tokens) := by
  unfold stepValue
  rw [head?_move]
  cases tokens.head? with
  | some extra => rfl
  | none =>
      refine bind_move (require_move _ _ op) fun _ => ?_
      simp only [synthetic_move, leaf_move, typed_move, move_ok]

@[simp] theorem assign_move (env : Environment) (implied : Bool) (target op : Token)
    (tokens : List Token) :
    (move m env).assign implied (move m target) (move m op) (move m tokens) =
      move m (env.assign implied target op tokens) := by
  refine bind_move (require_move _ _ target) fun _ => ?_
  refine bind_move (resolveVariable_move env target) fun v => ?_
  refine bind_move (require_move _ _ target) fun _ => ?_
  refine bind_move (require_move _ _ target) fun _ => ?_
  simp only [move_resolvedVariable, kind_move, markInitialized_move, streamLine_move, synthetic_move,
    leaf_move]
  have rest (value : Node) :
      ((.ok (move m (env.markInitialized v), .new .varSetValue (m.streamLine target.streamLine)
        [move m (Node.leaf .identifier (.synthetic .identifier v.qualified target)),
          move m (Node.leaf .operator op), .new .value (m.streamLine op.streamLine)
            [move m value]])) : Checked (Environment × Node)) =
      move m (.ok (env.markInitialized v, .new .varSetValue target.streamLine
        [.leaf .identifier (.synthetic .identifier v.qualified target), .leaf .operator op,
          .new .value op.streamLine [value]])) := by
    rw [move_ok, move_pair, move_new, move_cons, move_cons, move_cons, move_new]
    rfl
  split
  · exact bind_move (stepValue_move v _ op tokens) rest
  · exact bind_move (stepValue_move v _ op tokens) rest
  · exact bind_move (assignedValue_move env v op tokens) rest

end Environment

end Variables

section Loops

@[simp] theorem desugarRange_move (range : List Token) (keyword : Token) :
    desugarRange (move m range) (move m keyword) = move m (desugarRange range keyword) := by
  cases range with
  | nil => rfl
  | cons v rest =>
      simp only [desugarRange]
      rw [any_move fun t => is_move t _]
      refine bind_move (require_move _ _ v) fun _ => ?_
      cases rest with
      | nil => rfl
      | cons arrow stop =>
          refine bind_move (require_move _ _ v) fun _ => ?_
          simp only [move_ok, move_pair, move_append, move_cons, move_nil, synthetic_move]
          rfl

instance : Movable ForHead where
  move m head :=
    { head with
      start := move m head.start, condition := move m head.condition, step := move m head.step }

@[simp] theorem forHead_move (keyword : Token) (inner : List Token) :
    ForHead.read (move m keyword) (move m inner) = move m (ForHead.read keyword inner) := by
  unfold ForHead.read
  rw [splitCommas_move]
  match splitCommas inner with
  | [] | [_] => rfl
  | [start, range] =>
      refine bind_move (desugarRange_move range keyword) ?_
      rintro ⟨condition, step⟩
      rfl
  | [start, condition, step] => rfl
  | _ :: _ :: _ :: _ :: _ => rfl

namespace Environment

@[simp] theorem conditionNode_move (env : Environment) (tokens : List Token) (place : Token) :
    (move m env).conditionNode (move m tokens) (move m place) =
      move m (env.conditionNode tokens place) := by
  refine bind_move (expression_move env tokens place) fun e => ?_
  rw [headD_move]
  refine bind_move (require_move _ _ _) fun _ => ?_
  exact congrArg Except.ok (node_new_move .condition place.streamLine [e.node])

@[simp] theorem wrappedCondition_move (env : Environment) (tokens : List Token) (keyword : Token) :
    (move m env).wrappedCondition (move m tokens) (move m keyword) =
      move m (env.wrappedCondition tokens keyword) := by
  unfold wrappedCondition
  rw [unwrap_move, headD_move]
  cases unwrap tokens with
  | none => rfl
  | some found => exact conditionNode_move env found.2 found.1

@[simp] theorem openConditional_move (env : Environment) (mods : LeadingModifiers)
    (kind : BlockKind) (nodeKind : NodeKind) (keyword : Token) (tokens : List Token) :
    (move m env).openConditional (move m mods) kind nodeKind (move m keyword) (move m tokens) =
      move m (env.openConditional mods kind nodeKind keyword tokens) := by
  refine bind_move (LeadingModifiers.requireNone_move mods) fun _ => ?_
  refine bind_move (requireBlock_move env keyword) fun _ => ?_
  refine bind_move (dropLastOf_move _ _ _ _) fun head => ?_
  refine bind_move (wrappedCondition_move env head keyword) fun condition => ?_
  have node := node_new_move (m := m) nodeKind keyword.streamLine [condition]
  exact congrArg (fun node => Except.ok (⟨(move m env).push (.block kind {}) node, none⟩ : Accepted))
    node

@[simp] theorem openDo_move (env : Environment) (mods : LeadingModifiers) (keyword : Token)
    (tokens : List Token) :
    (move m env).openDo (move m mods) (move m keyword) (move m tokens) =
      move m (env.openDo mods keyword tokens) := by
  refine bind_move (LeadingModifiers.requireNone_move mods) fun _ => ?_
  refine bind_move (requireBlock_move env keyword) fun _ => ?_
  refine bind_move (requireBrace_move keyword tokens _) fun _ => ?_
  have node := node_empty_move (m := m) .doStatement keyword.streamLine
  exact congrArg
    (fun node => Except.ok (⟨(move m env).push (.block .doLoop {}) node, none⟩ : Accepted)) node

@[simp] theorem loopDefinition_move (env : Environment) (tokens : List Token) (keyword : Token) :
    (move m env).loopDefinition (move m tokens) (move m keyword) =
      move m (env.loopDefinition tokens keyword) := by
  refine bind_move (LeadingModifiers.read_move tokens) ?_
  rintro ⟨mods, rest⟩
  cases rest with
  | nil => rfl
  | cons first rest =>
      simp only [move_pair, move_cons, is_move, kind_move, head?_move]
      rw [option_any_move fun t => is_move t _]
      refine bind_move (require_move _ _ first) fun _ => ?_
      refine bind_move (newVariable_move env _ mods first rest keyword) ?_
      rintro ⟨env, node⟩
      simp only [move_pair, node_kind_move]
      exact bind_move (require_move _ _ first) fun _ => rfl

@[simp] theorem callStep_move (env : Environment) (tokens : List Token) (place : Token) :
    (move m env).callStep (move m tokens) (move m place) = move m (env.callStep tokens place) := by
  refine bind_move (expression_move env tokens place) fun e => ?_
  simp only [typed_node_move, node_kind_move]
  exact bind_move (require_move _ _ place) fun _ => rfl

@[simp] theorem loopStep_move (env : Environment) (implied : Bool) (tokens : List Token)
    (keyword : Token) :
    (move m env).loopStep implied (move m tokens) (move m keyword) =
      move m (env.loopStep implied tokens keyword) := by
  match tokens with
  | [] => rfl
  | [t] => exact callStep_move env [t] t
  | target :: op :: rest =>
      refine ite_move (assign_move env implied target op rest) ?_
      exact callStep_move env (target :: op :: rest) target

@[simp] theorem openFor_move (env : Environment) (setting : Setting) (mods : LeadingModifiers)
    (keyword : Token) (tokens : List Token) :
    (move m env).openFor setting (move m mods) (move m keyword) (move m tokens) =
      move m (env.openFor setting mods keyword tokens) := by
  refine bind_move (LeadingModifiers.requireNone_move mods) fun _ => ?_
  refine bind_move (requireBlock_move env keyword) fun _ => ?_
  refine bind_move (dropLastOf_move _ _ _ _) fun header => ?_
  rw [unwrap_move, headD_move]
  cases unwrap header with
  | none => rfl
  | some found =>
      obtain ⟨opening, inner⟩ := found
      simp only [move_some, move_pair, Checked.ok_bind]
      refine bind_move (forHead_move keyword inner) fun head => ?_
      have opened : (move m env).push (.block .loopHead {})
          (.new .forFakeScope (move m keyword).streamLine) =
          move m (env.push (.block .loopHead {}) (.new .forFakeScope keyword.streamLine)) := by
        rw [streamLine_move, node_empty_move]
        rfl
      rw [opened]
      refine bind_move (loopDefinition_move _ head.start keyword) ?_
      rintro ⟨env, definition⟩
      refine bind_move (conditionNode_move env head.condition keyword) fun condition => ?_
      refine bind_move (loopStep_move env head.implied head.step keyword) ?_
      rintro ⟨env, step⟩
      have parts : [move m definition, move m condition,
          .new .forInstruct (m.streamLine keyword.streamLine) [move m step]] =
          move m [definition, condition, .new .forInstruct keyword.streamLine [step]] := by
        rw [move_cons, move_cons, move_cons, move_new]
        rfl
      simp only [move_pair, streamLine_move, parts]
      rw [foldl_move (g := fun env node => env.append setting node)
        fun env node => append_move env setting node, node_empty_move]
      rfl

-- What a `ret` does once its value has been read.
theorem returned_move (env : Environment) (keyword place : Token) (value : Option Typed) :
    (do
      let found := ((move m value).map Typed.type).getD .void
      if let some wanted := (move m env).scopes.returnType? then
        require (returnFits wanted found) (TypeFault.returned wanted found) (move m place)
      .ok
        ⟨(move m env).modifyBlock fun b => { b with returned := true, terminated := true },
          some (.new .returnValue (m.streamLine keyword.streamLine)
            ((move m value).map Typed.node).toList)⟩ : Checked Accepted) =
    move m (do
      let found := (value.map Typed.type).getD .void
      if let some wanted := env.scopes.returnType? then
        require (returnFits wanted found) (TypeFault.returned wanted found) place
      .ok
        ⟨env.modifyBlock fun b => { b with returned := true, terminated := true },
          some (.new .returnValue keyword.streamLine (value.map Typed.node).toList)⟩) := by
  have found : (move m value).map Typed.type = value.map Typed.type := by cases value <;> rfl
  have nodes : ((move m value).map Typed.node).toList = move m (value.map Typed.node).toList := by
    cases value <;> rfl
  have blocks := modifyBlock_move (m := m)
    (f := fun b => { b with returned := true, terminated := true })
    (g := fun b => { b with returned := true, terminated := true }) (fun _ => rfl) env
  rw [found, nodes, scopes_move, ScopeStack.returnType?_move, blocks, node_new_move]
  cases env.scopes.returnType? with
  | none => rfl
  | some wanted => exact bind_move (require_move _ _ place) fun _ => rfl

@[simp] theorem returnStatement_move (env : Environment) (mods : LeadingModifiers)
    (keyword : Token) (tokens : List Token) :
    (move m env).returnStatement (move m mods) (move m keyword) (move m tokens) =
      move m (env.returnStatement mods keyword tokens) := by
  refine bind_move (LeadingModifiers.requireNone_move mods) fun _ => ?_
  refine bind_move (requireBlock_move env keyword) fun _ => ?_
  refine bind_move (dropLastOf_move _ _ _ _) fun tokens => ?_
  have ends (value : Option Typed) := returned_move (m := m) env keyword (tokens.headD keyword) value
  cases tokens with
  | nil => exact ends none
  | cons first rest =>
      refine bind_move (expression_move env (first :: rest) keyword) fun e => ?_
      exact ends (some e)

@[simp] theorem loopExit_move (env : Environment) (mods : LeadingModifiers) (nodeKind : NodeKind)
    (keyword : Token) (tokens : List Token) :
    (move m env).loopExit (move m mods) nodeKind (move m keyword) (move m tokens) =
      move m (env.loopExit mods nodeKind keyword tokens) := by
  refine bind_move (LeadingModifiers.requireNone_move mods) fun _ => ?_
  refine bind_move (requireBlock_move env keyword) fun _ => ?_
  rw [getLast?_move, getD_move]
  refine bind_move (requireEnd_move _ _ _) fun _ => ?_
  rw [scopes_move, ScopeStack.inLoop_move]
  refine bind_move (require_move _ _ keyword) fun _ => ?_
  have blocks := modifyBlock_move (m := m) (f := ({ · with terminated := true }))
    (g := ({ · with terminated := true })) (fun _ => rfl) env
  rw [blocks, leaf_move]
  rfl

-- What a `use` does with the path that it names.
theorem used_move (env : Environment) (keyword : Token) (tokens : List Token) (path : Token) :
    (do
      requireEnd (move m tokens).tail ((move m tokens).getLast?.getD (move m keyword)) "module name"
      match (move m env).resolveModule (move m path).lexeme with
      | none => blame (ResolutionFault.moduleNotFound (move m path).lexeme) (move m path)
      | some id =>
          let scopes := ((move m env).scopes.addUse? id).getD (move m env).scopes
          .ok ⟨{ move m env with scopes }, some (.leaf .useStatement
            (.synthetic .identifier ((move m env).modules.path id) (move m path)))⟩ :
        Checked Accepted) =
    move m (do
      requireEnd tokens.tail (tokens.getLast?.getD keyword) "module name"
      match env.resolveModule path.lexeme with
      | none => blame (ResolutionFault.moduleNotFound path.lexeme) path
      | some id =>
          let scopes := (env.scopes.addUse? id).getD env.scopes
          .ok ⟨{ env with scopes }, some (.leaf .useStatement
            (.synthetic .identifier (env.modules.path id) path))⟩) := by
  rw [tail_move, getLast?_move, getD_move]
  refine bind_move (requireEnd_move _ _ _) fun _ => ?_
  rw [lexeme_move, resolveModule_move]
  cases env.resolveModule path.lexeme with
  | none => rfl
  | some id =>
      simp only [scopes_move, ScopeStack.addUse?_move, getD_move, modules_move,
        ModuleTree.path_move, synthetic_move, leaf_move]
      rfl

@[simp] theorem useStatement_move (env : Environment) (mods : LeadingModifiers) (keyword : Token)
    (tokens : List Token) :
    (move m env).useStatement (move m mods) (move m keyword) (move m tokens) =
      move m (env.useStatement mods keyword tokens) := by
  refine bind_move (LeadingModifiers.requireNone_move mods) fun _ => ?_
  refine bind_move (requireBlock_move env keyword) fun _ => ?_
  have rest (path : Token) := used_move (m := m) env keyword tokens path
  cases tokens with
  | nil => rfl
  | cons t later =>
      refine (ite_move (c := t.is .identifier = true) (rest t) rfl)

@[simp] theorem endLibrary_move (env : Environment) (mods : LeadingModifiers) (keyword : Token)
    (tokens : List Token) :
    (move m env).endLibrary (move m mods) (move m keyword) (move m tokens) =
      move m (env.endLibrary mods keyword tokens) := by
  refine bind_move (LeadingModifiers.requireNone_move mods) fun _ => ?_
  rw [getLast?_move, getD_move]
  refine bind_move (requireEnd_move _ _ _) fun _ => ?_
  rw [inLibrary_move, scopes_move, ScopeStack.depth_move]
  refine bind_move (require_move _ _ keyword) fun _ => ?_
  rw [leaf_move]
  rfl

@[simp] theorem callStatement_move (env : Environment) (mods : LeadingModifiers) (first : Token)
    (tokens : List Token) :
    (move m env).callStatement (move m mods) (move m first) (move m tokens) =
      move m (env.callStatement mods first tokens) := by
  refine bind_move (LeadingModifiers.requireNone_move mods) fun _ => ?_
  refine bind_move (requireBlock_move env first) fun _ => ?_
  refine bind_move (dropLastOf_move _ first (first :: tokens) _) fun call => ?_
  refine bind_move (expression_move env call first) fun e => ?_
  simp only [typed_node_move, node_kind_move]
  exact bind_move (require_move _ _ first) fun _ => rfl

@[simp] theorem assignment_move (env : Environment) (mods : LeadingModifiers) (target op : Token)
    (tokens : List Token) :
    (move m env).assignment (move m mods) (move m target) (move m op) (move m tokens) =
      move m (env.assignment mods target op tokens) := by
  refine bind_move (LeadingModifiers.requireNone_move mods) fun _ => ?_
  refine bind_move (requireBlock_move env target) fun _ => ?_
  refine bind_move (dropLastOf_move _ _ _ _) fun value => ?_
  refine bind_move (assign_move env false target op value) ?_
  rintro ⟨env, node⟩
  rfl

@[simp] theorem nameStatement_move (env : Environment) (setting : Setting) (mods : LeadingModifiers)
    (first : Token) (tokens : List Token) :
    (move m env).nameStatement setting (move m mods) (move m first) (move m tokens) =
      move m (env.nameStatement setting mods first tokens) := by
  cases tokens with
  | nil => rfl
  | cons second rest =>
      simp only [move_cons, nameStatement, kind_move]
      split
      · exact variableStatement_move env setting mods first (second :: rest)
      · exact callStatement_move env mods first (second :: rest)
      · exact ite_move (assignment_move env mods first second rest) rfl

end Environment

end Loops

end MiLanguage
