import MiLanguage.Proofs.Relocation.Variable

set_option autoImplicit false

namespace MiLanguage

variable {m : Relocation}

section Headers

instance : Movable ReadParameter := ⟨fun m p => { p with node := move m p.node }⟩

instance : Movable Header where
  move m h :=
    { h with
      name := move m h.name
      returnToken := move m h.returnToken
      parameters := move m h.parameters
      hostClass := move m h.hostClass }

@[simp] theorem header_name_move (h : Header) : (move m h).name = move m h.name := rfl
@[simp] theorem header_returnType_move (h : Header) : (move m h).returnType = h.returnType := rfl
@[simp] theorem header_hostClass_move (h : Header) : (move m h).hostClass = move m h.hostClass := rfl

@[simp] theorem params_move (h : Header) : (move m h).params = h.params := by
  show (h.parameters.map (move m)).map ReadParameter.parameter = h.parameters.map ReadParameter.parameter
  rw [List.map_map]
  rfl

@[simp] theorem paramTypes_move (h : Header) : (move m h).paramTypes = h.paramTypes := by
  simp only [Header.paramTypes, params_move]

@[simp] theorem parametersNode_move (h : Header) (line : Nat) :
    (move m h).parametersNode (m.streamLine line) = move m (h.parametersNode line) := by
  have nodes : (move m h.parameters).map ReadParameter.node =
      move m (h.parameters.map ReadParameter.node) := by
    rw [move_list, move_list, List.map_map, List.map_map]
    rfl
  rw [Header.parametersNode, Header.parametersNode, ← node_new_move, ← nodes]
  rfl

@[simp] theorem returnNode_move (h : Header) (line : Nat) :
    (move m h).returnNode (m.streamLine line) = move m (h.returnNode line) :=
  typeNode_move h.returnToken h.returnType line

namespace Parameter

theorem readModifiers_move (mods : LeadingModifiers) (tokens : List Token) :
    readModifiers (move m mods) (move m tokens) = move m (readModifiers mods tokens) := by
  induction tokens generalizing mods with
  | nil => rfl
  | cons t rest ih =>
      simp only [move_cons, readModifiers, kind_move, LeadingModifiers.set_move,
        LeadingModifiers.tokens_move]
      split
      · refine ite_move rfl ?_
        split
        next set _ =>
          rw [← ih ⟨set, mods.tokens ++ [t]⟩]
          exact congrArg (fun tokens => readModifiers ⟨set, tokens⟩ (move m rest))
            (move_append mods.tokens [t]).symm
        next => rfl
      · rfl

@[simp] theorem requireType_move (t : Token) : requireType (move m t) = move m (requireType t) := by
  unfold requireType
  rw [kind_move, lexeme_move]
  split
  · rfl
  · rfl
  · exact require_move _ _ t

@[simp] theorem read_move (env : Environment) (others : List ReadParameter) (place : Token)
    (part : List Token) :
    read (move m env) (move m others) (move m place) (move m part) =
      move m (read env others place part) := by
  cases part with
  | nil => rfl
  | cons first tail =>
      simp only [move_cons, read, Checked.ok_bind]
      refine bind_move (readModifiers_move {} (first :: tail)) ?_
      rintro ⟨mods, rest⟩
      cases rest with
      | nil => rfl
      | cons typeToken rest =>
          simp only [move_pair, move_cons]
          refine bind_move (requireType_move typeToken) fun _ => ?_
          refine bind_move (Environment.resolveDatatype_move env typeToken _) fun type => ?_
          rw [head?_move, tail_move, head?_move]
          refine bind_move (declaredName_move _ _ _) fun name => ?_
          cases rest.tail.head? with
          | some extra => rfl
          | none =>
              simp only [move_none, lexeme_move, LeadingModifiers.set_move, streamLine_move]
              rw [any_move fun p => rfl]
              refine bind_move (require_move _ _ name) fun _ => ?_
              have node : Node.new .parameter (m.streamLine name.streamLine)
                  [(move m mods).node (m.streamLine name.streamLine), .leaf .identifier (move m name),
                    typeNode (some (move m typeToken)) type (m.streamLine name.streamLine)] =
                  move m (.new .parameter name.streamLine
                    [mods.node name.streamLine, .leaf .identifier name,
                      typeNode (some typeToken) type name.streamLine]) := by
                rw [move_new, move_cons, move_cons, move_cons, LeadingModifiers.node_move,
                  leaf_move, ← move_some, typeNode_move]
                rfl
              exact congrArg (fun node => Except.ok (⟨⟨type, name.lexeme, mods.set⟩, node⟩ : ReadParameter)) node

theorem readAll_move (env : Environment) (place : Token) (before : List ReadParameter)
    (parts : List (List Token)) :
    readAll (move m env) (move m place) (move m before) (move m parts) =
      move m (readAll env place before parts) := by
  induction parts generalizing before with
  | nil => rfl
  | cons part parts ih =>
      refine bind_move (read_move env before place part) fun p => ?_
      have longer : move m before ++ [move m p] = move m (before ++ [p]) :=
        (move_append before [p]).symm
      rw [longer]
      exact ih _

@[simp] theorem readList_move (env : Environment) (tokens : List Token) :
    readList (move m env) (move m tokens) = move m (readList env tokens) := by
  cases tokens with
  | nil => rfl
  | cons opening rest =>
      simp only [move_cons, readList, is_move, splitClosing_move]
      refine ite_move ?_ rfl
      rcases splitClosing 0 rest with _ | ⟨inner, after⟩
      · rfl
      · cases inner with
        | nil => rfl
        | cons t inner =>
            simp only [move_some, move_pair, move_cons]
            rw [← move_cons, splitCommas_move]
            exact bind_move (readAll_move env opening [] _) fun _ => rfl

end Parameter

namespace Header

@[simp] theorem readTail_move (tokens : List Token) (last : Token) :
    readTail (move m tokens) (move m last) = move m (readTail tokens last) := by
  cases tokens with
  | nil => rfl
  | cons t rest =>
      simp only [move_cons, readTail, kind_move]
      cases kind : t.kind with
      | punctuation p =>
          cases p with
          | leftBrace => cases rest <;> rfl
          | arrow =>
              cases rest with
              | nil => rfl
              | cons name rest =>
                  refine bind_move (require_move _ _ t) fun _ => ?_
                  rw [List.length_map]
                  exact bind_move (require_move _ _ name) fun _ => rfl
          | _ => rfl
      | _ => rfl

@[simp] theorem readReturn_move (env : Environment) (mods : LeadingModifiers) (tokens : List Token)
    (last : Token) :
    readReturn (move m env) (move m mods) (move m tokens) (move m last) =
      move m (readReturn env mods tokens last) := by
  cases tokens with
  | nil => rfl
  | cons t rest =>
      simp only [move_cons, readReturn, kind_move]
      split
      · rfl
      · cases rest with
        | nil => rfl
        | cons name rest =>
            simp only [move_cons, is_move, LeadingModifiers.set_move, Checked.ok_bind]
            refine ite_move rfl ?_
            exact bind_move (Environment.resolveDatatype_move env name _) fun _ => rfl
      · rfl
      · rfl
      · rfl
      · rfl

@[simp] theorem read_move (env : Environment) (mods : LeadingModifiers) (keyword : Token)
    (tokens : List Token) :
    Header.read (move m env) (move m mods) (move m keyword) (move m tokens) =
      move m (Header.read env mods keyword tokens) := by
  unfold Header.read
  rw [getLast?_move, getD_move, head?_move, tail_move]
  refine bind_move (declaredName_move _ _ _) fun name => ?_
  refine bind_move (readReturn_move env mods _ _) ?_
  rintro ⟨returnType, returnToken, rest⟩
  refine bind_move (Parameter.readList_move env rest) ?_
  rintro ⟨parameters, rest⟩
  refine bind_move (readTail_move rest _) fun hostClass => ?_
  rw [isNone_move]
  refine bind_move (require_move _ _ name) fun _ => ?_
  exact bind_move (require_move _ _ name) fun _ => rfl

end Header

end Headers

section Declarations

namespace Environment

@[simp] theorem openModule_move (env : Environment) (setting : Setting) (mods : LeadingModifiers)
    (keyword : Token) (tokens : List Token) :
    (move m env).openModule setting (move m mods) (move m keyword) (move m tokens) =
      move m (env.openModule setting mods keyword tokens) := by
  refine bind_move (LeadingModifiers.requireNone_move mods) fun _ => ?_
  rw [frame_move]
  cases env.frame with
  | «class» | enum | block => rfl
  | parent | module =>
      simp only [move_parent, move_module, head?_move, tail_move]
      refine bind_move (declaredName_move _ _ _) fun name => ?_
      refine bind_move (requireBrace_move name _ _) fun _ => ?_
      have node : Node.new .createModule (m.streamLine keyword.streamLine)
          [.leaf .identifier (move m name)] =
          move m (.new .createModule keyword.streamLine [.leaf .identifier name]) := by
        rw [move_new, move_cons, leaf_move]
        rfl
      simp only [streamLine_move, node, currentModule_move, lexeme_move, modules_move,
        ModuleTree.addChild_move, ModuleTree.child?_move]
      refine ite_move rfl ?_
      cases env.modules.child? env.currentModule name.lexeme <;> rfl

@[simp] theorem requireTypePlace_move (env : Environment) (keyword : Token)
    (plural title : String) :
    (move m env).requireTypePlace (move m keyword) plural title =
      move m (env.requireTypePlace keyword plural title) := by
  unfold requireTypePlace
  rw [frame_move, inLibrary_move]
  cases env.frame with
  | parent id => exact require_move _ _ keyword
  | _ => rfl

@[simp] theorem requireFreeName_move (env : Environment) (name : Token) :
    (move m env).requireFreeName (move m name) = move m (env.requireFreeName name) := by
  simp only [requireFreeName, modules_move, currentModule_move, ModuleTree.get_move, nameTaken_move,
    lexeme_move, require_move]

@[simp] theorem openClass_move (env : Environment) (setting : Setting) (mods : LeadingModifiers)
    (keyword : Token) (tokens : List Token) :
    (move m env).openClass setting (move m mods) (move m keyword) (move m tokens) =
      move m (env.openClass setting mods keyword tokens) := by
  refine bind_move (LeadingModifiers.requireVisibilityOnly_move mods _) fun _ => ?_
  refine bind_move (requireTypePlace_move env keyword _ _) fun _ => ?_
  rw [head?_move, tail_move]
  refine bind_move (declaredName_move _ _ _) fun name => ?_
  refine bind_move (requireBrace_move name _ _) fun _ => ?_
  have node : Node.new .createClass (m.streamLine keyword.streamLine)
      [.leaf .identifier (move m name), (move m mods).node (m.streamLine keyword.streamLine)] =
      move m (.new .createClass keyword.streamLine
        [.leaf .identifier name, mods.node keyword.streamLine]) := by
    rw [move_new, move_cons, move_cons, LeadingModifiers.node_move, leaf_move]
    rfl
  simp only [streamLine_move, node, currentModule_move]
  refine ite_move ?_ ?_
  · refine bind_move (requireFreeName_move env name) fun _ => ?_
    rw [originOf_move]
    have declared := ModuleTree.insertClass_move (m := m) env.modules env.currentModule
      { name := name.lexeme, modifiers := mods.set, origin := env.originOf name }
    exact congrArg (fun modules => Except.ok (⟨({ move m env with modules } : Environment).push
      (.class env.currentModule
        { name := name.lexeme, modifiers := mods.set, origin := env.originOf name }) _, none⟩ :
      Accepted)) declared
  · rw [modules_move, ModuleTree.get_move, members_move, classes_move, SymbolTable.find?_move,
      lexeme_move]
    cases (env.modules.get env.currentModule).members.classes.find? name.lexeme <;> rfl

@[simp] theorem openEnum_move (env : Environment) (setting : Setting) (mods : LeadingModifiers)
    (keyword : Token) (tokens : List Token) :
    (move m env).openEnum setting (move m mods) (move m keyword) (move m tokens) =
      move m (env.openEnum setting mods keyword tokens) := by
  refine bind_move (LeadingModifiers.requireVisibilityOnly_move mods _) fun _ => ?_
  refine bind_move (requireTypePlace_move env keyword _ _) fun _ => ?_
  rw [head?_move, tail_move]
  refine bind_move (declaredName_move _ _ _) fun name => ?_
  refine bind_move (requireBrace_move name _ _) fun _ => ?_
  have node : Node.new .createEnum (m.streamLine keyword.streamLine)
      [.leaf .identifier (move m name), (move m mods).node (m.streamLine keyword.streamLine)] =
      move m (.new .createEnum keyword.streamLine
        [.leaf .identifier name, mods.node keyword.streamLine]) := by
    rw [move_new, move_cons, move_cons, LeadingModifiers.node_move, leaf_move]
    rfl
  simp only [streamLine_move, node, currentModule_move]
  refine ite_move ?_ ?_
  · refine bind_move (requireFreeName_move env name) fun _ => ?_
    rw [originOf_move]
    have declared := ModuleTree.insertEnum_move (m := m) env.modules env.currentModule
      { name := name.lexeme, modifiers := mods.set, origin := env.originOf name }
    exact congrArg (fun modules => Except.ok (⟨({ move m env with modules } : Environment).push
      (.enum env.currentModule
        { name := name.lexeme, modifiers := mods.set, origin := env.originOf name }) _, none⟩ :
      Accepted)) declared
  · rw [modules_move, ModuleTree.get_move, members_move, enums_move, lexeme_move]
    cases (env.modules.get env.currentModule).members.enums.find? name.lexeme <;> rfl

theorem memberNames_move (last : Token) (parts : List (List Token)) :
    memberNames (move m last) (move m parts) = move m (memberNames last parts) := by
  induction parts with
  | nil => rfl
  | cons part parts ih =>
      match part with
      | [] => rfl
      | [t] =>
          refine bind_move (declaredName_move (some t) t _) fun name => ?_
          exact bind_move ih fun names => rfl
      | _ :: t :: _ => rfl

theorem addMembers_move (e : EnumDeclaration) (names : List Token) :
    addMembers e (move m names) = move m (addMembers e names) := by
  induction names generalizing e with
  | nil => rfl
  | cons name names ih =>
      simp only [move_cons, addMembers, lexeme_move]
      cases e.addMember? name.lexeme with
      | none => rfl
      | some e => exact ih e

@[simp] theorem readMembers_move (mods : LeadingModifiers) (first : Token) (tokens : List Token) :
    readMembers (move m mods) (move m first) (move m tokens) =
      move m (readMembers mods first tokens) := by
  refine bind_move (LeadingModifiers.requireNone_move mods) fun _ => ?_
  refine bind_move (dropLastOf_move _ first (first :: tokens) _) fun names => ?_
  rw [getLast?_move, getD_move, splitCommas_move]
  exact memberNames_move _ _

theorem declareMembers_move (env : Environment) (setting : Setting) (id : ModuleId)
    (e : EnumDeclaration) (mods : LeadingModifiers) (first : Token) (tokens : List Token) :
    (move m env).declareMembers setting id e (move m mods) (move m first) (move m tokens) =
      move m (env.declareMembers setting id e mods first tokens) := by
  unfold declareMembers
  rw [readMembers_move]
  cases readMembers mods first tokens with
  | error r => rfl
  | ok names =>
      have node : Node.new .enumValues (m.streamLine first.streamLine)
          ((move m names).map (Node.leaf .identifier)) =
          move m (.new .enumValues first.streamLine (names.map (Node.leaf .identifier))) := by
        rw [map_move (g := Node.leaf .identifier) fun t => leaf_move _ t, node_new_move]
      simp only [move_ok, streamLine_move, node, addMembers_move]
      refine ite_move (ite_move ?_ rfl) rfl
      obtain ⟨e, repeated⟩ := addMembers e names
      have framed := ScopeStack.modifyCurrent_move (m := m)
        (f := fun s => { s with frame := .enum id e })
        (g := fun s => { s with frame := .enum id e }) (fun _ => rfl) env.scopes
      simp only [move_pair, move_enum, scopes_move, framed]
      cases repeated <;> rfl


@[simp] theorem requireFunctionPlace_move (env : Environment) (keyword : Token) :
    (move m env).requireFunctionPlace (move m keyword) =
      move m (env.requireFunctionPlace keyword) := by
  unfold requireFunctionPlace
  rw [frame_move, inLibrary_move]
  cases env.frame with
  | parent id => exact require_move _ _ keyword
  | _ => rfl

@[simp] theorem owner_move (env : Environment) : (move m env).owner = env.owner := by
  unfold owner
  rw [frame_move, currentModule_move]
  cases env.frame <;> rfl

@[simp] theorem env_addFunction?_move (env : Environment) (f : FunctionDefinition) :
    (move m env).addFunction? (move m f) = move m (env.addFunction? f) := by
  unfold addFunction?
  rw [function_owner_move, scopes_move, ScopeStack.class?_move]
  cases f.owner with
  | module id =>
      simp only [modules_move, ModuleTree.addFunction?_move]
      cases env.modules.addFunction? id f <;> rfl
  | inClass id name =>
      cases env.scopes.class? with
      | none => rfl
      | some found =>
          obtain ⟨_, c⟩ := found
          simp only [move_some, move_pair, class_methods_move, add?_move]
          refine option_bind_move (fun methods => ?_) _
          have modified := ScopeStack.modifyClass?_move (m := m)
            (f := fun c => { c with methods := move m methods })
            (g := fun c => { c with methods }) (fun _ => rfl) env.scopes
          rw [modified]
          refine option_bind_move (fun scopes => ?_) _
          rfl

@[simp] theorem declareFunction_move (env : Environment) (mods : LeadingModifiers) (h : Header)
    {body moved : FunctionBody} (same : moved = move m body) :
    (move m env).declareFunction (move m mods) (move m h) moved =
      move m (env.declareFunction mods h body) := by
  subst same
  unfold declareFunction
  simp only [header_name_move, lexeme_move, header_returnType_move, params_move,
    LeadingModifiers.set_move, owner_move, fileId_move, streamLine_move]
  have added : (move m env).addFunction?
      { name := h.name.lexeme, returnType := h.returnType, parameters := h.params,
        modifiers := mods.set, owner := env.owner, fileId := h.name.span.fileId,
        line := m.streamLine h.name.streamLine, body := move m body } =
      move m (env.addFunction?
        { name := h.name.lexeme, returnType := h.returnType, parameters := h.params,
          modifiers := mods.set, owner := env.owner, fileId := h.name.span.fileId,
          line := h.name.streamLine, body }) :=
    env_addFunction?_move env ⟨_, _, _, _, _, _, _, _⟩
  rw [added]
  generalize env.addFunction? _ = found
  cases found <;> rfl

@[simp] theorem openBody_move (env : Environment) (returnType : Datatype) (owner : BodyOwner)
    (parameters : List FunctionParameter) (place : Token) (node : Node) :
    (move m env).openBody returnType owner parameters (move m place) (move m node) =
      move m (env.openBody returnType owner parameters place node) := by
  unfold openBody
  have start : (move m env).push (.block .function { Block.function returnType with bodyOf := some owner })
      (move m node) =
      move m (env.push (.block .function { Block.function returnType with bodyOf := some owner }) node) :=
    rfl
  simp only [start]
  generalize env.push _ node = opened
  induction parameters generalizing opened with
  | nil => rfl
  | cons p parameters ih =>
      rw [List.foldl_cons, List.foldl_cons, ← ih, originOf_move, scopes_move]
      let v : Variable :=
        { name := p.name, type := p.type, modifiers := p.modifiers, origin := opened.originOf place
          initialized := true }
      have declared : ((move m opened.scopes).declareLocal? v).getD (move m opened.scopes) =
          move m ((opened.scopes.declareLocal? v).getD opened.scopes) := by
        rw [← getD_move, ← ScopeStack.declareLocal?_move]
        rfl
      exact congrArg (fun scopes => parameters.foldl _ { move m opened with scopes }) declared

@[simp] theorem function_move (env : Environment) (setting : Setting) (mods : LeadingModifiers)
    (keyword : Token) (tokens : List Token) :
    (move m env).function setting (move m mods) (move m keyword) (move m tokens) =
      move m (env.function setting mods keyword tokens) := by
  refine bind_move (LeadingModifiers.requireNoMutability_move mods _) fun _ => ?_
  refine bind_move (requireFunctionPlace_move env keyword) fun _ => ?_
  refine bind_move (Header.read_move env mods keyword tokens) fun h => ?_
  have parts : [.leaf .identifier (move m h.name), (move m h).returnNode (m.streamLine keyword.streamLine),
      (move m mods).node (m.streamLine keyword.streamLine),
      (move m h).parametersNode (m.streamLine keyword.streamLine)] =
      move m [.leaf .identifier h.name, h.returnNode keyword.streamLine,
        mods.node keyword.streamLine, h.parametersNode keyword.streamLine] := by
    rw [leaf_move, returnNode_move, LeadingModifiers.node_move, parametersNode_move]
    rfl
  simp only [header_hostClass_move, header_name_move, streamLine_move, parts, paramTypes_move,
    header_returnType_move, params_move, owner_move, lexeme_move]
  cases h.hostClass with
  | some hostClass =>
      simp only [move_some, lexeme_move]
      refine ite_move ?_ ?_
      · cases NativeBinding.bind setting.host hostClass.lexeme h.name.lexeme h.paramTypes
            h.returnType with
        | ok binding => exact declareFunction_move env mods h rfl
        | error e => rfl
      · rw [leaf_move, ← move_nil, ← move_cons, ← move_append, node_new_move]
        rfl
  | none =>
      simp only [move_none]
      refine ite_move (declareFunction_move env mods h rfl) ?_
      rw [node_new_move, openBody_move]
      rfl

@[simp] theorem constructor_move (env : Environment) (setting : Setting) (mods : LeadingModifiers)
    (keyword : Token) (tokens : List Token) :
    (move m env).constructor setting (move m mods) (move m keyword) (move m tokens) =
      move m (env.constructor setting mods keyword tokens) := by
  unfold constructor
  rw [frame_move]
  cases env.frame with
  | parent | module | enum | block => rfl
  | «class» id c =>
      simp only [move_class, Checked.ok_bind]
      refine bind_move (LeadingModifiers.requireNoMutability_move mods _) fun _ => ?_
      refine bind_move (Parameter.readList_move env tokens) ?_
      rintro ⟨parameters, rest⟩
      rw [getLast?_move, getD_move]
      refine bind_move (requireBrace_move _ rest _) fun _ => ?_
      have header : (⟨move m keyword, .void, none, move m parameters, none⟩ : Header) =
          move m ⟨keyword, .void, none, parameters, none⟩ := rfl
      simp only [fst_move, header, streamLine_move, params_move]
      refine ite_move ?_ ?_
      · refine bind_move ?_ fun _ => ?_
        · rw [class_constructor_move, isNone_move, require_move]
        · rw [scopes_move]
          exact congrArg (fun scopes => Except.ok (⟨{ move m env with scopes }, none⟩ : Accepted))
            (ScopeStack.modifyCurrent_move (by exact fun _ => rfl) env.scopes)
      · rw [LeadingModifiers.node_move, parametersNode_move, ← move_nil, ← move_cons, ← move_cons,
          node_new_move, class_name_move, openBody_move]
        rfl

@[simp] theorem read_move (env : Environment) (setting : Setting) (mods : LeadingModifiers)
    (first : Token) (rest : List Token) :
    (move m env).read setting (move m mods) (move m first) (move m rest) =
      move m (env.read setting mods first rest) := by
  unfold read
  rw [kind_move]
  split
  all_goals simp only [openModule_move, openClass_move, openEnum_move, function_move,
    constructor_move, openConditional_move, openDo_move, openFor_move, returnStatement_move,
    loopExit_move, useStatement_move, endLibrary_move, variableStatement_move, nameStatement_move]
  exact ite_move rfl rfl

instance : Movable Outcome := ⟨fun m o => ⟨move m o.environment, move m o.result⟩⟩

theorem dispatch_move (env : Environment) (setting : Setting) (mods : LeadingModifiers)
    (first : Token) (rest : List Token) :
    (move m env).dispatch setting (move m mods) (move m first) (move m rest) =
      move m (env.dispatch setting mods first rest) := by
  unfold dispatch
  have plain : Outcome.ofChecked (move m env)
      ((move m env).read setting (move m mods) (move m first) (move m rest)) =
      move m (.ofChecked env (env.read setting mods first rest)) := by
    rw [read_move]
    cases env.read setting mods first rest <;> rfl
  rw [kind_move, frame_move]
  cases env.frame with
  | parent | module | «class» | block => cases first.kind <;> exact plain
  | enum id e =>
      cases first.kind with
      | identifier =>
          simp only [move_enumFrame, declareMembers_move]
          rfl
      | _ => exact plain

theorem statement_move (env : Environment) (setting : Setting) (first : Token) (rest : List Token) :
    (move m env).statement setting (move m first) (move m rest) =
      move m (env.statement setting first rest) := by
  unfold statement
  rw [← move_cons, LeadingModifiers.read_move]
  cases LeadingModifiers.read (first :: rest) with
  | error r => rfl
  | ok found =>
      obtain ⟨mods, tokens⟩ := found
      cases tokens with
      | nil => rfl
      | cons head rest => exact dispatch_move env setting mods head rest

end Environment

end Declarations

end MiLanguage
