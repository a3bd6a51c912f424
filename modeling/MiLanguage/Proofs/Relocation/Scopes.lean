import MiLanguage.Proofs.Relocation.Tables

set_option autoImplicit false

namespace MiLanguage

variable {m : Relocation}

section Frames

instance : Movable LocalVariable := ⟨fun m v => { v with declaration := move m v.declaration }⟩

@[simp] theorem declaration_move (v : LocalVariable) :
    (move m v).declaration = move m v.declaration := rfl

instance : Movable Block := ⟨fun m b => { b with locals := move m b.locals }⟩

@[simp] theorem locals_move (b : Block) : (move m b).locals = move m b.locals := rfl
@[simp] theorem uses_move (b : Block) : (move m b).uses = b.uses := rfl
@[simp] theorem returnType_move (b : Block) : (move m b).returnType = b.returnType := rfl
@[simp] theorem bodyOf_move (b : Block) : (move m b).bodyOf = b.bodyOf := rfl
@[simp] theorem returned_move (b : Block) : (move m b).returned = b.returned := rfl
@[simp] theorem terminated_move (b : Block) : (move m b).terminated = b.terminated := rfl
@[simp] theorem warned_move (b : Block) : (move m b).warned = b.warned := rfl

instance : Movable Frame where
  move m
    | .parent id => .parent id
    | .module id => .module id
    | .class id c => .class id (move m c)
    | .enum id e => .enum id e
    | .block kind b => .block kind (move m b)

@[simp] theorem move_parent (id : ModuleId) : move m (Frame.parent id) = .parent id := rfl
@[simp] theorem move_module (id : ModuleId) : move m (Frame.module id) = .module id := rfl
@[simp] theorem move_class (id : ModuleId) (c : ClassDeclaration) :
    move m (Frame.class id c) = .class id (move m c) := rfl
@[simp] theorem move_enumFrame (id : ModuleId) (e : EnumDeclaration) :
    move m (Frame.enum id e) = .enum id e := rfl
@[simp] theorem move_block (kind : BlockKind) (b : Block) :
    move m (Frame.block kind b) = .block kind (move m b) := rfl

namespace Frame

@[simp] theorem block?_move (f : Frame) : (move m f).block? = move m f.block? := by cases f <;> rfl
@[simp] theorem blockKind?_move (f : Frame) : (move m f).blockKind? = f.blockKind? := by
  cases f <;> rfl
@[simp] theorem isBlock_move (f : Frame) : (move m f).isBlock = f.isBlock := by cases f <;> rfl
@[simp] theorem isFunction_move (f : Frame) : (move m f).isFunction = f.isFunction := by
  cases f <;> rfl
@[simp] theorem isLoop_move (f : Frame) : (move m f).isLoop = f.isLoop := by cases f <;> rfl
@[simp] theorem moduleId?_move (f : Frame) : (move m f).moduleId? = f.moduleId? := by
  cases f <;> rfl
@[simp] theorem class?_move (f : Frame) : (move m f).class? = move m f.class? := by cases f <;> rfl

theorem modifyBlock_move {g h : Block → Block} (same : ∀ b, g (move m b) = move m (h b)) (f : Frame) :
    (move m f).modifyBlock g = move m (f.modifyBlock h) := by
  cases f with
  | block kind b => exact congrArg (Frame.block kind) (same b)
  | _ => rfl

end Frame

instance : Movable Scope := ⟨fun m s => { s with frame := move m s.frame, node := move m s.node }⟩

@[simp] theorem frame_move (s : Scope) : (move m s).frame = move m s.frame := rfl
@[simp] theorem scope_node_move (s : Scope) : (move m s).node = move m s.node := rfl
@[simp] theorem discard_move (s : Scope) : (move m s).discard = s.discard := rfl

end Frames

namespace ScopeStack

instance : Movable ScopeStack := ⟨fun m s => ⟨move m s.opened, move m s.base⟩⟩

@[simp] theorem opened_move (s : ScopeStack) : (move m s).opened = move m s.opened := rfl
@[simp] theorem base_move (s : ScopeStack) : (move m s).base = move m s.base := rfl

@[simp] theorem all_move (s : ScopeStack) : (move m s).all = move m s.all := by
  simp only [all, opened_move, base_move, move_append, move_cons, move_nil]

@[simp] theorem depth_move (s : ScopeStack) : (move m s).depth = s.depth := by
  simp only [depth, opened_move, length_move]

@[simp] theorem push_move (s : ScopeStack) (scope : Scope) :
    (move m s).push (move m scope) = move m (s.push scope) := rfl

@[simp] theorem pop?_move (s : ScopeStack) : (move m s).pop? = move m s.pop? := by
  unfold pop?
  rw [opened_move]
  cases s.opened <;> rfl

@[simp] theorem current_move (s : ScopeStack) : (move m s).current = move m s.current := by
  simp only [current, opened_move, base_move, headD_move]

theorem modifyCurrent_move {f g : Scope → Scope} (same : ∀ a, f (move m a) = move m (g a))
    (s : ScopeStack) : (move m s).modifyCurrent f = move m (s.modifyCurrent g) := by
  unfold modifyCurrent
  rw [opened_move]
  cases s.opened with
  | nil => exact congrArg (ScopeStack.mk []) (same s.base)
  | cons scope rest =>
      exact congrArg (fun scope => (⟨scope :: move m rest, move m s.base⟩ : ScopeStack)) (same scope)

theorem modifyCurrentBlock_move {f g : Block → Block} (same : ∀ b, f (move m b) = move m (g b))
    (s : ScopeStack) : (move m s).modifyCurrentBlock f = move m (s.modifyCurrentBlock g) :=
  modifyCurrent_move (fun a => congrArg (fun frame => (⟨frame, move m a.node, a.discard⟩ : Scope))
    (Frame.modifyBlock_move same a.frame)) s

@[simp] theorem append_move (s : ScopeStack) (node : Node) :
    (move m s).append (move m node) = move m (s.append node) :=
  modifyCurrent_move (fun a => congrArg (fun node => (⟨move m a.frame, node, a.discard⟩ : Scope))
    (MiLanguage.push_move a.node node)) s

@[simp] theorem functionScopes_move (s : ScopeStack) :
    (move m s).functionScopes = move m s.functionScopes := by
  unfold functionScopes
  rw [all_move]
  induction s.all with
  | nil => rfl
  | cons scope rest ih =>
      simp only [move_cons, upTo, frame_move, Frame.isFunction_move, ih]
      split
      · rfl
      · cases upTo (·.frame.isFunction) rest <;> rfl

@[simp] theorem functionScope?_move (s : ScopeStack) :
    (move m s).functionScope? = move m s.functionScope? := by
  rw [functionScope?, all_move]
  exact find?_move (fun a => Frame.isFunction_move a.frame) s.all

@[simp] theorem functionHeight_move (s : ScopeStack) :
    (move m s).functionHeight = s.functionHeight := by
  simp only [functionHeight, depth_move, functionScopes_move, length_move]

@[simp] theorem inLoop_move (s : ScopeStack) : (move m s).inLoop = s.inLoop := by
  rw [inLoop, functionScopes_move]
  exact any_move (fun a => Frame.isLoop_move a.frame) _

@[simp] theorem returnType?_move (s : ScopeStack) : (move m s).returnType? = s.returnType? := by
  unfold returnType?
  rw [functionScope?_move]
  cases s.functionScope? with
  | none => rfl
  | some scope =>
      simp only [move_some, Option.bind_some, frame_move, Frame.block?_move]
      cases scope.frame.block? <;> rfl

@[simp] theorem currentModule_move (s : ScopeStack) :
    (move m s).currentModule = s.currentModule := by
  simp only [currentModule, all_move, move_list, List.findSome?_map, Function.comp_def, frame_move,
    Frame.moduleId?_move]

@[simp] theorem class?_move (s : ScopeStack) : (move m s).class? = move m s.class? := by
  rw [class?, all_move]
  exact findSome?_move (fun a => Frame.class?_move a.frame) s.all

theorem modifyInnermost_move {f g : Scope → Option Scope}
    (same : ∀ a, f (move m a) = move m (g a)) (s : ScopeStack) :
    (move m s).modifyInnermost f = move m (s.modifyInnermost g) := by
  have first (scopes : List Scope) :
      modifyFirst f (move m scopes) = move m (modifyFirst g scopes) := by
    induction scopes with
    | nil => rfl
    | cons scope rest ih =>
        simp only [move_cons, modifyFirst, same, ih]
        cases g scope with
        | some scope => rfl
        | none => cases modifyFirst g rest <;> rfl
  simp only [modifyInnermost, opened_move, first]
  cases modifyFirst g s.opened <;> rfl

theorem modifyClass?_move {f g : ClassDeclaration → ClassDeclaration}
    (same : ∀ c, f (move m c) = move m (g c)) (s : ScopeStack) :
    (move m s).modifyClass? f = move m (s.modifyClass? g) := by
  refine modifyInnermost_move (fun a => ?_) s
  obtain ⟨frame, node, discard⟩ := a
  cases frame with
  | «class» id c =>
      exact congrArg (fun c => some (⟨.class id c, move m node, discard⟩ : Scope)) (same c)
  | _ => rfl

@[simp] theorem lookupLocal?_move (s : ScopeStack) (name : String) :
    (move m s).lookupLocal? name = move m (s.lookupLocal? name) := by
  rw [lookupLocal?, functionScopes_move]
  refine findSome?_move (β := LocalVariable) (fun a => ?_) _
  rw [frame_move, Frame.block?_move]
  exact option_bind_move (fun b => SymbolTable.find?_move b.locals name) _

theorem modifyLocal_move {f g : LocalVariable → LocalVariable}
    (same : ∀ v, f (move m v) = move m (g v)) (s : ScopeStack) (name : String) :
    (move m s).modifyLocal name f = move m (s.modifyLocal name g) := by
  unfold modifyLocal
  rw [lookupLocal?_move]
  cases s.lookupLocal? name with
  | none => rfl
  | some v =>
      refine (congrArg (·.getD (move m s)) (modifyInnermost_move (fun a => ?_) s)).trans
        (getD_move _ s)
      obtain ⟨frame, node, discard⟩ := a
      cases frame with
      | block kind b =>
          simp only [frame_move, move_block, locals_move, SymbolTable.contains_move,
            SymbolTable.modify_move same]
          split <;> rfl
      | _ => rfl

@[simp] theorem declareLocal?_move (s : ScopeStack) (v : Variable) :
    (move m s).declareLocal? (move m v) = move m (s.declareLocal? v) := by
  unfold declareLocal?
  simp only [lookupLocal?_move, isSome_move, functionScope?_move, isNone_move, current_move,
    frame_move, Frame.isBlock_move, variable_name_move, functionHeight_move]
  split
  · rfl
  · rw [modifyCurrentBlock_move (g := fun b =>
      { b with locals := b.locals.insert v.name ⟨v, s.functionHeight⟩ })]
    · rfl
    · exact fun b => congrArg (fun locals => { move m b with locals })
        (SymbolTable.insert_move b.locals v.name ⟨v, s.functionHeight⟩)

@[simp] theorem stack_uses_move (s : ScopeStack) : (move m s).uses = s.uses := by
  unfold uses
  rw [functionScopes_move, move_list, List.flatMap_map]
  have same (scope : Scope) : ((move m scope).frame.block?.map Block.uses).getD [] =
      (scope.frame.block?.map Block.uses).getD [] := by
    rw [frame_move, Frame.block?_move]
    cases scope.frame.block? <;> rfl
  simp only [same]

@[simp] theorem addUse?_move (s : ScopeStack) (id : ModuleId) :
    (move m s).addUse? id = move m (s.addUse? id) := by
  refine modifyInnermost_move (fun a => ?_) s
  obtain ⟨frame, node, discard⟩ := a
  cases frame with
  | block kind b => cases kind <;> rfl
  | _ => rfl

end ScopeStack

namespace Environment

instance : Movable Environment :=
  ⟨fun m env => { env with modules := move m env.modules, scopes := move m env.scopes }⟩

@[simp] theorem modules_move (env : Environment) : (move m env).modules = move m env.modules := rfl
@[simp] theorem scopes_move (env : Environment) : (move m env).scopes = move m env.scopes := rfl
@[simp] theorem inLibrary_move (env : Environment) : (move m env).inLibrary = env.inLibrary := rfl

@[simp] theorem currentModule_move (env : Environment) :
    (move m env).currentModule = env.currentModule := ScopeStack.currentModule_move env.scopes

@[simp] theorem frame_move (env : Environment) : (move m env).frame = move m env.frame := by
  simp only [frame, scopes_move, ScopeStack.current_move, MiLanguage.frame_move]

@[simp] theorem push_move (env : Environment) (frame : Frame) (node : Node) :
    (move m env).push (move m frame) (move m node) = move m (env.push frame node) := rfl

@[simp] theorem append_move (env : Environment) (setting : Setting) (node : Node) :
    (move m env).append setting (move m node) = move m (env.append setting node) := by
  unfold append
  split
  · rfl
  · exact congrArg (fun scopes => { move m env with scopes }) (ScopeStack.append_move env.scopes node)

theorem modifyBlock_move {f g : Block → Block} (same : ∀ b, f (move m b) = move m (g b))
    (env : Environment) : (move m env).modifyBlock f = move m (env.modifyBlock g) :=
  congrArg (fun scopes => { move m env with scopes })
    (ScopeStack.modifyCurrentBlock_move same env.scopes)

@[simp] theorem originOf_move (env : Environment) (place : Token) :
    (move m env).originOf (move m place) = env.originOf place := by
  simp only [originOf, currentModule_move, fileId_move]

@[simp] theorem requireBlock_move (env : Environment) (place : Token) :
    (move m env).requireBlock (move m place) = move m (env.requireBlock place) := by
  simp only [requireBlock, frame_move, Frame.isBlock_move, require_move]

end Environment

end MiLanguage
