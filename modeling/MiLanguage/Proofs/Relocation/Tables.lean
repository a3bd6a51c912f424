import MiLanguage.Proofs.Relocation.Basic

set_option autoImplicit false

namespace MiLanguage

variable {m : Relocation} {α : Type} [Movable α]

namespace SymbolTable

instance : Movable (SymbolTable α) where
  move m t := ⟨t.entries.map fun e => (e.1, move m e.2), by
    rw [List.pairwise_map]
    exact t.sorted⟩

omit [Movable α] in
theorem ext_entries {s t : SymbolTable α} (same : s.entries = t.entries) : s = t := by
  cases s
  cases t
  cases same
  rfl

@[simp] theorem empty_move : move m (empty : SymbolTable α) = empty := rfl

@[simp] theorem find?_move (t : SymbolTable α) (name : String) :
    (move m t).find? name = move m (t.find? name) := by
  show (t.entries.map fun e => (e.1, move m e.2)).lookup name = (t.entries.lookup name).map (move m)
  induction t.entries with
  | nil => rfl
  | cons e entries ih =>
      rw [List.map_cons, lookup_cons, ih, lookup_cons]
      split <;> rfl

@[simp] theorem contains_move (t : SymbolTable α) (name : String) :
    (move m t).contains name = t.contains name := by
  simp only [contains, find?_move, isSome_move]

@[simp] theorem insert_move (t : SymbolTable α) (name : String) (value : α) :
    (move m t).insert name (move m value) = move m (t.insert name value) := by
  refine ext_entries ?_
  show insertEntry name (move m value) (t.entries.map fun e => (e.1, move m e.2)) =
    (insertEntry name value t.entries).map fun e => (e.1, move m e.2)
  induction t.entries with
  | nil => rfl
  | cons e entries ih =>
      simp only [List.map_cons, insertEntry, ih]
      split
      · rfl
      · split <;> rfl

theorem modify_move {f g : α → α} (same : ∀ a, f (move m a) = move m (g a)) (t : SymbolTable α)
    (name : String) : (move m t).modify name f = move m (t.modify name g) := by
  unfold modify
  rw [find?_move]
  cases t.find? name with
  | none => rfl
  | some value => simp only [move_some, same, insert_move]

end SymbolTable

section Declarations

instance : Movable Variable := ⟨fun m v => { v with value := move m v.value }⟩

@[simp] theorem variable_type_move (v : Variable) : (move m v).type = v.type := rfl
@[simp] theorem variable_name_move (v : Variable) : (move m v).name = v.name := rfl
@[simp] theorem variable_modifiers_move (v : Variable) : (move m v).modifiers = v.modifiers := rfl
@[simp] theorem variable_origin_move (v : Variable) : (move m v).origin = v.origin := rfl
@[simp] theorem variable_initialized_move (v : Variable) :
    (move m v).initialized = v.initialized := rfl
@[simp] theorem variable_value_move (v : Variable) : (move m v).value = move m v.value := rfl

instance : Movable FunctionBody where
  move m
    | .pending => .pending
    | .tree node => .tree (move m node)
    | .native binding => .native binding

instance : Movable FunctionDefinition where
  move m f := { f with line := m.streamLine f.line, body := move m f.body }

@[simp] theorem function_name_move (f : FunctionDefinition) : (move m f).name = f.name := rfl
@[simp] theorem function_owner_move (f : FunctionDefinition) : (move m f).owner = f.owner := rfl
@[simp] theorem function_returnType_move (f : FunctionDefinition) :
    (move m f).returnType = f.returnType := rfl
@[simp] theorem function_modifiers_move (f : FunctionDefinition) :
    (move m f).modifiers = f.modifiers := rfl
@[simp] theorem function_paramTypes_move (f : FunctionDefinition) :
    (move m f).paramTypes = f.paramTypes := rfl
@[simp] theorem function_origin_move (f : FunctionDefinition) : (move m f).origin = f.origin := rfl
@[simp] theorem sameSignature_move (f g : FunctionDefinition) :
    (move m f).sameSignature (move m g) = f.sameSignature g := rfl

instance : Movable FunctionTable := ⟨fun m t => ⟨move m t.table⟩⟩

@[simp] theorem overloads_move (t : FunctionTable) (name : String) :
    (move m t).overloads name = move m (t.overloads name) := by
  show ((move m t.table).find? name).getD [] = move m ((t.table.find? name).getD [])
  rw [SymbolTable.find?_move]
  cases t.table.find? name <;> rfl

@[simp] theorem add?_move (t : FunctionTable) (f : FunctionDefinition) :
    (move m t).add? (move m f) = move m (t.add? f) := by
  unfold FunctionTable.add?
  rw [function_name_move, overloads_move]
  have same : (move m (t.overloads f.name)).any (·.sameSignature (move m f)) =
      (t.overloads f.name).any (·.sameSignature f) := any_move (fun g => sameSignature_move g f) _
  by_cases taken : ((t.overloads f.name).any (·.sameSignature f)) = true
  · rw [if_pos taken, if_pos (same.trans taken)]
    rfl
  · rw [if_neg taken, if_neg (same ▸ taken)]
    have whole : move m (t.overloads f.name) ++ [move m f] = move m (t.overloads f.name ++ [f]) := by
      simp
    rw [whole]
    exact congrArg (fun table => some (⟨table⟩ : FunctionTable)) (t.table.insert_move _ _)

theorem modifyFirst_move {p : FunctionDefinition → Bool} {f g : FunctionDefinition → FunctionDefinition}
    (alike : ∀ d, p (move m d) = p d) (same : ∀ d, f (move m d) = move m (g d))
    (ds : List FunctionDefinition) :
    FunctionTable.modifyFirst p f (move m ds) = move m (FunctionTable.modifyFirst p g ds) := by
  induction ds with
  | nil => rfl
  | cons d ds ih =>
      simp only [move_cons, FunctionTable.modifyFirst, alike, same, ih]
      split <;> rfl

theorem functions_modify_move {f g : FunctionDefinition → FunctionDefinition}
    (same : ∀ d, f (move m d) = move m (g d)) (t : FunctionTable) (name : String)
    (types : List Datatype) : (move m t).modify name types f = move m (t.modify name types g) := by
  have first := modifyFirst_move (p := (·.paramTypes = types)) (fun d => rfl) same
  exact congrArg FunctionTable.mk (SymbolTable.modify_move first t.table name)

instance : Movable ClassDeclaration where
  move m c := { c with
    fields := move m c.fields, methods := move m c.methods, constructor := move m c.constructor }

@[simp] theorem class_name_move (c : ClassDeclaration) : (move m c).name = c.name := rfl
@[simp] theorem class_modifiers_move (c : ClassDeclaration) : (move m c).modifiers = c.modifiers := rfl
@[simp] theorem class_origin_move (c : ClassDeclaration) : (move m c).origin = c.origin := rfl
@[simp] theorem class_fields_move (c : ClassDeclaration) : (move m c).fields = move m c.fields := rfl
@[simp] theorem class_methods_move (c : ClassDeclaration) : (move m c).methods = move m c.methods := rfl
@[simp] theorem class_constructor_move (c : ClassDeclaration) :
    (move m c).constructor = move m c.constructor := rfl

instance : Movable Members where
  move m ms := { ms with
    functions := move m ms.functions, globals := move m ms.globals, classes := move m ms.classes }

@[simp] theorem functions_move (ms : Members) : (move m ms).functions = move m ms.functions := rfl
@[simp] theorem globals_move (ms : Members) : (move m ms).globals = move m ms.globals := rfl
@[simp] theorem classes_move (ms : Members) : (move m ms).classes = move m ms.classes := rfl
@[simp] theorem enums_move (ms : Members) : (move m ms).enums = ms.enums := rfl

instance : Movable Module := ⟨fun m module => { module with members := move m module.members }⟩

@[simp] theorem members_move (module : Module) : (move m module).members = move m module.members :=
  rfl

@[simp] theorem nameTaken_move (module : Module) (name : String) :
    (move m module).nameTaken name = module.nameTaken name := by
  simp only [Module.nameTaken, members_move, globals_move, classes_move, enums_move,
    SymbolTable.contains_move]
  rfl

end Declarations

namespace ModuleTree

instance : Movable ModuleTree := ⟨fun m t => ⟨move m t.modules⟩⟩

@[simp] theorem empty_move : move m empty = empty := rfl

@[simp] theorem size_move (t : ModuleTree) : (move m t).size = t.size := length_move t.modules

@[simp] theorem get_move (t : ModuleTree) (id : ModuleId) : (move m t).get id = move m (t.get id) := by
  show ((t.modules.map (move m))[id.index]?).getD default = move m ((t.modules[id.index]?).getD default)
  rw [List.getElem?_map]
  cases t.modules[id.index]? <;> rfl

@[simp] theorem child?_move (t : ModuleTree) (parent : ModuleId) (name : String) :
    (move m t).child? parent name = t.child? parent name := by
  simp only [child?, get_move]
  rfl

theorem modify_move {f g : Module → Module} (same : ∀ a, f (move m a) = move m (g a))
    (t : ModuleTree) (id : ModuleId) : (move m t).modify id f = move m (t.modify id g) := by
  refine congrArg ModuleTree.mk ?_
  show (t.modules.map (move m)).modify id.index f = (t.modules.modify id.index g).map (move m)
  refine List.ext_getElem? fun i => ?_
  simp only [List.getElem?_modify, List.getElem?_map]
  cases t.modules[i]? with
  | none => simp
  | some a => by_cases here : id.index = i <;> simp [here, same]

theorem modifyMembers_move {f g : Members → Members} (same : ∀ a, f (move m a) = move m (g a))
    (t : ModuleTree) (id : ModuleId) :
    (move m t).modifyMembers id f = move m (t.modifyMembers id g) :=
  modify_move (fun a => congrArg (fun members => { a with members }) (same a.members)) t id

@[simp] theorem addChild_move (t : ModuleTree) (parent : ModuleId) (name : String) :
    (move m t).addChild parent name = move m (t.addChild parent name) := by
  unfold addChild
  rw [child?_move, size_move]
  cases t.child? parent name with
  | some id => rfl
  | none =>
      have grown : (⟨(move m t).modules ++ [{ name, parent := some parent }]⟩ : ModuleTree) =
          move m ⟨t.modules ++ [{ name, parent := some parent }]⟩ := by
        show (⟨move m t.modules ++ _⟩ : ModuleTree) = ⟨move m (t.modules ++ _)⟩
        rw [move_append]
        rfl
      simp only [grown]
      refine congrArg (Prod.mk _) (modify_move ?_ _ parent)
      exact fun _ => rfl

@[simp] theorem ancestors_move (t : ModuleTree) (id : ModuleId) :
    (move m t).ancestors id = t.ancestors id := by
  have chains (bound : Nat) (id : ModuleId) : (move m t).chain bound id = t.chain bound id := by
    induction bound generalizing id with
    | zero => rfl
    | succ bound ih =>
        simp only [chain, get_move, ih]
        rfl
  exact chains id.index id

@[simp] theorem path_move (t : ModuleTree) (id : ModuleId) : (move m t).path id = t.path id := by
  simp only [path, pathSegments, ancestors_move, get_move]
  rfl

@[simp] theorem isWithin_move (t : ModuleTree) (id ancestor : ModuleId) :
    (move m t).isWithin id ancestor = t.isWithin id ancestor := by
  simp only [isWithin, ancestors_move]

@[simp] theorem qualify_move (t : ModuleTree) (id : ModuleId) (name : String) :
    (move m t).qualify id name = t.qualify id name := by
  simp only [qualify, path_move]

@[simp] theorem describe_move (t : ModuleTree) (id : ModuleId) :
    (move m t).describe id = t.describe id := by
  simp only [describe, path_move]

@[simp] theorem resolvePath_move (t : ModuleTree) (start : ModuleId) (path : String) :
    (move m t).resolvePath start path = t.resolvePath start path := by
  have children : (move m t).child? = t.child? := funext fun id => funext fun name => by simp
  simp only [resolvePath, descend, ancestors_move, children]

@[simp] theorem module_overloads_move (t : ModuleTree) (id : ModuleId) (name : String) :
    (move m t).overloads id name = move m (t.overloads id name) := by
  simp only [overloads, get_move, members_move, functions_move, overloads_move]

@[simp] theorem qualifyFunction_move (t : ModuleTree) (f : FunctionDefinition) :
    (move m t).qualifyFunction (move m f) = t.qualifyFunction f := by
  simp only [qualifyFunction, function_owner_move, qualify_move, function_name_move]

@[simp] theorem addFunction?_move (t : ModuleTree) (id : ModuleId) (f : FunctionDefinition) :
    (move m t).addFunction? id (move m f) = move m (t.addFunction? id f) := by
  simp only [addFunction?, get_move, members_move, functions_move, add?_move]
  refine option_map_move (fun functions => ?_) _
  refine modifyMembers_move ?_ t id
  exact fun _ => rfl

@[simp] theorem insertVariable_move (t : ModuleTree) (id : ModuleId) (v : Variable) :
    (move m t).insertVariable id (move m v) = move m (t.insertVariable id v) :=
  modifyMembers_move
    (fun a => congrArg (fun globals => { move m a with globals }) (a.globals.insert_move _ _)) t id

@[simp] theorem insertClass_move (t : ModuleTree) (id : ModuleId) (c : ClassDeclaration) :
    (move m t).insertClass id (move m c) = move m (t.insertClass id c) :=
  modifyMembers_move
    (fun a => congrArg (fun classes => { move m a with classes }) (a.classes.insert_move _ _)) t id

@[simp] theorem insertEnum_move (t : ModuleTree) (id : ModuleId) (e : EnumDeclaration) :
    (move m t).insertEnum id e = move m (t.insertEnum id e) := by
  refine modifyMembers_move ?_ t id
  exact fun _ => rfl

theorem modifyVariable_move {f g : Variable → Variable} (same : ∀ a, f (move m a) = move m (g a))
    (t : ModuleTree) (id : ModuleId) (name : String) :
    (move m t).modifyVariable id name f = move m (t.modifyVariable id name g) :=
  modifyMembers_move (fun a => congrArg (fun globals => { move m a with globals })
    (SymbolTable.modify_move same a.globals name)) t id

theorem modifyClass_move {f g : ClassDeclaration → ClassDeclaration}
    (same : ∀ a, f (move m a) = move m (g a)) (t : ModuleTree) (id : ModuleId) (name : String) :
    (move m t).modifyClass id name f = move m (t.modifyClass id name g) :=
  modifyMembers_move (fun a => congrArg (fun classes => { move m a with classes })
    (SymbolTable.modify_move same a.classes name)) t id

theorem modifyFunction_move {f g : FunctionDefinition → FunctionDefinition}
    (same : ∀ a, f (move m a) = move m (g a)) (t : ModuleTree) (id : ModuleId) (name : String)
    (types : List Datatype) :
    (move m t).modifyFunction id name types f = move m (t.modifyFunction id name types g) :=
  modifyMembers_move (fun a => congrArg (fun functions => { move m a with functions })
    (functions_modify_move same a.functions name types)) t id

end ModuleTree

end MiLanguage
