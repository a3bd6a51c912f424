import MiLanguage.Proofs.Relocation.Scopes

set_option autoImplicit false

namespace MiLanguage

variable {m : Relocation} {α : Type} [Movable α]

theorem matching_move (accepts : Datatype → Datatype → Bool) (candidates : List FunctionDefinition)
    (args : List Datatype) :
    Overload.matching accepts (move m candidates) args =
      move m (Overload.matching accepts candidates args) := by
  simp only [Overload.matching, move_list, List.filter_map]
  rfl

-- Which candidate a call means does not depend on where it was declared.
theorem select_move (candidates : List FunctionDefinition) (args : List Datatype) :
    Overload.select (move m candidates) args = (Overload.select candidates args).map (move m) := by
  have tier : Overload.decidingTier (move m candidates) args =
      move m (Overload.decidingTier candidates args) := by
    simp only [Overload.decidingTier, matching_move]
    cases Overload.matching Datatype.exact candidates args <;> rfl
  have one (fs : List FunctionDefinition) :
      Overload.single (move m fs) = (Overload.single fs).map (move m) := by
    match fs with
    | [] | [_] => rfl
    | f :: g :: fs =>
        show Except.error _ = Except.error _
        exact congrArg (fun n => Except.error (OverloadError.ambiguous n)) (length_move (f :: g :: fs))
  simp only [Overload.select, tier, one]

namespace Environment

@[simp] theorem resolveModule_move (env : Environment) (path : String) :
    (move m env).resolveModule path = env.resolveModule path := by
  simp only [resolveModule, modules_move, currentModule_move, ModuleTree.resolvePath_move]

-- What `table` picks from the members of a module may stand elsewhere, too.
theorem lookup_move (table : Members → SymbolTable α)
    (same : ∀ ms, table (move m ms) = move m (table ms)) (env : Environment) (name : String) :
    (move m env).lookup table name =
      (env.lookup table name).map fun (id, found) => (id, move m found) := by
  have get (id : ModuleId) (name : String) :
      (table (((move m env).modules.get id).members)).find? name =
        move m ((table (env.modules.get id).members).find? name) := by
    simp only [modules_move, ModuleTree.get_move, members_move, same, SymbolTable.find?_move]
  have pairs (ids : List ModuleId) :
      ids.filterMap (fun id => (move m ((table (env.modules.get id).members).find? name)).map
        fun found => (id, found)) =
      (ids.filterMap fun id => ((table (env.modules.get id).members).find? name).map
        fun found => (id, found)).map fun (id, found) => (id, move m found) := by
    rw [List.map_filterMap]
    refine congrArg (ids.filterMap ·) (funext fun id => ?_)
    cases (table (env.modules.get id).members).find? name <;> rfl
  have first (ids : List ModuleId) :
      ids.findSome? (fun id => (move m ((table (env.modules.get id).members).find? name)).map
        fun found => (id, found)) =
      (ids.findSome? fun id => ((table (env.modules.get id).members).find? name).map
        fun found => (id, found)).map fun (id, found) => (id, move m found) := by
    induction ids with
    | nil => rfl
    | cons id ids ih =>
        simp only [List.findSome?_cons, ih]
        cases (table (env.modules.get id).members).find? name <;> rfl
  simp only [lookup, resolveModule_move, get, pairs, first, scopes_move, ScopeStack.stack_uses_move,
    currentModule_move]
  simp only [modules_move, ModuleTree.ancestors_move]
  cases splitQualified name with
  | some parts =>
      simp only
      cases env.resolveModule parts.1 with
      | none => rfl
      | some id => simp only; cases (table (env.modules.get id).members).find? parts.2 <;> rfl
  | none =>
      simp only
      generalize (env.scopes.uses.filterMap fun id =>
        ((table (env.modules.get id).members).find? name).map fun found => (id, found)) = hits
      match hits with
      | [] =>
          simp only [List.map_nil]
          generalize ((env.modules.ancestors env.currentModule).findSome? fun id =>
            ((table (env.modules.get id).members).find? name).map fun found => (id, found)) = found
          cases found <;> rfl
      | [hit] => rfl
      | hit :: other :: hits =>
          simp only [List.map_cons, Except.map, List.map_map]
          rfl

theorem lookupOrBlame_move {table : Members → SymbolTable α}
    (same : ∀ ms, table (move m ms) = move m (table ms)) (env : Environment) (what : String)
    (place : Token) :
    (move m env).lookupOrBlame table what (move m place) =
      move m (env.lookupOrBlame table what place) := by
  have fault (failure : LookupFailure) : (move m env).lookupFault what place.lexeme failure =
      env.lookupFault what place.lexeme failure := by
    have describes : (move m env).modules.describe = env.modules.describe :=
      funext fun id => ModuleTree.describe_move env.modules id
    simp only [lookupFault, describes]
  unfold lookupOrBlame
  rw [lexeme_move, lookup_move table same]
  cases env.lookup table place.lexeme with
  | ok found => rfl
  | error failure =>
      simp only [Except.map, fault]
      rfl

@[simp] theorem checkAccess_move (env : Environment) (what : String) (modifiers : Modifiers)
    (origin : Origin) (place : Token) :
    (move m env).checkAccess what modifiers origin (move m place) =
      move m (env.checkAccess what modifiers origin place) := by
  have accessible : (move m env).accessible modifiers origin (move m place) =
      env.accessible modifiers origin place := by
    simp only [Environment.accessible, modules_move, currentModule_move, ModuleTree.isWithin_move,
      fileId_move]
  simp only [checkAccess, accessible, lexeme_move, modules_move, ModuleTree.describe_move,
    require_move]

@[simp] theorem localVariable?_move (env : Environment) (name : String) :
    (move m env).localVariable? name = env.localVariable? name := by
  simp only [localVariable?, scopes_move, ScopeStack.lookupLocal?_move]
  cases env.scopes.lookupLocal? name <;> rfl

@[simp] theorem fieldVariable?_move (env : Environment) (name : String) :
    (move m env).fieldVariable? name = env.fieldVariable? name := by
  unfold fieldVariable?
  rw [scopes_move, ScopeStack.class?_move]
  cases env.scopes.class? with
  | none => rfl
  | some found =>
      obtain ⟨id, c⟩ := found
      show ((move m c.fields).find? name).bind _ = (c.fields.find? name).bind _
      rw [SymbolTable.find?_move]
      cases c.fields.find? name with
      | none => rfl
      | some field =>
          simp only [modules_move, ModuleTree.qualify_move, class_name_move, move_moduleId]
          rfl

@[simp] theorem resolveVariable_move (env : Environment) (place : Token) :
    (move m env).resolveVariable (move m place) = move m (env.resolveVariable place) := by
  unfold resolveVariable
  simp only [lexeme_move, localVariable?_move, fieldVariable?_move]
  split
  · rfl
  · refine bind_move (lookupOrBlame_move (fun _ => rfl) env _ place) ?_
    rintro ⟨id, v⟩
    refine bind_move (checkAccess_move env _ _ _ place) fun _ => ?_
    simp only [modules_move, ModuleTree.qualify_move]
    rfl

theorem callCandidates_move (env : Environment) (name : String) :
    (move m env).callCandidates name = (env.callCandidates name).map (move m) := by
  have overloads (id : ModuleId) (name : String) :
      (move m env).modules.overloads id name = move m (env.modules.overloads id name) := by
    simp
  unfold callCandidates
  simp only [resolveModule_move, overloads, scopes_move, ScopeStack.class?_move,
    ScopeStack.stack_uses_move, currentModule_move]
  simp only [modules_move, ModuleTree.ancestors_move, ModuleTree.describe_move]
  cases splitQualified name with
  | some parts =>
      simp only
      cases env.resolveModule parts.1 with
      | none => rfl
      | some id => simp only; cases env.modules.overloads id parts.2 <;> rfl
  | none =>
      have methods : ((move m env.scopes.class?).map fun (x : ModuleId × ClassDeclaration) =>
          x.2.methods.overloads name).getD [] =
          move m ((env.scopes.class?.map fun (x : ModuleId × ClassDeclaration) =>
            x.2.methods.overloads name).getD []) := by
        cases env.scopes.class? with
        | none => rfl
        | some found =>
            show (move m found.2).methods.overloads name = _
            rw [class_methods_move, overloads_move]
            rfl
      have used : (env.scopes.uses.flatMap fun id => move m (env.modules.overloads id name)) =
          move m (env.scopes.uses.flatMap (env.modules.overloads · name)) := by
        simp only [move_list, List.map_flatMap]
      have around : ((env.modules.ancestors env.currentModule).map
          fun id => move m (env.modules.overloads id name)) =
          move m ((env.modules.ancestors env.currentModule).map
            (env.modules.overloads · name)) := by
        simp only [move_list, List.map_map]
        rfl
      simp only [methods, used, around, ← move_cons]
      rw [find?_move fun fs => by rw [isEmpty_move]]
      generalize List.find? _ _ = found
      cases found <;> rfl

@[simp] theorem resolveCall_move (env : Environment) (place : Token) (args : List Datatype) :
    (move m env).resolveCall (move m place) args = move m (env.resolveCall place args) := by
  unfold resolveCall
  rw [lexeme_move, callCandidates_move]
  cases env.callCandidates place.lexeme with
  | error fault => rfl
  | ok candidates =>
      refine bind_move (x := .ok candidates) rfl fun candidates => ?_
      simp only [select_move]
      cases Overload.select candidates args with
      | ok f =>
          simp only [Except.map]
          refine bind_move (checkAccess_move env _ _ _ place) fun _ => ?_
          simp only [modules_move, ModuleTree.qualifyFunction_move]
          rfl
      | error e => cases e <;> rfl

-- An enum holds nothing that has a place.
theorem enums_same (ms : Members) : (move m ms).enums = move m ms.enums :=
  SymbolTable.ext_entries (List.map_id ms.enums.entries).symm

@[simp] theorem resolveEnum_move (env : Environment) (place : Token) :
    (move m env).resolveEnum (move m place) = move m (env.resolveEnum place) := by
  unfold resolveEnum
  refine bind_move (lookupOrBlame_move enums_same env _ place) ?_
  rintro ⟨id, e⟩
  refine bind_move (checkAccess_move env _ _ _ place) fun _ => ?_
  simp only [modules_move, ModuleTree.qualify_move, lexeme_move]
  exact congrArg (fun members => Except.ok (_, members)) (move_strings e.members).symm

@[simp] theorem ownClass?_move (env : Environment) (name : String) :
    (move m env).ownClass? name = env.ownClass? name := by
  unfold ownClass?
  rw [scopes_move, ScopeStack.class?_move]
  cases env.scopes.class? with
  | none => rfl
  | some found =>
      show (if (move m found.2).name = name then _ else _) = (if found.2.name = name then _ else _)
      simp only [modules_move, ModuleTree.qualify_move, class_name_move, move_moduleId]

@[simp] theorem resolveClass_move (env : Environment) (place : Token) :
    (move m env).resolveClass (move m place) = move m (env.resolveClass place) := by
  unfold resolveClass
  rw [lexeme_move, ownClass?_move]
  cases env.ownClass? place.lexeme with
  | some name => rfl
  | none =>
      refine bind_move (lookupOrBlame_move (fun _ => rfl) env _ place) ?_
      rintro ⟨id, c⟩
      refine bind_move (checkAccess_move env _ _ _ place) fun _ => ?_
      simp only [modules_move, ModuleTree.qualify_move]
      rfl

@[simp] theorem namesEnum_move (env : Environment) (name : String) :
    (move m env).namesEnum name = env.namesEnum name := by
  simp only [namesEnum, lookup_move Members.enums enums_same]
  cases env.lookup Members.enums name <;> rfl

@[simp] theorem namesClass_move (env : Environment) (name : String) :
    (move m env).namesClass name = env.namesClass name := by
  simp only [namesClass, ownClass?_move, lookup_move Members.classes fun _ => rfl]
  cases env.lookup Members.classes name <;> rfl

@[simp] theorem resolveDatatype_move (env : Environment) (place : Token) (nullable : Bool) :
    (move m env).resolveDatatype (move m place) nullable =
      move m (env.resolveDatatype place nullable) := by
  unfold resolveDatatype
  simp only [kind_move, lexeme_move, namesEnum_move, namesClass_move]
  split
  · rfl
  · split
    · exact bind_move (resolveEnum_move env place) fun _ => rfl
    · split
      · exact bind_move (resolveClass_move env place) fun _ => rfl
      · rfl
  · rfl

end Environment

end MiLanguage
