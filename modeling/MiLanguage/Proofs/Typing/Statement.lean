import MiLanguage.Proofs.Scope
import MiLanguage.Proofs.Statement.Accepts
import MiLanguage.Proofs.Typing.WellTyped

set_option autoImplicit false

namespace MiLanguage

namespace SymbolTable

variable {α : Type} {P : α → Prop} {t : SymbolTable α}

def Every (P : α → Prop) (t : SymbolTable α) : Prop := ∀ name a, t.find? name = some a → P a

theorem every_empty : (empty : SymbolTable α).Every P := by simp [Every]

theorem Every.insert (every : t.Every P) {a : α} (holds : P a) (name : String) :
    (t.insert name a).Every P := by
  intro other b found
  rw [find?_insert] at found
  split at found
  next => cases found; exact holds
  next => exact every other b found

theorem Every.modify (every : t.Every P) {f : α → α} (keeps : ∀ a, P a → P (f a))
    (name : String) : (t.modify name f).Every P := by
  intro other b found
  rw [find?_modify] at found
  split at found
  next =>
    obtain ⟨a, old, same⟩ := Option.map_eq_some_iff.mp found
    rw [← same]
    exact keeps a (every name a old)
  next => exact every other b found

end SymbolTable

-- An initial value is a well typed expression that may be stored in its variable.
def Variable.WellTyped (v : Variable) : Prop :=
  ∀ value, v.value = some value →
    ∃ e : Typed, value = e.node ∧ e.Correct ∧ e.type.assignable v.type = true

def ClassDeclaration.WellTyped (c : ClassDeclaration) : Prop := c.fields.Every Variable.WellTyped

structure Module.WellTyped (m : Module) : Prop where
  globals : m.members.globals.Every Variable.WellTyped
  classes : m.members.classes.Every ClassDeclaration.WellTyped

def ModuleTree.WellTyped (t : ModuleTree) : Prop := ∀ id, (t.get id).WellTyped

structure Scope.WellTyped (s : Scope) : Prop where
  node : s.node.WellTyped
  plain : s.node.kind.isPlain = true
  «class» : ∀ id c, s.frame = .class id c → c.WellTyped

structure ScopeStack.WellTyped (s : ScopeStack) : Prop where
  opened : ∀ scope ∈ s.opened, scope.WellTyped
  base : s.base.WellTyped

structure Environment.WellTyped (env : Environment) : Prop where
  modules : env.modules.WellTyped
  scopes : env.scopes.WellTyped

theorem SymbolTable.Marked.wellTyped {old new : SymbolTable Variable} (marked : old.Marked new)
    (wellTyped : old.Every Variable.WellTyped) : new.Every Variable.WellTyped := by
  intro name v found
  rcases marked name with same | ⟨w, before, after⟩
  · exact wellTyped name v (by rw [← same, found])
  · rw [found] at after
    cases after
    exact wellTyped name w before

theorem Node.LocallyTyped.untyped {n : Node} (typed : n.LocallyTyped)
    (plain : n.kind.isPlain = true) : n.type = none := by
  simp only [NodeKind.isPlain, Bool.and_eq_true, Bool.not_eq_true', decide_eq_true_eq] at plain
  obtain ⟨⟨⟨expression, type⟩, _⟩, _⟩ := plain
  cases found : n.type with
  | none => rfl
  | some t => simpa [found, expression, type] using typed.typed

namespace ModuleTree

variable {t : ModuleTree}

theorem get_modify_or (t : ModuleTree) (id other : ModuleId) (f : Module → Module) :
    (t.modify id f).get other = t.get other ∨ (t.modify id f).get other = f (t.get other) := by
  simp only [get, modify, List.getElem?_modify]
  cases t.modules[other.index]? with
  | none => exact .inl rfl
  | some m =>
      by_cases same : id.index = other.index
      · exact .inr (by simp [same])
      · exact .inl (by simp [same])

theorem WellTyped.modify (wellTyped : t.WellTyped) (id : ModuleId) {f : Module → Module}
    (keeps : ∀ m, m.WellTyped → (f m).WellTyped) : (t.modify id f).WellTyped := by
  intro other
  rcases t.get_modify_or id other f with same | same
  · rw [same]
    exact wellTyped other
  · rw [same]
    exact keeps _ (wellTyped other)

theorem WellTyped.modifyMembers (wellTyped : t.WellTyped) (id : ModuleId) {f : Members → Members}
    (globals : ∀ m, m.globals.Every Variable.WellTyped →
      (f m).globals.Every Variable.WellTyped)
    (classes : ∀ m, m.classes.Every ClassDeclaration.WellTyped →
      (f m).classes.Every ClassDeclaration.WellTyped) :
    (t.modifyMembers id f).WellTyped :=
  wellTyped.modify id fun _ typed => ⟨globals _ typed.globals, classes _ typed.classes⟩

theorem wellTyped_empty : empty.WellTyped := by
  intro id
  have fresh : ∀ name parent, Module.WellTyped { name, parent } := fun name parent =>
    ⟨SymbolTable.every_empty, SymbolTable.every_empty⟩
  unfold get empty
  cases id.index <;> exact fresh _ _

theorem WellTyped.addChild (wellTyped : t.WellTyped) (parent : ModuleId) (name : String) :
    (t.addChild parent name).2.WellTyped := by
  unfold ModuleTree.addChild
  split
  next => exact wellTyped
  next =>
    have grown : WellTyped ⟨t.modules ++ [{ name, parent := some parent }]⟩ := by
      intro id
      have old := wellTyped id
      simp only [get, List.getElem?_append] at old ⊢
      split
      next => exact old
      next =>
        cases id.index - t.modules.length with
        | zero => exact ⟨SymbolTable.every_empty, SymbolTable.every_empty⟩
        | succ => exact ⟨SymbolTable.every_empty, SymbolTable.every_empty⟩
    exact grown.modify parent fun m typed => ⟨typed.globals, typed.classes⟩

theorem WellTyped.insertVariable (wellTyped : t.WellTyped) (id : ModuleId) {v : Variable}
    (typed : v.WellTyped) : (t.insertVariable id v).WellTyped :=
  wellTyped.modifyMembers id (fun _ every => every.insert typed _) (fun _ every => every)

theorem WellTyped.insertClass (wellTyped : t.WellTyped) (id : ModuleId) {c : ClassDeclaration}
    (typed : c.WellTyped) : (t.insertClass id c).WellTyped :=
  wellTyped.modifyMembers id (fun _ every => every) (fun _ every => every.insert typed _)

theorem WellTyped.insertEnum (wellTyped : t.WellTyped) (id : ModuleId) (e : EnumDeclaration) :
    (t.insertEnum id e).WellTyped :=
  wellTyped.modifyMembers id (fun _ every => every) (fun _ every => every)

theorem WellTyped.modifyClass (wellTyped : t.WellTyped) (id : ModuleId) (name : String)
    {f : ClassDeclaration → ClassDeclaration} (keeps : ∀ c, c.WellTyped → (f c).WellTyped) :
    (t.modifyClass id name f).WellTyped :=
  wellTyped.modifyMembers id (fun _ every => every) (fun _ every => every.modify keeps _)

theorem WellTyped.modifyFunction (wellTyped : t.WellTyped) (id : ModuleId) (name : String)
    (types : List Datatype) (f : FunctionDefinition → FunctionDefinition) :
    (t.modifyFunction id name types f).WellTyped :=
  wellTyped.modifyMembers id (fun _ every => every) (fun _ every => every)

theorem WellTyped.addFunction? (wellTyped : t.WellTyped) {id : ModuleId} {f : FunctionDefinition}
    {grown : ModuleTree} (added : t.addFunction? id f = some grown) : grown.WellTyped := by
  obtain ⟨functions, _, same⟩ := Option.map_eq_some_iff.mp added
  rw [← same]
  exact wellTyped.modifyMembers id (fun _ every => every) (fun _ every => every)

theorem Updated.wellTyped {new : ModuleTree} (updated : t.Updated new) (wellTyped : t.WellTyped) :
    new.WellTyped := by
  induction updated with
  | refl => exact wellTyped
  | marked id name _ ih =>
      have keeps : ∀ v : Variable, v.WellTyped → { v with initialized := true }.WellTyped :=
        fun _ typed => typed
      exact ih.modifyMembers id (fun _ every => every.modify keeps _) (fun _ every => every)

end ModuleTree

theorem Scope.Updated.wellTyped {old new : Scope} (updated : old.Updated new)
    (wellTyped : old.WellTyped) : new.WellTyped := by
  refine ⟨by rw [updated.node]; exact wellTyped.node, by rw [updated.node]; exact wellTyped.plain, ?_⟩
  intro id c found
  have frame := updated.frame
  rw [found] at frame
  cases before : old.frame with
  | «class» =>
      have typed := wellTyped.class _ _ before
      rw [before] at frame
      cases frame with
      | refl => exact typed
      | fields marked => exact marked.wellTyped typed
  | _ => rw [before] at frame; cases frame

namespace ScopeStack

variable {s : ScopeStack}

theorem Updated.wellTyped {new : ScopeStack} (updated : s.Updated new) (wellTyped : s.WellTyped) :
    new.WellTyped := by
  refine ⟨?_, updated.base.wellTyped wellTyped.base⟩
  intro scope member
  obtain ⟨i, bound, rfl⟩ := List.getElem_of_mem member
  have within : i < s.opened.length := by rw [updated.opened.length_eq]; exact bound
  have each : (s.opened[i]).Updated new.opened[i] := updated.opened.get within bound
  exact each.wellTyped (wellTyped.opened _ (List.getElem_mem within))

theorem WellTyped.current (wellTyped : s.WellTyped) : s.current.WellTyped := by
  unfold ScopeStack.current
  cases opened : s.opened with
  | nil => exact wellTyped.base
  | cons scope rest => exact wellTyped.opened scope (by simp [opened])

theorem WellTyped.push (wellTyped : s.WellTyped) {scope : Scope} (typed : scope.WellTyped) :
    (s.push scope).WellTyped := by
  refine ⟨?_, wellTyped.base⟩
  intro other member
  rcases List.mem_cons.mp member with rfl | member
  · exact typed
  · exact wellTyped.opened other member

theorem WellTyped.pop {scope : Scope} {rest : ScopeStack} (wellTyped : s.WellTyped)
    (popped : s.pop? = some (scope, rest)) : scope.WellTyped ∧ rest.WellTyped := by
  unfold pop? at popped
  split at popped
  next => cases popped
  next top opened same =>
    cases popped
    have all := wellTyped.opened
    rw [same] at all
    exact ⟨all _ (by simp), fun other member => all other (by simp [member]), wellTyped.base⟩

theorem WellTyped.modifyCurrent (wellTyped : s.WellTyped) {f : Scope → Scope}
    (typed : (f s.current).WellTyped) : (s.modifyCurrent f).WellTyped := by
  unfold ScopeStack.modifyCurrent
  unfold ScopeStack.current at typed
  cases opened : s.opened with
  | nil =>
      rw [opened] at typed
      exact ⟨by simp, typed⟩
  | cons scope rest =>
      rw [opened] at typed
      refine ⟨?_, wellTyped.base⟩
      intro other member
      rcases List.mem_cons.mp member with rfl | member
      · exact typed
      · exact wellTyped.opened other (by simp [opened, member])

theorem WellTyped.append (wellTyped : s.WellTyped) {node : Node} (typed : node.WellTyped) :
    (s.append node).WellTyped := by
  refine wellTyped.modifyCurrent ?_
  obtain ⟨scopeTyped, plain, «class»⟩ := wellTyped.current
  have top : (s.current.node.push node).LocallyTyped :=
    Node.locallyTyped_plain plain (scopeTyped.top.untyped plain)
  refine ⟨Node.every_iff.mpr ⟨top, ?_⟩, plain, «class»⟩
  intro c member
  rcases List.mem_append.mp member with member | member
  · exact scopeTyped.child member
  · rw [List.mem_singleton.mp member]
    exact typed

theorem wellTyped_modifyFirst {f : Scope → Option Scope} {old new : List Scope}
    (keeps : ∀ a b, f a = some b → a.WellTyped → b.WellTyped)
    (changed : modifyFirst f old = some new) (wellTyped : ∀ scope ∈ old, scope.WellTyped) :
    ∀ scope ∈ new, scope.WellTyped := by
  induction old generalizing new with
  | nil => simp [modifyFirst] at changed
  | cons scope rest ih =>
      have head := wellTyped scope (by simp)
      have tail : ∀ other ∈ rest, other.WellTyped := fun other member =>
        wellTyped other (by simp [member])
      unfold modifyFirst at changed
      split at changed
      next found =>
        cases changed
        intro other member
        rcases List.mem_cons.mp member with rfl | member
        · exact keeps _ _ found head
        · exact tail other member
      next =>
        obtain ⟨later, found, same⟩ := Option.map_eq_some_iff.mp changed
        cases same
        intro other member
        rcases List.mem_cons.mp member with rfl | member
        · exact head
        · exact ih found tail other member

theorem WellTyped.modifyClass? (wellTyped : s.WellTyped) {t : ScopeStack}
    {f : ClassDeclaration → ClassDeclaration} (keeps : ∀ c, c.WellTyped → (f c).WellTyped)
    (changed : s.modifyClass? f = some t) : t.WellTyped := by
  obtain ⟨opened, found, same⟩ := Option.map_eq_some_iff.mp changed
  cases same
  refine ⟨wellTyped_modifyFirst ?_ found wellTyped.opened, wellTyped.base⟩
  intro a b same typed
  split at same
  next id c frame =>
    cases same
    refine ⟨typed.node, typed.plain, ?_⟩
    intro other d sameFrame
    cases sameFrame
    exact keeps c (typed.class id c frame)
  next => cases same

end ScopeStack


section Parts

variable {mods : LeadingModifiers} {line : Nat}

theorem LeadingModifiers.node_wellTyped : (mods.node line).WellTyped := by
  refine Node.wellTyped_new rfl ?_
  intro c member
  obtain ⟨t, _, rfl⟩ := List.mem_map.mp member
  exact Node.wellTyped_leaf rfl

theorem typeNode_wellTyped {token : Option Token} {type : Datatype} :
    (typeNode token type line).WellTyped := by
  cases token <;>
    exact Node.every_iff.mpr ⟨⟨by simp [typeNode, Node.leaf, Node.new], trivial⟩,
      by simp [typeNode, Node.leaf, Node.new]⟩

theorem name_wellTyped {name : Token} : (Node.leaf .identifier name).WellTyped :=
  Node.wellTyped_leaf rfl

theorem Header.parametersNode_wellTyped {h : Header} (shown : ∀ p ∈ h.parameters, p.Shown) :
    (h.parametersNode line).WellTyped := by
  refine Node.wellTyped_new rfl ?_
  intro c member
  obtain ⟨p, parameter, rfl⟩ := List.mem_map.mp member
  obtain ⟨mods, typeToken, name, line, same⟩ := shown p parameter
  rw [same]
  exact Node.wellTyped_new rfl (by
    simpa using ⟨mods.node_wellTyped, name_wellTyped, typeNode_wellTyped⟩)

theorem Header.parts_wellTyped {h : Header} (shown : ∀ p ∈ h.parameters, p.Shown) :
    ∀ c ∈ h.parts mods line, c.WellTyped := by
  simpa [Header.parts] using ⟨name_wellTyped, typeNode_wellTyped, mods.node_wellTyped,
    h.parametersNode_wellTyped shown⟩

theorem variableNode_wellTyped {typeToken name : Token} {v : Variable} (typed : v.WellTyped) :
    (variableNode typeToken name mods v.type v.value).WellTyped := by
  have parts : (mods.node typeToken.streamLine).WellTyped ∧ (Node.leaf .identifier name).WellTyped ∧
      (typeNode (some typeToken) v.type typeToken.streamLine).WellTyped :=
    ⟨mods.node_wellTyped, name_wellTyped, typeNode_wellTyped⟩
  cases value : v.value with
  | none => exact Node.wellTyped_new rfl (by simpa using parts)
  | some node =>
      obtain ⟨e, rfl, correct, assignable⟩ := typed node value
      refine Node.every_new.mpr ⟨⟨by simp [Node.new, NodeKind.isExpression], ?_⟩, ?_⟩
      · exact ⟨typeNode (some typeToken) v.type typeToken.streamLine,
          .new .value typeToken.streamLine [e.node], e.node, v.type, e.type, rfl, rfl, rfl, rfl,
          correct.type, assignable⟩
      · have last : (Node.new .value typeToken.streamLine [e.node]).WellTyped :=
          Node.wellTyped_new rfl (by simpa using correct.wellTyped)
        simpa [or_imp, forall_and] using ⟨parts.1, parts.2.1, parts.2.2, last⟩

end Parts

namespace Environment

variable {env : Environment}

theorem Initializes.wellTyped {v : Variable} (initializes : env.Initializes v) : v.WellTyped := by
  intro value found
  obtain ⟨e, means, same, assignable⟩ := initializes value found
  exact ⟨e, same, means.correct, assignable⟩

theorem Decides.wellTyped {node : Node} (decides : env.Decides node) : node.WellTyped := by
  obtain ⟨e, line, means, condition, rfl⟩ := decides
  have bool : e.node.HasType .bool := by
    rw [← Typed.eq_bool_of_isCondition condition]
    exact means.correct.type
  refine Node.every_new.mpr ⟨⟨by simp [Node.new, NodeKind.isExpression], e.node, rfl, bool⟩, ?_⟩
  intro c member
  rw [List.mem_singleton.mp member]
  exact means.correct.wellTyped

theorem Calls.wellTyped {node : Node} (calls : env.Calls node) : node.WellTyped := by
  obtain ⟨e, means, _, rfl⟩ := calls
  exact means.correct.wellTyped

theorem Updated.wellTyped {new : Environment} (updated : env.Updated new)
    (wellTyped : env.WellTyped) : new.WellTyped :=
  ⟨updated.modules.wellTyped wellTyped.modules, updated.scopes.wellTyped wellTyped.scopes⟩

theorem WellTyped.push (wellTyped : env.WellTyped) {frame : Frame} {node : Node}
    (typed : node.WellTyped) (plain : node.kind.isPlain = true)
    (declared : ∀ id c, frame = .class id c → c.WellTyped) : (env.push frame node).WellTyped :=
  ⟨wellTyped.modules, wellTyped.scopes.push ⟨typed, plain, declared⟩⟩

theorem WellTyped.append (wellTyped : env.WellTyped) (setting : Setting) {node : Node}
    (typed : node.WellTyped) : (env.append setting node).WellTyped := by
  unfold Environment.append
  split
  next => exact wellTyped
  next => exact ⟨wellTyped.modules, wellTyped.scopes.append typed⟩

theorem WellTyped.modifyCurrent (wellTyped : env.WellTyped) {f : Scope → Scope}
    (typed : (f env.scopes.current).WellTyped) :
    Environment.WellTyped { env with scopes := env.scopes.modifyCurrent f } :=
  ⟨wellTyped.modules, wellTyped.scopes.modifyCurrent typed⟩

theorem WellTyped.modifyBlock (wellTyped : env.WellTyped) (f : Block → Block) :
    (env.modifyBlock f).WellTyped := by
  refine wellTyped.modifyCurrent ?_
  obtain ⟨node, plain, declared⟩ := wellTyped.scopes.current
  refine ⟨node, plain, ?_⟩
  intro id c found
  cases frame : env.scopes.current.frame with
  | «class» => rw [frame] at found; exact declared id c (frame.trans found)
  | _ => rw [frame] at found; cases found

theorem Defines.wellTyped {placement : Placement} {declared : Environment} {node : Node}
    (defines : env.Defines placement declared node) (wellTyped : env.WellTyped) :
    declared.WellTyped ∧ node.WellTyped := by
  obtain ⟨typeToken, mods, introduces, added⟩ := defines
  have typed := introduces.initializes.wellTyped
  refine ⟨?_, variableNode_wellTyped typed⟩
  cases placement with
  | inBlock => exact (updated_declareLocal added).wellTyped wellTyped
  | global =>
      simp only [declareVariable?] at added
      split at added
      next => cases added
      next =>
        cases added
        exact ⟨wellTyped.modules.insertVariable _ typed, wellTyped.scopes⟩
  | field =>
      simp only [declareVariable?] at added
      split at added
      next => cases added
      next =>
        obtain ⟨scopes, changed, same⟩ := Option.map_eq_some_iff.mp added
        cases same
        refine ⟨wellTyped.modules, wellTyped.scopes.modifyClass? ?_ changed⟩
        intro c fields
        exact SymbolTable.Every.insert fields typed _

theorem Assigns.wellTyped {implied : Bool} {after : Environment} {node : Node}
    (assigns : env.Assigns implied after node)
    (wellTyped : env.WellTyped) : after.WellTyped ∧ node.WellTyped := by
  obtain ⟨op, line, valueLine, _, _, _, means⟩ := assigns
  refine ⟨(env.updated_markInitialized _).wellTyped wellTyped, ?_⟩
  have value : (Node.new .value valueLine [_]).WellTyped :=
    Node.wellTyped_new rfl (by simpa using means.correct.wellTyped)
  have operator : (Node.leaf .operator op).WellTyped := Node.wellTyped_leaf rfl
  exact Node.wellTyped_new rfl (by simpa using ⟨name_wellTyped, operator, value⟩)

theorem Advances.wellTyped {implied : Bool} {after : Environment} {node : Node}
    (advances : env.Advances implied after node)
    (wellTyped : env.WellTyped) : after.WellTyped ∧ node.WellTyped := by
  cases advances with
  | assigns assigns => exact assigns.wellTyped wellTyped
  | calls calls => exact ⟨wellTyped, calls.wellTyped⟩

theorem WellTyped.openBody (wellTyped : env.WellTyped) {type : Datatype} {owner : BodyOwner}
    {parameters : List FunctionParameter} {place : Token} {node : Node} (typed : node.WellTyped)
    (plain : node.kind.isPlain = true) :
    (env.openBody type owner parameters place node).WellTyped :=
  (updated_openBody env type owner parameters place node).wellTyped
    (wellTyped.push typed plain (by simp))

theorem WellTyped.addFunction? (wellTyped : env.WellTyped) {f : FunctionDefinition}
    {declared : Environment} (added : env.addFunction? f = some declared) :
    declared.WellTyped := by
  unfold Environment.addFunction? at added
  split at added
  next => cases added
  next =>
    simp only [Option.bind_eq_bind, Option.bind_eq_some_iff] at added
    obtain ⟨methods, _, scopes, changed, same⟩ := added
    cases same
    refine ⟨wellTyped.modules, wellTyped.scopes.modifyClass? ?_ changed⟩
    intro c fields
    exact fields
  next =>
    obtain ⟨modules, grown, same⟩ := Option.map_eq_some_iff.mp added
    cases same
    exact ⟨wellTyped.modules.addFunction? grown, wellTyped.scopes⟩

theorem knownVariable_eq_some {placement : Placement} {mods : LeadingModifiers} {typeToken : Token}
    {tokens : List Token} {node : Node}
    (known : env.knownVariable placement mods typeToken tokens = some node) :
    ∃ (name : Token) (v : Variable), env.findMember? placement name.lexeme = some v ∧
      node = variableNode typeToken name mods v.type v.value := by
  simp only [Environment.knownVariable, Option.bind_eq_bind, Option.bind_eq_some_iff] at known
  obtain ⟨name, _, v, found, same⟩ := known
  cases same
  exact ⟨name, v, found, rfl⟩

theorem WellTyped.member (wellTyped : env.WellTyped) {placement : Placement} {name : String}
    {v : Variable} (found : env.findMember? placement name = some v) : v.WellTyped := by
  unfold findMember? at found
  split at found
  next =>
    obtain ⟨⟨id, c⟩, innermost, field⟩ := Option.bind_eq_some_iff.mp found
    obtain ⟨scope, member, frame⟩ := List.exists_of_findSome?_eq_some innermost
    have scopeTyped : scope.WellTyped := by
      rcases List.mem_append.mp member with member | member
      · exact wellTyped.scopes.opened scope member
      · rw [List.mem_singleton.mp member]
        exact wellTyped.scopes.base
    cases frame' : scope.frame with
    | «class» =>
        rw [frame'] at frame
        cases frame
        exact scopeTyped.class _ _ frame' _ v field
    | _ => rw [frame'] at frame; cases frame
  next => exact (wellTyped.modules _).globals _ v found

-- The second pass takes the initial values over from the first one.
theorem WellTyped.knownVariable (wellTyped : env.WellTyped) {placement : Placement}
    {mods : LeadingModifiers} {typeToken : Token} {tokens : List Token} {node : Node}
    (known : env.knownVariable placement mods typeToken tokens = some node) :
    ∃ (name : Token) (v : Variable),
      node = variableNode typeToken name mods v.type v.value ∧ v.WellTyped := by
  obtain ⟨name, v, found, same⟩ := knownVariable_eq_some known
  exact ⟨name, v, same, wellTyped.member found⟩

end Environment

section Accepted

variable {env : Environment} {setting : Setting} {mods : LeadingModifiers} {first : Token}
  {rest : List Token} {accepted : Accepted}

theorem titledNode_wellTyped {kind : NodeKind} {name : Token} {line : Nat}
    (plain : kind.isPlain = true) :
    (Node.new kind line [.leaf .identifier name, mods.node line]).WellTyped :=
  Node.wellTyped_new plain (by simpa using ⟨name_wellTyped, mods.node_wellTyped⟩)

theorem moduleNode_wellTyped {name : Token} {line : Nat} :
    (Node.new .createModule line [.leaf .identifier name]).WellTyped :=
  Node.wellTyped_new rfl (by simpa using name_wellTyped)

theorem membersNode_wellTyped (names : List Token) (line : Nat) :
    (Node.new .enumValues line (names.map (Node.leaf .identifier))).WellTyped := by
  refine Node.wellTyped_new rfl ?_
  intro c member
  obtain ⟨t, _, rfl⟩ := List.mem_map.mp member
  exact name_wellTyped

theorem constructorNode_wellTyped {h : Header} {tokens rest : List Token} {line : Nat}
    (list : Parameter.readList env tokens = .ok (h.parameters, rest)) :
    (Node.new .createConstructor line (constructorParts mods h line)).WellTyped := by
  have shown := (Parameter.readList_shown list).1
  refine Node.wellTyped_new rfl ?_
  simpa [constructorParts] using ⟨mods.node_wellTyped, h.parametersNode_wellTyped shown⟩

theorem functionNode_wellTyped {h : Header} {line : Nat}
    (read : Header.read env mods first rest = .ok h) :
    (Node.new .functionDefinition line (h.parts mods line)).WellTyped :=
  Node.wellTyped_new rfl (h.parts_wellTyped (Header.read_eq_ok read).2.1)

theorem isPlain_of_conditional {kind : BlockKind} {nodeKind : NodeKind}
    (starts : conditional first = some (kind, nodeKind)) : nodeKind.isPlain = true := by
  rcases conditional_eq_some starts with ⟨_, _, rfl⟩ | ⟨_, _, rfl⟩ <;> rfl

theorem isPlain_of_exitKind {nodeKind : NodeKind} (starts : exitKind first = some nodeKind) :
    nodeKind.isPlain = true := by
  rcases exitKind_eq_some starts with ⟨_, rfl⟩ | ⟨_, rfl⟩ <;> rfl

theorem nativeNode_wellTyped {h : Header} {host : Token} {line : Nat}
    (read : Header.read env mods first rest = .ok h) :
    (Node.new .nativeFunctionDefinition line
      (h.parts mods line ++ [.leaf .nativeHostClass host])).WellTyped := by
  refine Node.wellTyped_new rfl ?_
  intro c member
  rcases List.mem_append.mp member with member | member
  · exact h.parts_wellTyped (Header.read_eq_ok read).2.1 c member
  · rw [List.mem_singleton.mp member]
    exact Node.wellTyped_leaf rfl

theorem returnNode_wellTyped {value : Option Typed} {line : Nat}
    (correct : ∀ e, value = some e → e.Correct) :
    (Node.new .returnValue line (value.map Typed.node).toList).WellTyped := by
  refine Node.wellTyped_new rfl ?_
  intro c member
  obtain ⟨e, found, rfl⟩ := Option.map_eq_some_iff.mp (Option.mem_toList.mp member)
  exact (correct e found).wellTyped

theorem Environment.WellTyped.loop (wellTyped : env.WellTyped) (setting : Setting) {line : Nat}
    {defined stepped : Environment} {start condition step : Node} {implied : Bool}
    (defines : (env.push (.block .loopHead {}) (.new .forFakeScope line)).Defines .inBlock defined
      start)
    (decides : defined.Decides condition) (advances : defined.Advances implied stepped step) :
    (([start, condition, .new .forInstruct line [step]].foldl
        (fun env node => env.append setting node) stepped).push
      (.block .forLoop {}) (.new .forStatement line)).WellTyped := by
  have opened : (env.push (.block .loopHead {}) (.new .forFakeScope line)).WellTyped :=
    wellTyped.push (Node.wellTyped_new rfl (by simp)) rfl (by simp)
  obtain ⟨definedTyped, startTyped⟩ := defines.wellTyped opened
  obtain ⟨steppedTyped, stepTyped⟩ := advances.wellTyped definedTyped
  have stepNode : (Node.new .forInstruct line [step]).WellTyped :=
    Node.wellTyped_new rfl (by simpa using stepTyped)
  have head := ((steppedTyped.append setting startTyped).append setting
    decides.wellTyped).append setting stepNode
  exact head.push (Node.wellTyped_new rfl (by simp)) rfl (by simp)

theorem ModuleTree.WellTyped.of_addChild {t modules : ModuleTree} (wellTyped : t.WellTyped)
    {parent id : ModuleId} {name : String} (added : t.addChild parent name = (id, modules)) :
    modules.WellTyped := by
  have typed := wellTyped.addChild parent name
  rwa [added] at typed

theorem Accepts.wellTyped (accepts : Accepts env setting mods first rest accepted)
    (wellTyped : env.WellTyped) :
    accepted.environment.WellTyped ∧ ∀ node, accepted.node = some node → node.WellTyped := by
  have leaves : ∀ {after : Environment}, after.WellTyped →
      after.WellTyped ∧ ∀ node, (none : Option Node) = some node → node.WellTyped :=
    fun typed => ⟨typed, by simp⟩
  have yields : ∀ {after : Environment} {node : Node}, after.WellTyped → node.WellTyped →
      after.WellTyped ∧ ∀ other, some node = some other → other.WellTyped :=
    fun typed node => ⟨typed, by simpa using node⟩
  cases accepts with
  | @moduleDeclared name id modules _ _ _ _ added =>
      have typed : Environment.WellTyped { env with modules } :=
        ⟨wellTyped.modules.of_addChild added, wellTyped.scopes⟩
      exact leaves (typed.push moduleNode_wellTyped rfl (by simp))
  | moduleEntered => exact leaves (wellTyped.push moduleNode_wellTyped rfl (by simp))
  | @classDeclared name c _ _ _ _ _ fresh =>
      have declared : c.WellTyped := by
        rw [fresh]
        exact SymbolTable.every_empty
      have typed : Environment.WellTyped
          { env with modules := env.modules.insertClass env.currentModule c } :=
        ⟨wellTyped.modules.insertClass _ declared, wellTyped.scopes⟩
      refine leaves (typed.push (titledNode_wellTyped rfl) rfl ?_)
      intro id c same
      cases same
      exact declared
  | classEntered _ _ _ _ found =>
      refine leaves (wellTyped.push (titledNode_wellTyped rfl) rfl ?_)
      intro id c same
      cases same
      exact (wellTyped.modules _).classes _ _ found
  | classMissing => exact leaves wellTyped
  | @enumDeclared name e =>
      have typed : Environment.WellTyped
          { env with modules := env.modules.insertEnum env.currentModule e } :=
        ⟨wellTyped.modules.insertEnum _ e, wellTyped.scopes⟩
      exact leaves (typed.push (titledNode_wellTyped rfl) rfl (by simp))
  | enumEntered => exact leaves (wellTyped.push (titledNode_wellTyped rfl) rfl (by simp))
  | enumMissing => exact leaves wellTyped
  | membersDeclared =>
      have current := wellTyped.scopes.current
      exact yields (wellTyped.modifyCurrent ⟨current.node, current.plain, by simp⟩)
        (membersNode_wellTyped _ _)
  | membersKept => exact yields wellTyped (membersNode_wellTyped _ _)
  | functionDeclared _ _ _ _ _ _ added => exact leaves (wellTyped.addFunction? added)
  | functionOpened _ _ _ _ read =>
      exact leaves (wellTyped.openBody (functionNode_wellTyped read) rfl)
  | nativeDeclared _ _ _ _ _ added => exact leaves (wellTyped.addFunction? added)
  | nativeKept _ _ _ _ read => exact yields wellTyped (nativeNode_wellTyped read)
  | constructorDeclared _ _ frame =>
      have current := wellTyped.scopes.current
      have declared := current.class _ _ frame
      refine leaves (wellTyped.modifyCurrent ⟨current.node, current.plain, ?_⟩)
      intro id c same
      cases same
      exact declared
  | constructorOpened _ _ _ _ _ _ list =>
      exact leaves (wellTyped.openBody (constructorNode_wellTyped list) rfl)
  | conditional starts _ _ decides =>
      exact leaves (wellTyped.push
        (Node.wellTyped_new (isPlain_of_conditional starts) (by simpa using decides.wellTyped))
        (isPlain_of_conditional starts) (by simp))
  | doLoop => exact leaves (wellTyped.push (Node.wellTyped_new rfl (by simp)) rfl (by simp))
  | forLoop _ _ _ defines decides advances =>
      exact leaves (wellTyped.loop setting defines decides advances)
  | returned _ _ _ means =>
      exact yields (wellTyped.modifyBlock _) (returnNode_wellTyped fun e same => (means e same).correct)
  | exited starts =>
      exact yields (wellTyped.modifyBlock _) (Node.wellTyped_leaf (isPlain_of_exitKind starts))
  | used =>
      exact yields ((env.updated_use _).wellTyped wellTyped) (Node.wellTyped_leaf rfl)
  | libraryEnded => exact yields ⟨wellTyped.modules, wellTyped.scopes⟩ (Node.wellTyped_leaf rfl)
  | variableDefined _ _ _ _ defines =>
      obtain ⟨typed, node⟩ := defines.wellTyped wellTyped
      exact yields typed node
  | variableKept =>
      refine ⟨wellTyped, ?_⟩
      intro node known
      obtain ⟨name, v, rfl, typed⟩ := wellTyped.knownVariable known
      exact variableNode_wellTyped typed
  | called _ _ _ calls => exact yields wellTyped calls.wellTyped
  | assigned _ _ _ assigns =>
      obtain ⟨typed, node⟩ := assigns.wellTyped wellTyped
      exact yields typed node

end Accepted

end MiLanguage
