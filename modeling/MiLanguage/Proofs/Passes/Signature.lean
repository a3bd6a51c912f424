import MiLanguage.Proofs.Analysis.Clean
import MiLanguage.Proofs.Control.Semantics
import MiLanguage.Proofs.Definitions

set_option autoImplicit false

namespace MiLanguage

/-- What both passes have in common of an open scope. -/
inductive Title where
  | module (id : ModuleId)
  | «class» (id : ModuleId) (name : String)
  | enum (id : ModuleId)
  | block (kind : BlockKind)
  | discarded

namespace Title

def isModule : Title → Bool
  | module _ => true
  | _ => false

def isDeclaration : Title → Bool
  | module _ | .class _ _ | enum _ => true
  | _ => false

def moduleId? : Title → Option ModuleId
  | module id | .class id _ | enum id => some id
  | _ => none

-- Outside of every body: a declaration is open, in modules only.
def Outside (titles : List Title) : Prop :=
  ∃ top below, titles = top :: below ∧ top.isDeclaration = true ∧
    (∀ title ∈ below, title.isModule = true) ∧ titles.getLast? = some (.module ModuleTree.root)

def currentModule (titles : List Title) : ModuleId :=
  (titles.findSome? moduleId?).getD ModuleTree.root

def owner (titles : List Title) : Owner :=
  match titles with
  | .class id name :: _ => .inClass id name
  | titles => .module (currentModule titles)

end Title

def Frame.title : Frame → Title
  | parent id | module id => .module id
  | .class id c => .class id c.name
  | enum id _ => .enum id
  | block kind _ => .block kind

def Scope.title (s : Scope) : Title := if s.discard then .discarded else s.frame.title

theorem Frame.Updated.title {old new : Frame} (updated : old.Updated new) :
    new.title = old.title := by
  cases updated <;> rfl

theorem Scope.Updated.title {old new : Scope} (updated : old.Updated new) :
    new.title = old.title := by
  simp [Scope.title, updated.discard, updated.frame.title]

theorem Frame.moduleId?_title (f : Frame) : f.title.moduleId? = f.moduleId? := by
  cases f <;> rfl

namespace Environment

variable {env : Environment}

def titles (env : Environment) : List Title := env.scopes.all.map Scope.title

-- The declarations, those of the class or enum that is open included.
def declared (env : Environment) : ModuleTree :=
  match env.frame with
  | .class id c => env.modules.insertClass id c
  | .enum id e => env.modules.insertEnum id e
  | _ => env.modules

@[simp] theorem titles_push (env : Environment) (frame : Frame) (n : Node) :
    (env.push frame n).titles = frame.title :: env.titles := rfl

theorem titles_eq_current (env : Environment) :
    ∃ below, env.titles = env.scopes.current.title :: below ∧
      ∀ f, ({ env with scopes := env.scopes.modifyCurrent f } : Environment).titles =
        (f env.scopes.current).title :: below := by
  obtain ⟨outer, all, changed⟩ := env.scopes.all_eq_current
  refine ⟨outer.map Scope.title, ?_, ?_⟩
  · simp [titles, all]
  · intro f
    simp [titles, changed]

theorem titles_append (env : Environment) (setting : Setting) (n : Node) :
    (env.append setting n).titles = env.titles := by
  unfold Environment.append
  split
  next => rfl
  next =>
    obtain ⟨below, titles, changed⟩ := env.titles_eq_current
    rw [titles]
    exact changed _

theorem title_frame (outside : Title.Outside env.titles) :
    env.scopes.current.discard = false ∧ env.frame.title.isDeclaration = true ∧
      env.titles.head? = some env.frame.title := by
  obtain ⟨below, titles, _⟩ := env.titles_eq_current
  obtain ⟨top, _, same, declaration, _⟩ := outside
  rw [titles] at same
  cases same
  unfold Scope.title at declaration titles
  split at declaration
  next => cases declaration
  next kept =>
    rw [if_neg kept] at titles
    exact ⟨by simpa using kept, declaration, by rw [titles]; rfl⟩

theorem isBlock_of_outside (outside : Title.Outside env.titles) : env.frame.isBlock = false := by
  have declaration := (title_frame outside).2.1
  cases frame : env.frame with
  | block => rw [frame] at declaration; cases declaration
  | _ => rfl

theorem discard_of_outside (outside : Title.Outside env.titles) :
    ∀ scope ∈ env.scopes.all, scope.discard = false := by
  intro scope member
  have inside : scope.title ∈ env.titles := List.mem_map_of_mem member
  obtain ⟨top, below, titles, declaration, modules, _⟩ := outside
  rw [titles] at inside
  cases kept : scope.discard with
  | false => rfl
  | true =>
      have title : scope.title = .discarded := by simp [Scope.title, kept]
      rw [title] at inside
      rcases List.mem_cons.mp inside with same | below'
      · rw [← same] at declaration
        cases declaration
      · cases modules _ below'

theorem currentModule_eq (outside : Title.Outside env.titles) :
    env.currentModule = Title.currentModule env.titles := by
  have kept := discard_of_outside outside
  unfold Environment.currentModule ScopeStack.currentModule Title.currentModule titles
  generalize env.scopes.all = scopes at kept
  congr 1
  induction scopes with
  | nil => rfl
  | cons scope outer ih =>
      have title : scope.title = scope.frame.title := by simp [Scope.title, kept scope (by simp)]
      have rest := ih fun other member => kept other (by simp [member])
      rw [List.map_cons, List.findSome?_cons, List.findSome?_cons, title, Frame.moduleId?_title,
        rest]

theorem owner_eq (outside : Title.Outside env.titles) : env.owner = Title.owner env.titles := by
  have head := (title_frame outside).2.2
  have current := currentModule_eq outside
  unfold Environment.owner
  cases titles : env.titles with
  | nil => rw [titles] at head; cases head
  | cons top below =>
      rw [titles] at head current
      cases head
      cases frame : env.frame with
      | «class» id c => rfl
      | _ => rw [frame] at current; exact congrArg Owner.module current

end Environment

/-- The types in the header of a function. -/
structure Signature where
  paramTypes : List Datatype
  returnType : Datatype

namespace Environment

-- What a header means here, if a body follows it.
def signature? (env : Environment) (statement : List Token) : Option Signature :=
  match LeadingModifiers.read statement with
  | .ok (mods, head :: tail) =>
      match head.kind with
      | .keyword .fn =>
          match Header.read env mods head tail with
          | .ok h => if h.hostClass.isNone then some ⟨h.paramTypes, h.returnType⟩ else none
          | .error _ => none
      | .keyword .new =>
          match Parameter.readList env tail with
          | .ok (parameters, _) => some ⟨parameters.map (·.parameter.type), .void⟩
          | .error _ => none
      | _ => none
  | _ => none

/-- The header of a function or of a constructor, and what it declares. -/
inductive Heads (env : Environment) (mods : LeadingModifiers) (head : Token) (tail : List Token) :
    BodyOwner → Signature → Prop
  | function {h : Header} :
      head.kind = .keyword .fn → Header.read env mods head tail = .ok h → h.hostClass = none →
      Heads env mods head tail (.function env.owner h.name.lexeme h.paramTypes)
        ⟨h.paramTypes, h.returnType⟩
  | constructor {id : ModuleId} {c : ClassDeclaration} {parameters : List ReadParameter}
      {rest : List Token} :
      head.kind = .keyword .new → env.frame = .class id c →
      Parameter.readList env tail = .ok (parameters, rest) →
      Heads env mods head tail (.constructor id c.name)
        ⟨parameters.map (·.parameter.type), .void⟩

variable {env other : Environment} {mods : LeadingModifiers} {head : Token}
  {tail statement : List Token} {owner owner' : BodyOwner} {sig sig' : Signature}

theorem Heads.signature? (heads : env.Heads mods head tail owner sig)
    (read : LeadingModifiers.read statement = .ok (mods, head :: tail)) :
    env.signature? statement = some sig := by
  cases heads with
  | function kind header bodied => simp [Environment.signature?, read, kind, header, bodied]
  | constructor kind _ list => simp [Environment.signature?, read, kind, list]

-- A body follows what has a signature.
theorem body_of_signature? (found : env.signature? statement = some sig) :
    ∃ mods head tail, LeadingModifiers.read statement = .ok (mods, head :: tail) ∧
      (head.kind = .keyword .new ∨ (head.kind = .keyword .fn ∧ Ends head tail .leftBrace)) := by
  unfold Environment.signature? at found
  split at found
  next mods head tail read =>
    refine ⟨mods, head, tail, read, ?_⟩
    split at found
    next kind =>
      split at found
      next h header =>
        split at found
        next bodied =>
          have ends := (Header.read_eq_ok header).2.2
          simp only [Option.isNone_iff_eq_none] at bodied
          exact .inr ⟨kind, by simpa [bodied] using ends⟩
        next => cases found
      next => cases found
    next kind => exact .inl kind
    next => cases found
  next => cases found

-- In the same place, a header with the same types declares the same.
theorem Heads.owner_eq (heads : env.Heads mods head tail owner sig)
    (heads' : other.Heads mods head tail owner' sig') (same : sig'.paramTypes = sig.paramTypes)
    (outside : Title.Outside env.titles) (titles : other.titles = env.titles) :
    owner' = owner := by
  have outside' : Title.Outside other.titles := by rwa [titles]
  cases heads with
  | @function h kind header =>
      cases heads' with
      | @function h' kind' header' =>
          have name := (Header.read_eq_ok header).1
          have name' := (Header.read_eq_ok header').1
          rw [name] at name'
          have types : h'.paramTypes = h.paramTypes := same
          rw [Environment.owner_eq outside, Environment.owner_eq outside', titles,
            Option.some.inj name', types]
      | constructor kind' => rw [kind] at kind'; cases kind'
  | constructor kind frame =>
      cases heads' with
      | function kind' => rw [kind] at kind'; cases kind'
      | constructor _ frame' =>
          have title := (title_frame outside).2.2
          have title' := (title_frame outside').2.2
          rw [titles, title, frame, frame'] at title'
          simp only [Frame.title, Option.some.injEq, Title.class.injEq] at title'
          rw [title'.1, title'.2]

end Environment

namespace Node

/-- A function's node shows the types of its header. -/
structure Records (n : Node) (owner : BodyOwner) (sig : Signature) : Prop where
  parameters : ∃ list, n.child? .parameters = some list ∧
    list.children.map declaredType? = sig.paramTypes.map some
  returns : match owner with
    | .function _ _ _ => n.kind = .functionDefinition ∧ n.declaredType? = some sig.returnType
    | .constructor _ _ => n.kind = .createConstructor ∧ sig.returnType = .void

-- Children have been added to a node.
def Grown (old new : Node) : Prop :=
  new.kind = old.kind ∧ ∃ more, new.children = old.children ++ more

variable {n new : Node} {owner : BodyOwner} {sig other : Signature}

theorem grown_refl (n : Node) : n.Grown n := ⟨rfl, [], by simp⟩

theorem Grown.push (grown : n.Grown new) (c : Node) : n.Grown (new.push c) := by
  obtain ⟨kind, more, children⟩ := grown
  exact ⟨kind, more ++ [c], by simp [children]⟩

theorem Grown.child? (grown : n.Grown new) {kind : NodeKind} {c : Node}
    (found : n.child? kind = some c) : new.child? kind = some c := by
  obtain ⟨_, more, children⟩ := grown
  unfold Node.child? at found ⊢
  rw [children, List.find?_append, found]
  rfl

theorem Grown.declaredType? (grown : n.Grown new) {type : Datatype}
    (declared : n.declaredType? = some type) : new.declaredType? = some type := by
  obtain ⟨child, found, typed⟩ := Option.bind_eq_some_iff.mp declared
  exact Option.bind_eq_some_iff.mpr ⟨child, grown.child? found, typed⟩

theorem Grown.records (grown : n.Grown new) (records : n.Records owner sig) :
    new.Records owner sig := by
  obtain ⟨⟨list, found, types⟩, returns⟩ := records
  refine ⟨⟨list, grown.child? found, types⟩, ?_⟩
  cases owner with
  | function => exact ⟨grown.1.trans returns.1, grown.declaredType? returns.2⟩
  | constructor => exact ⟨grown.1.trans returns.1, returns.2⟩

-- A node shows one signature only.
theorem Records.unique {owner' : BodyOwner} (records : n.Records owner sig)
    (records' : n.Records owner' other) : sig = other := by
  obtain ⟨⟨list, found, types⟩, returns⟩ := records
  obtain ⟨⟨list', found', types'⟩, returns'⟩ := records'
  have params : sig.paramTypes = other.paramTypes := by
    rw [found] at found'
    cases found'
    rw [types] at types'
    exact List.map_injective_iff.mpr (fun _ _ => Option.some.inj) types'
  have type : sig.returnType = other.returnType := by
    cases owner with
    | function =>
        cases owner' with
        | function => exact Option.some.inj (returns.2.symm.trans returns'.2)
        | constructor =>
            rw [returns.1] at returns'
            cases returns'.1
    | constructor =>
        cases owner' with
        | function =>
            rw [returns.1] at returns'
            cases returns'.1
        | constructor => exact returns.2.trans returns'.2.symm
  cases sig
  cases other
  simp_all

theorem shown_types {parameters : List ReadParameter} (shown : ∀ p ∈ parameters, p.Shown) :
    (parameters.map ReadParameter.node).map Node.declaredType? =
      (parameters.map (·.parameter.type)).map some := by
  rw [List.map_map, List.map_map]
  refine List.map_congr_left ?_
  intro p member
  obtain ⟨mods, typeToken, name, line, node⟩ := shown p member
  simp [node, Node.declaredType?, Node.child?, Node.new, LeadingModifiers.node, Node.leaf, typeNode,
    Node.typed]

end Node

theorem Header.parts_records {h : Header} (shown : ∀ p ∈ h.parameters, p.Shown)
    (mods : LeadingModifiers) (line : Nat) (owner : Owner) (name : String)
    (types : List Datatype) :
    (Node.new .functionDefinition line (h.parts mods line)).Records (.function owner name types)
      ⟨h.paramTypes, h.returnType⟩ := by
  have types : (h.parametersNode line).children.map Node.declaredType? = h.paramTypes.map some := by
    have same := Node.shown_types shown
    simpa [Header.parametersNode, Node.new, Header.paramTypes, Header.params] using same
  refine ⟨⟨h.parametersNode line, ?_, types⟩, rfl, h.declaredType?_parts mods line⟩
  cases token : h.returnToken <;>
    simp [Node.child?, Node.new, Header.parts, Header.returnNode, typeNode, token, Node.leaf,
      Node.typed, LeadingModifiers.node, Header.parametersNode]

theorem constructorParts_records {h : Header} (shown : ∀ p ∈ h.parameters, p.Shown)
    (mods : LeadingModifiers) (line : Nat) (id : ModuleId) (className : String) :
    (Node.new .createConstructor line (constructorParts mods h line)).Records
      (.constructor id className) ⟨h.parameters.map (·.parameter.type), .void⟩ := by
  have types : (h.parametersNode line).children.map Node.declaredType? =
      (h.parameters.map (·.parameter.type)).map some := by
    have same := Node.shown_types shown
    simpa [Header.parametersNode, Node.new] using same
  refine ⟨⟨h.parametersNode line, ?_, types⟩, rfl, rfl⟩
  simp [Node.child?, Node.new, constructorParts, LeadingModifiers.node, Header.parametersNode]

end MiLanguage
