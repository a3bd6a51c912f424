import MiLanguage.Proofs.Expression.Soundness
import MiLanguage.Proofs.Scope
import MiLanguage.Proofs.Statement.Header
import MiLanguage.Proofs.Statement.Storing
import MiLanguage.Statement.Control
import MiLanguage.Statement.Declaration

set_option autoImplicit false

namespace MiLanguage

namespace Environment

variable {env : Environment}

-- A condition: an expression that is true or false.
def Decides (env : Environment) (node : Node) : Prop :=
  ∃ e line, env.Means e ∧ e.type.isCondition = true ∧ node = .new .condition line [e.node]

-- A call that stands as a statement.
def Calls (env : Environment) (node : Node) : Prop :=
  ∃ e, env.Means e ∧ e.node.kind = .functionCall ∧ node = e.node

-- What a variable starts with may be stored in it.
def Initializes (env : Environment) (v : Variable) : Prop :=
  ∀ value, v.value = some value →
    ∃ e, env.Means e ∧ value = e.node ∧ e.type.assignable v.type = true

/-- A type that a token spells or that a value shows. -/
inductive Shows (env : Environment) : Datatype → Prop
  | spelled {place : Token} {type : Datatype} : env.Spells place type → Shows env type
  | valued {e : Typed} (nullable : Bool) :
      env.Means e → Shows env (e.type.withNullable nullable)

/-- A variable that can be declared under the name that a token spells. -/
structure Introduces (env : Environment) (typeToken name : Token) (mods : LeadingModifiers)
    (v : Variable) : Prop where
  named : v.name = name.lexeme
  plain : isDotted v.name = false
  type : env.Shows v.type
  spelled : typeToken.kind = .identifier → env.Spells typeToken v.type
  modifiers : v.modifiers = mods.set
  origin : v.origin = env.originOf name
  initializes : env.Initializes v
  initialized : v.initialized = v.value.isSome
  constant : v.modifiers.isConst = true → v.value.isSome = true
  stored : typeToken.kind ≠ .datatype .void → v.type.Storable

inductive Defines (env : Environment) (placement : Placement) : Environment → Node → Prop
  | intro {v : Variable} {declared : Environment} (typeToken : Token) {name : Token}
      (mods : LeadingModifiers) :
      env.Introduces typeToken name mods v → env.declareVariable? placement v = some declared →
      typeToken.kind ≠ .datatype .void →
      Defines env placement declared (variableNode typeToken name mods v.type v.value)

/-- Something that suits a variable is stored there. Only a step that is `implied` may do so to
any. -/
inductive Assigns (env : Environment) (implied : Bool) : Environment → Node → Prop
  | intro {e : Typed} {v : ResolvedVariable} {target : Token} (op : Token) (line valueLine : Nat) :
      env.resolveVariable target = .ok v → v.modifiers.isConst = false →
      (implied = true ∨ v.canAssign = true) → env.Means e → op.kind.Suits v.type e.type →
      Assigns env implied (env.markInitialized v) (.new .varSetValue line
        [.leaf .identifier (.synthetic .identifier v.qualified target), .leaf .operator op,
          .new .value valueLine [e.node]])

/-- The step of a loop. -/
inductive Advances (env : Environment) (implied : Bool) : Environment → Node → Prop
  | assigns {after : Environment} {node : Node} :
      env.Assigns implied after node → Advances env implied after node
  | calls {node : Node} : env.Calls node → Advances env implied env node

theorem Defines.updated {declared : Environment} {node : Node}
    (defines : env.Defines .inBlock declared node) : env.Updated declared := by
  obtain ⟨_, _, _, added⟩ := defines
  exact updated_declareLocal added

theorem Assigns.updated {implied : Bool} {after : Environment} {node : Node}
    (assigns : env.Assigns implied after node) : env.Updated after := by
  obtain ⟨_, _, _, _, _, _, _⟩ := assigns
  exact env.updated_markInitialized _

theorem Advances.updated {implied : Bool} {after : Environment} {node : Node}
    (advances : env.Advances implied after node) : env.Updated after := by
  cases advances with
  | assigns assigns => exact assigns.updated
  | calls => exact env.updated_refl

theorem conditionNode_decides {tokens : List Token} {place : Token} {node : Node}
    (read : env.conditionNode tokens place = .ok node) : env.Decides node := by
  simp only [conditionNode, Checked.bind_eq_ok, Checked.require_eq_ok] at read
  obtain ⟨e, value, _, decides, same⟩ := read
  cases same
  exact ⟨e, place.streamLine, expression_means value, decides, rfl⟩

theorem wrappedCondition_decides {tokens : List Token} {keyword : Token} {node : Node}
    (read : env.wrappedCondition tokens keyword = .ok node) : env.Decides node := by
  unfold wrappedCondition at read
  split at read
  next => exact conditionNode_decides read
  next => simp at read

theorem callStep_calls {tokens : List Token} {place : Token} {after : Environment} {node : Node}
    (read : env.callStep tokens place = .ok (after, node)) : after = env ∧ env.Calls node := by
  simp only [callStep, Checked.bind_eq_ok, Checked.require_eq_ok, decide_eq_true_eq] at read
  obtain ⟨e, value, _, call, same⟩ := read
  cases same
  exact ⟨rfl, e, expression_means value, call, rfl⟩

theorem variableType_assignable {declared : Option Datatype} {value : Typed} {nullable : Bool}
    {name typeToken valueToken : Token} {type : Datatype}
    (found : variableType declared (some value) nullable name typeToken valueToken = .ok type) :
    value.type.assignable type = true := by
  cases declared with
  | some wanted =>
      simp only [variableType, Checked.bind_eq_ok, Checked.require_eq_ok] at found
      obtain ⟨_, assignable, same⟩ := found
      cases same
      exact assignable
  | none =>
      simp only [variableType, Checked.bind_eq_ok, Checked.require_eq_ok] at found
      obtain ⟨_, shown, same⟩ := found
      cases same
      cases type : value.type with
      | null => simp [type, Datatype.isNull] at shown
      | of base n => cases n <;> cases nullable <;> simp [Datatype.assignable, Datatype.withNullable,
          Datatype.nullable]

theorem variableType_shows {declared : Option Datatype} {value : Option Typed} {nullable : Bool}
    {name typeToken valueToken : Token} {type : Datatype}
    (spelled : ∀ type, declared = some type → env.Shows type)
    (means : ∀ e, value = some e → env.Means e)
    (found : variableType declared value nullable name typeToken valueToken = .ok type) :
    env.Shows type := by
  unfold variableType at found
  split at found
  next shown =>
    cases found
    exact spelled _ rfl
  next =>
    simp only [Checked.bind_eq_ok] at found
    obtain ⟨_, _, same⟩ := found
    cases same
    exact spelled _ rfl
  next => simp at found
  next e =>
    simp only [Checked.bind_eq_ok] at found
    obtain ⟨_, _, same⟩ := found
    cases same
    exact .valued _ (means e rfl)

theorem variableType_storable {declared : Option Datatype} {value : Option Typed} {nullable : Bool}
    {name typeToken valueToken : Token} {type : Datatype}
    (storable : ∀ type, declared = some type → type.Storable)
    (found : variableType declared value nullable name typeToken valueToken = .ok type) :
    type.Storable := by
  unfold variableType at found
  split at found
  next =>
    cases found
    exact storable _ rfl
  next =>
    simp only [Checked.bind_eq_ok] at found
    obtain ⟨_, _, same⟩ := found
    cases same
    exact storable _ rfl
  next => simp at found
  next e =>
    simp only [Checked.bind_eq_ok, Checked.require_eq_ok, Bool.and_eq_true, Bool.not_eq_true'] at found
    obtain ⟨_, ⟨notNull, notVoid⟩, same⟩ := found
    cases same
    cases type : e.type with
    | null => simp [type, Datatype.isNull] at notNull
    | of base =>
        rw [type] at notVoid
        exact ⟨rfl, by cases base <;> exact notVoid⟩

theorem initializes_of_type {declared : Option Datatype} {value : Option Typed} {nullable : Bool}
    {name typeToken valueToken : Token} {v : Variable} (means : ∀ e, value = some e → env.Means e)
    (found : variableType declared value nullable name typeToken valueToken = .ok v.type)
    (starts : v.value = value.map Typed.node) : env.Initializes v := by
  intro node same
  rw [starts] at same
  obtain ⟨e, rfl, rfl⟩ := Option.map_eq_some_iff.mp same
  exact ⟨e, means e rfl, rfl, variableType_assignable found⟩

theorem variableType_declared {declared : Datatype} {value : Option Typed} {nullable : Bool}
    {name typeToken valueToken : Token} {type : Datatype}
    (found : variableType (some declared) value nullable name typeToken valueToken = .ok type) :
    type = declared := by
  cases value with
  | none =>
      cases found
      rfl
  | some =>
      simp only [variableType, Checked.bind_eq_ok] at found
      obtain ⟨_, _, same⟩ := found
      cases same
      rfl

-- The checked parts of a definition make a variable.
theorem declared_eq_ok {placement : Placement} {mods : LeadingModifiers}
    {typeToken valueToken name : Token} {declared : Option Datatype} {value : Option Typed}
    {type : Datatype} {fault : Fault} {after : Environment} {node : Node}
    (found : (match env.declareVariable? placement
        { name := name.lexeme, type, modifiers := mods.set, origin := env.originOf name
          initialized := value.isSome, value := value.map Typed.node } with
      | none => blame fault name
      | some env => .ok (env, variableNode typeToken name mods type (value.map Typed.node)) :
        Checked (Environment × Node)) = .ok (after, node))
    (typed : variableType declared value mods.set.isNullable name typeToken valueToken = .ok type)
    (constant : (!(mods.set.isConst && value.isNone)) = true) (plain : isDotted name.lexeme = false)
    (spelled : ∀ type, declared = some type → env.Spells typeToken type)
    (inferred : declared = none → typeToken.kind ≠ .identifier)
    (means : ∀ e, value = some e → env.Means e) :
    ∃ v : Variable, v.value.isSome = value.isSome ∧ env.Introduces typeToken name mods v ∧
      env.declareVariable? placement v = some after ∧
      node = variableNode typeToken name mods v.type v.value := by
  split at found
  next => simp at found
  next added =>
    cases found
    refine ⟨_, Option.isSome_map .., ⟨rfl, plain, ?_, ?_, rfl, rfl, ?_, ?_, ?_, ?_⟩, added, rfl⟩
    · exact variableType_shows (fun type same => .spelled (spelled type same)) means typed
    · intro identifier
      cases declared with
      | none => exact absurd identifier (inferred rfl)
      | some declared =>
          rw [variableType_declared typed]
          exact spelled declared rfl
    · exact initializes_of_type means typed rfl
    · exact (Option.isSome_map ..).symm
    · intro isConst
      have isConst : mods.set.isConst = true := isConst
      rw [isConst] at constant
      simpa using constant
    · exact fun kind => variableType_storable (fun type same => (spelled type same).storable kind) typed

theorem newVariable_eq_ok {placement : Placement} {mods : LeadingModifiers}
    {typeToken stop : Token} {tokens : List Token} {after : Environment} {node : Node}
    (read : env.newVariable placement mods typeToken tokens stop = .ok (after, node)) :
    ∃ v name initial, declaredName tokens.head? typeToken "variable" = .ok name ∧
      initialTokens tokens.tail = .ok initial ∧ v.value.isSome = initial.isSome ∧
      env.Introduces typeToken name mods v ∧ env.declareVariable? placement v = some after ∧
      node = variableNode typeToken name mods v.type v.value := by
  unfold newVariable at read
  cases native : mods.first? (· = .nat) with
  | some t => simp [native] at read
  | none =>
      simp only [native, Checked.bind_eq_ok] at read
      obtain ⟨name, named, initial, initially, read⟩ := read
      have plain := (declaredName_eq_ok named).2.2
      have question : typeToken.is .question = true → typeToken.kind ≠ .identifier := by
        intro question
        rw [Token.is_iff] at question
        simp [question]
      suffices introduces : ∃ v : Variable, v.value.isSome = initial.isSome ∧
          env.Introduces typeToken name mods v ∧ env.declareVariable? placement v = some after ∧
          node = variableNode typeToken name mods v.type v.value by
        obtain ⟨v, made⟩ := introduces
        exact ⟨v, name, initial, named, initially, made⟩
      cases initial with
      | none =>
          split at read
          all_goals
            simp only [Checked.bind_eq_ok, Checked.require_eq_ok, Except.ok.injEq, exists_eq_left'] at read
          next asks =>
            obtain ⟨type, typed, _, constant, found⟩ := read
            exact declared_eq_ok found typed constant plain (by simp) (fun _ => question asks)
              (by simp)
          next =>
            obtain ⟨spelled, resolved, type, typed, _, constant, found⟩ := read
            refine declared_eq_ok found typed constant plain ?_ (by simp) (by simp)
            rintro _ same
            cases same
            exact ⟨_, resolved⟩
      | some initial =>
          have starts : ∀ {e}, env.expression initial.2 initial.1 = .ok e →
              ∀ found, some e = some found → env.Means found := by
            intro e value found same
            cases same
            exact expression_means value
          split at read
          all_goals
            simp only [Checked.bind_eq_ok, Checked.require_eq_ok, Except.ok.injEq, exists_eq_left'] at read
          next asks =>
            obtain ⟨e, value, type, typed, _, constant, found⟩ := read
            exact declared_eq_ok found typed constant plain (by simp) (fun _ => question asks)
              (starts value)
          next =>
            obtain ⟨spelled, resolved, e, value, type, typed, _, constant, found⟩ := read
            refine declared_eq_ok found typed constant plain ?_ (by simp) (starts value)
            rintro _ same
            cases same
            exact ⟨_, resolved⟩

theorem newVariable_defines {placement : Placement} {mods : LeadingModifiers}
    {typeToken stop : Token} {tokens : List Token} {after : Environment} {node : Node}
    (read : env.newVariable placement mods typeToken tokens stop = .ok (after, node))
    (kind : typeToken.kind ≠ .datatype .void) : Defines env placement after node := by
  obtain ⟨v, name, _, _, _, _, introduces, added, rfl⟩ := newVariable_eq_ok read
  exact .intro typeToken mods introduces added kind

theorem assign_assigns {implied : Bool} {target op : Token} {tokens : List Token}
    {after : Environment} {node : Node}
    (read : env.assign implied target op tokens = .ok (after, node)) :
    Assigns env implied after node := by
  simp only [assign, Checked.bind_eq_ok, Checked.require_eq_ok, Bool.not_eq_true',
    Bool.or_eq_true] at read
  obtain ⟨_, _, v, resolved, _, isVariable, _, assignable, read⟩ := read
  have assigns : ∀ {value}, (∃ e, env.Means e ∧ value = e.node ∧ op.kind.Suits v.type e.type) →
      Assigns env implied (env.markInitialized v) (.new .varSetValue target.streamLine
        [.leaf .identifier (.synthetic .identifier v.qualified target), .leaf .operator op,
          .new .value op.streamLine [value]]) := by
    rintro value ⟨e, means, rfl, suits⟩
    exact .intro op _ _ resolved isVariable assignable means suits
  split at read
  all_goals
    simp only [Checked.bind_eq_ok] at read
    obtain ⟨value, found, same⟩ := read
    cases same
  next kind => exact assigns (stepValue_means found (by rw [kind]; rfl) (.inl kind))
  next kind => exact assigns (stepValue_means found (by rw [kind]; rfl) (.inr kind))
  next => exact assigns (assignedValue_means found)

theorem loopStep_advances {implied : Bool} {tokens : List Token} {keyword : Token}
    {after : Environment} {node : Node}
    (read : env.loopStep implied tokens keyword = .ok (after, node)) :
    Advances env implied after node := by
  have called : ∀ {tokens place}, env.callStep tokens place = .ok (after, node) →
      Advances env implied after node := by
    intro tokens place read
    obtain ⟨rfl, calls⟩ := callStep_calls read
    exact .calls calls
  simp only [loopStep] at read
  split at read
  next => simp at read
  next => exact called read
  next =>
    split at read
    next => exact .assigns (assign_assigns read)
    next => exact called read

theorem loopDefinition_defines {tokens : List Token} {keyword : Token} {after : Environment}
    {node : Node} (read : env.loopDefinition tokens keyword = .ok (after, node)) :
    Defines env .inBlock after node := by
  simp only [loopDefinition, Checked.bind_eq_ok] at read
  obtain ⟨⟨mods, rest⟩, _, read⟩ := read
  cases rest with
  | nil => simp at read
  | cons first rest =>
      simp only [Checked.bind_eq_ok, Checked.require_eq_ok] at read
      obtain ⟨_, starts, ⟨defined, definition⟩, variableRead, _, _, same⟩ := read
      cases same
      refine newVariable_defines variableRead ?_
      intro void
      simp [Token.is, void, TokenKind.isDatatype] at starts

end Environment

end MiLanguage
