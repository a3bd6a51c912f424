import MiLanguage.Proofs.Likeness.Expression

set_option autoImplicit false

namespace MiLanguage

variable {σ : Slack} {env other : Environment}

/-- An accepted statement in two runs. -/
inductive Accepted.Like (σ : Slack) : Accepted → Accepted → Prop
  | intro {env other : Environment} {node : Option Node} :
      env.Like σ other → Like σ ⟨env, node⟩ ⟨other, node⟩

/-- A part of a statement in two runs, with the node that it makes. -/
inductive StepLike (σ : Slack) : Environment × Node → Environment × Node → Prop
  | intro {env other : Environment} {node : Node} :
      env.Like σ other → StepLike σ (env, node) (other, node)

namespace Environment

section Changes

variable (like : env.Like σ other)

include like

theorem Like.withScopes {scopes others : ScopeStack} (changed : scopes.Like σ others) :
    ({ env with scopes } : Environment).Like σ { other with scopes := others } :=
  ⟨like.modules, changed, like.inLibrary⟩

theorem Like.push {frame frame' : Frame} (frames : frame.Like σ frame') (node : Node) :
    (env.push frame node).Like σ (other.push frame' node) :=
  like.withScopes (like.scopes.push ⟨frames, rfl⟩ rfl)

theorem Like.pushBlock (kind : BlockKind) (node : Node) :
    (env.push (.block kind {}) node).Like σ (other.push (.block kind {}) node) :=
  like.push (.block (Block.like_refl _)) node

theorem Like.append (setting : Setting) (node : Node) :
    (env.append setting node).Like σ (other.append setting node) := by
  unfold Environment.append
  split
  · exact like
  · exact like.withScopes (like.scopes.append node)

theorem Like.modifyBlock {f g : Block → Block}
    (keeps : ∀ b c : Block, b.Like σ c → (f b).Like σ (g c))
    (owner : ∀ b : Block, (f b).bodyOf = b.bodyOf) :
    (env.modifyBlock f).Like σ (other.modifyBlock g) :=
  like.withScopes (like.scopes.modifyCurrentBlock keeps owner)

end Changes

section Variables

def define (env : Environment) (placement : Placement) (mods : LeadingModifiers)
    (typeToken name valueToken : Token) (declared : Option Datatype) (value : Option Typed) :
    Checked (Environment × Node) := do
  let type ← variableType declared value mods.set.isNullable name typeToken valueToken
  require (!(mods.set.isConst && value.isNone)) (TypeFault.constantWithoutValue name.lexeme) name
  let v : Variable :=
    { name := name.lexeme
      type
      modifiers := mods.set
      origin := env.originOf name
      initialized := value.isSome
      value := value.map Typed.node }
  match env.declareVariable? placement v with
  | none => blame (ResolutionFault.variableAgain name.lexeme) name
  | some env => .ok (env, variableNode typeToken name mods type (value.map Typed.node))

variable (like : env.Like σ other)

include like

theorem Like.placement (place : Token) : other.placement place = env.placement place := by
  have frame := like.frame
  unfold Environment.placement
  rw [like.inLibrary]
  generalize env.frame = f, other.frame = g at frame
  cases frame <;> rfl

theorem Like.fieldTaken (name : String) :
    (other.scopes.class?.all fun (_, c) => c.fields.contains name) =
      env.scopes.class?.all fun (_, c) => c.fields.contains name := by
  have around := ScopeStack.class?_like like.scopes.scopes
  generalize env.scopes.class? = found, other.scopes.class? = found' at around
  cases around with
  | none => rfl
  | some around =>
      obtain ⟨alike⟩ := around
      exact alike.fields.contains name

theorem Like.declareVariable? {placement : Placement}
    (declares : placement ≠ .inBlock → σ.Declares) (v : Variable) :
    Option.Rel (Environment.Like σ) (env.declareVariable? placement v)
      (other.declareVariable? placement v) := by
  cases placement with
  | inBlock =>
      have declared := like.scopes.declareLocal? v
      unfold Environment.declareVariable?
      simp only
      generalize env.scopes.declareLocal? v = found, other.scopes.declareLocal? v = found'
        at declared
      cases declared with
      | none => exact .none
      | some declared => exact .some (like.withScopes declared)
  | global =>
      simp only [Environment.declareVariable?, like.currentModule, like.modules.nameTaken]
      split
      · exact .none
      · have related := (declares (by decide)).vars (.module env.currentModule) v.name v
        exact .some ⟨like.modules.insertVariable rfl related, like.scopes, like.inLibrary⟩
  | field =>
      have declared := like.scopes.modifyClass?
        (f := fun c => { c with fields := c.fields.insert v.name v })
        (g := fun c => { c with fields := c.fields.insert v.name v }) fun _ _ _ alike =>
          ⟨alike.name, alike.modifiers, alike.origin,
            alike.fields.insert ((declares (by decide)).vars _ _ v), alike.methods, alike.constructor⟩
      unfold Environment.declareVariable?
      simp only
      rw [like.fieldTaken]
      split
      · exact .none
      · generalize env.scopes.modifyClass? _ = found, other.scopes.modifyClass? _ = found'
          at declared
        cases declared with
        | none => exact .none
        | some declared => exact .some (like.withScopes declared)

-- The end of a definition, once its type and its value have been read.
theorem Like.define {placement : Placement} (declares : placement ≠ .inBlock → σ.Declares)
    (mods : LeadingModifiers) (typeToken name valueToken : Token) (declared : Option Datatype)
    (value : Option Typed) :
    Alike σ.exact (StepLike σ) (env.define placement mods typeToken name valueToken declared value)
      (other.define placement mods typeToken name valueToken declared value) := by
  refine .after _ fun type => .after _ fun _ => ?_
  rw [like.originOf]
  dsimp only
  have found := like.declareVariable? declares
    { name := name.lexeme, type, modifiers := mods.set, origin := env.originOf name
      initialized := value.isSome, value := value.map Typed.node }
  generalize env.declareVariable? placement _ = here, other.declareVariable? placement _ = there
    at found
  cases found with
  | none => exact .error fun _ => rfl
  | some found => exact .ok ⟨found⟩

theorem Like.newVariable {placement : Placement} (declares : placement ≠ .inBlock → σ.Declares)
    (mods : LeadingModifiers) (typeToken : Token) (tokens : List Token) (stop : Token) :
    Alike σ.exact (StepLike σ) (env.newVariable placement mods typeToken tokens stop)
      (other.newVariable placement mods typeToken tokens stop) := by
  unfold Environment.newVariable
  cases mods.first? (· = .nat) with
  | some t => exact .error fun _ => rfl
  | none =>
      refine .after _ fun name => .after _ fun initial => ?_
      simp only [Checked.ok_bind]
      have ends (valueToken : Token) := like.define declares mods typeToken name valueToken
      cases initial with
      | none =>
          split
          · exact ends _ none none
          · exact (like.resolveDatatype typeToken _).andThen fun type => ends _ (some type) none
      | some initial =>
          have valued (valueToken : Token) (declared : Option Datatype) :=
            (like.expression initial.2 initial.1).andThen fun e =>
              ends valueToken declared (some e)
          split
          · exact valued _ none
          · exact (like.resolveDatatype typeToken _).andThen fun type => valued _ (some type)

theorem Like.knownVariable (placement : Placement) (mods : LeadingModifiers) (typeToken : Token)
    (tokens : List Token) :
    other.knownVariable placement mods typeToken tokens =
      env.knownVariable placement mods typeToken tokens := by
  have member (name : String) : Option.Rel (fun v w : Variable => w.type = v.type ∧ w.value = v.value)
      (env.findMember? placement name) (other.findMember? placement name) := by
    have fits {o : Owner} {t u : SymbolTable Variable} (tables : SymbolTable.Like (σ.vars o) t u) :
        Option.Rel (fun v w : Variable => w.type = v.type ∧ w.value = v.value) (t.find? name)
          (u.find? name) := by
      have related := tables name
      generalize t.find? name = v, u.find? name = w at related
      cases related with
      | none => exact .none
      | some related =>
          have same := (σ.vars_same related).1
          exact .some ⟨by rw [same], by rw [same]⟩
    have global := fits (like.globals env.currentModule)
    rw [← like.currentModule] at global
    cases placement with
    | field =>
        have around := ScopeStack.class?_like like.scopes.scopes
        simp only [Environment.findMember?]
        generalize env.scopes.class? = found, other.scopes.class? = found' at around
        cases around with
        | none => exact .none
        | some around =>
            obtain ⟨alike⟩ := around
            exact fits alike.fields
    | global | inBlock =>
        rw [like.currentModule] at global
        simpa only [Environment.findMember?, like.currentModule] using global
  unfold Environment.knownVariable
  cases tokens.head? with
  | none => rfl
  | some name =>
      have found := member name.lexeme
      simp only [Option.bind_eq_bind, Option.bind_some]
      generalize env.findMember? placement name.lexeme = v,
        other.findMember? placement name.lexeme = w at found
      cases found with
      | none => rfl
      | some same => simp only [Option.bind_some, same.1, same.2]

theorem Like.variableStatement {setting : Setting}
    (declares : setting.declaring = true → σ.Declares) (mods : LeadingModifiers)
    (typeToken : Token) (tokens : List Token) :
    Alike σ.exact (Accepted.Like σ) (env.variableStatement setting mods typeToken tokens)
      (other.variableStatement setting mods typeToken tokens) := by
  refine .after _ fun definition => ?_
  refine Alike.andThen (.of_eq (like.placement typeToken)) fun placement => ?_
  rw [like.knownVariable]
  split
  next new =>
    refine (like.newVariable (fun outside => declares ?_) _ _ _ _).bind ?_
    · simpa [outside] using new
    · rintro _ _ ⟨changed⟩
      exact .ok ⟨changed⟩
  next => exact .ok ⟨like⟩

theorem Like.markInitialized {v w : ResolvedVariable} (same : VariableLike σ v w) :
    (env.markInitialized v).Like σ (other.markInitialized w) := by
  rw [same.1]
  unfold Environment.markInitialized
  simp only
  split
  · exact like.withScopes (like.scopes.modifyLocal _ _)
  · exact ⟨like.modules.modifyVariable _ fun _ _ related => σ.vars_marked related, like.scopes,
      like.inLibrary⟩
  · have marked := like.scopes.modifyClass?
      (f := fun c => { c with fields := c.fields.modify v.name ({ · with initialized := true }) })
      (g := fun c => { c with fields := c.fields.modify v.name ({ · with initialized := true }) })
      fun _ _ _ alike =>
        ⟨alike.name, alike.modifiers, alike.origin,
          alike.fields.modify fun _ _ related => σ.vars_marked related, alike.methods,
          alike.constructor⟩
    generalize env.scopes.modifyClass? _ = found, other.scopes.modifyClass? _ = found' at marked
    cases marked with
    | none => exact like
    | some marked => exact like.withScopes marked

theorem Like.assign (implied : Bool) (target op : Token) (tokens : List Token) :
    Alike σ.exact (StepLike σ) (env.assign implied target op tokens)
      (other.assign implied target op tokens) := by
  refine .after _ fun _ => (like.resolveVariable target).bind fun v w same => ?_
  have marked := like.markInitialized same
  obtain ⟨same, assign, -⟩ := same
  rw [assign]
  have modifiers : w.modifiers = v.modifiers := by rw [same]
  have type : w.type = v.type := by rw [same]
  have qualified : w.qualified = v.qualified := by rw [same]
  have stored (op : Token) : Alike σ.exact Eq (env.assignedValue v op tokens)
      (other.assignedValue w op tokens) := by
    have fits (found : Datatype) : storable found w = storable found v := by
      rw [storable, type, storable]
    refine (like.expression tokens op).andThen fun value => .of_eq ?_
    simp only [type, fits]
  have stepped (binary : BinaryOperator) : Alike σ.exact Eq (stepValue v binary op tokens)
      (stepValue w binary op tokens) := by
    refine .of_eq ?_
    unfold stepValue
    rw [type]
  rw [modifiers, qualified]
  refine .after _ fun _ => .after _ fun _ => ?_
  split
  · exact (stepped _).andThen fun value => .ok ⟨marked⟩
  · exact (stepped _).andThen fun value => .ok ⟨marked⟩
  · exact (stored op).andThen fun value => .ok ⟨marked⟩

end Variables

section Control

variable (like : env.Like σ other)

include like

theorem Like.conditionNode (tokens : List Token) (place : Token) :
    Alike σ.exact Eq (env.conditionNode tokens place) (other.conditionNode tokens place) :=
  (like.expression tokens place).andThen fun _ => .of_eq rfl

theorem Like.wrappedCondition (tokens : List Token) (keyword : Token) :
    Alike σ.exact Eq (env.wrappedCondition tokens keyword)
      (other.wrappedCondition tokens keyword) := by
  unfold Environment.wrappedCondition
  cases unwrap tokens with
  | none => exact .of_eq rfl
  | some found => exact like.conditionNode found.2 found.1

theorem Like.openConditional (mods : LeadingModifiers) (kind : BlockKind) (nodeKind : NodeKind)
    (keyword : Token) (tokens : List Token) :
    Alike σ.exact (Accepted.Like σ) (env.openConditional mods kind nodeKind keyword tokens)
      (other.openConditional mods kind nodeKind keyword tokens) := by
  refine .after _ fun _ => Alike.andThen (.of_eq (like.requireBlock keyword)) fun _ => ?_
  refine .after _ fun head => (like.wrappedCondition head keyword).andThen fun condition => ?_
  exact .ok ⟨like.pushBlock kind _⟩

theorem Like.openDo (mods : LeadingModifiers) (keyword : Token) (tokens : List Token) :
    Alike σ.exact (Accepted.Like σ) (env.openDo mods keyword tokens)
      (other.openDo mods keyword tokens) := by
  refine .after _ fun _ => Alike.andThen (.of_eq (like.requireBlock keyword)) fun _ => ?_
  exact .after _ fun _ => .ok ⟨like.pushBlock .doLoop _⟩

theorem Like.loopDefinition (tokens : List Token) (keyword : Token) :
    Alike σ.exact (StepLike σ) (env.loopDefinition tokens keyword)
      (other.loopDefinition tokens keyword) := by
  refine .after _ fun ⟨mods, rest⟩ => ?_
  cases rest with
  | nil => exact .error fun _ => rfl
  | cons first rest =>
      refine .after _ fun _ => ?_
      refine (like.newVariable (fun outside => absurd rfl outside) mods first rest keyword).bind ?_
      rintro _ _ ⟨changed⟩
      exact .after _ fun _ => .ok ⟨changed⟩

theorem Like.callStep (tokens : List Token) (place : Token) :
    Alike σ.exact (StepLike σ) (env.callStep tokens place) (other.callStep tokens place) :=
  (like.expression tokens place).andThen fun _ => .after _ fun _ => .ok ⟨like⟩

theorem Like.loopStep (implied : Bool) (tokens : List Token) (keyword : Token) :
    Alike σ.exact (StepLike σ) (env.loopStep implied tokens keyword)
      (other.loopStep implied tokens keyword) := by
  match tokens with
  | [] => exact .error fun _ => rfl
  | [t] => exact like.callStep [t] t
  | target :: op :: rest =>
      simp only [Environment.loopStep]
      split
      · exact like.assign implied target op rest
      · exact like.callStep (target :: op :: rest) target

theorem Like.openFor (setting : Setting) (mods : LeadingModifiers) (keyword : Token)
    (tokens : List Token) :
    Alike σ.exact (Accepted.Like σ) (env.openFor setting mods keyword tokens)
      (other.openFor setting mods keyword tokens) := by
  refine .after _ fun _ => Alike.andThen (.of_eq (like.requireBlock keyword)) fun _ => ?_
  refine .after _ fun header => ?_
  cases unwrap header with
  | none => exact .error fun _ => rfl
  | some found =>
      simp only [Checked.ok_bind]
      refine .after _ fun head => ?_
      refine ((like.pushBlock .loopHead _).loopDefinition head.start keyword).bind ?_
      rintro _ _ ⟨defined⟩
      refine (defined.conditionNode head.condition keyword).andThen fun condition => ?_
      refine (defined.loopStep head.implied head.step keyword).bind ?_
      rintro _ _ ⟨stepped⟩
      refine .ok ⟨Like.pushBlock ?_ .forLoop _⟩
      exact ((stepped.append setting _).append setting _).append setting _

theorem Like.returnStatement (mods : LeadingModifiers) (keyword : Token) (tokens : List Token) :
    Alike σ.exact (Accepted.Like σ) (env.returnStatement mods keyword tokens)
      (other.returnStatement mods keyword tokens) := by
  refine .after _ fun _ => Alike.andThen (.of_eq (like.requireBlock keyword)) fun _ => ?_
  refine .after _ fun tokens => ?_
  have changed : (env.modifyBlock fun b => { b with returned := true, terminated := true }).Like σ
      (other.modifyBlock fun b => { b with returned := true, terminated := true }) :=
    like.modifyBlock (fun _ _ block => ⟨block.locals, block.uses, block.returnType, block.bodyOf,
      rfl, rfl, block.warned⟩) fun _ => rfl
  rw [ScopeStack.returnType?_like like.scopes.scopes]
  cases tokens with
  | nil =>
      simp only [Checked.ok_bind]
      split
      · exact .after _ fun _ => .ok ⟨changed⟩
      · exact .ok ⟨changed⟩
  | cons first rest =>
      refine (like.expression (first :: rest) keyword).andThen fun e => ?_
      simp only [Checked.ok_bind]
      split
      · exact .after _ fun _ => .ok ⟨changed⟩
      · exact .ok ⟨changed⟩

theorem Like.loopExit (mods : LeadingModifiers) (nodeKind : NodeKind) (keyword : Token)
    (tokens : List Token) :
    Alike σ.exact (Accepted.Like σ) (env.loopExit mods nodeKind keyword tokens)
      (other.loopExit mods nodeKind keyword tokens) := by
  refine .after _ fun _ => Alike.andThen (.of_eq (like.requireBlock keyword)) fun _ => ?_
  refine .after _ fun _ => ?_
  rw [ScopeStack.inLoop_like like.scopes.scopes]
  refine .after _ fun _ => .ok ⟨like.modifyBlock (fun _ _ block => ?_) fun _ => rfl⟩
  exact ⟨block.locals, block.uses, block.returnType, block.bodyOf, block.returned, rfl, block.warned⟩

theorem Like.use (id : ModuleId) :
    ({ env with scopes := (env.scopes.addUse? id).getD env.scopes } : Environment).Like σ
      { other with scopes := (other.scopes.addUse? id).getD other.scopes } := by
  have added := like.scopes.addUse? id
  generalize env.scopes.addUse? id = found, other.scopes.addUse? id = found' at added
  cases added with
  | none => exact like
  | some added => exact like.withScopes added

theorem Like.useStatement (mods : LeadingModifiers) (keyword : Token) (tokens : List Token) :
    Alike σ.exact (Accepted.Like σ) (env.useStatement mods keyword tokens)
      (other.useStatement mods keyword tokens) := by
  refine .after _ fun _ => Alike.andThen (.of_eq (like.requireBlock keyword)) fun _ => ?_
  cases tokens with
  | nil => exact .error fun _ => rfl
  | cons t later =>
      simp only
      split
      · refine .after _ fun path => .after _ fun _ => ?_
        rw [like.resolveModule]
        cases env.resolveModule path.lexeme with
        | none => exact .error fun _ => rfl
        | some id =>
            simp only
            rw [like.modules.path]
            exact .ok ⟨like.use id⟩
      · exact .error fun _ => rfl

theorem Like.endLibrary (mods : LeadingModifiers) (keyword : Token) (tokens : List Token) :
    Alike σ.exact (Accepted.Like σ) (env.endLibrary mods keyword tokens)
      (other.endLibrary mods keyword tokens) := by
  refine .after _ fun _ => .after _ fun _ => ?_
  rw [like.inLibrary, ScopeStack.depth_like like.scopes.scopes]
  exact .after _ fun _ => .ok ⟨like.modules, like.scopes, rfl⟩

theorem Like.callStatement (mods : LeadingModifiers) (first : Token) (tokens : List Token) :
    Alike σ.exact (Accepted.Like σ) (env.callStatement mods first tokens)
      (other.callStatement mods first tokens) := by
  refine .after _ fun _ => Alike.andThen (.of_eq (like.requireBlock first)) fun _ => ?_
  refine .after _ fun call => (like.expression call first).andThen fun e => ?_
  exact .after _ fun _ => .ok ⟨like⟩

theorem Like.assignment (mods : LeadingModifiers) (target op : Token) (tokens : List Token) :
    Alike σ.exact (Accepted.Like σ) (env.assignment mods target op tokens)
      (other.assignment mods target op tokens) := by
  refine .after _ fun _ => Alike.andThen (.of_eq (like.requireBlock target)) fun _ => ?_
  refine .after _ fun value => (like.assign false target op value).bind ?_
  rintro _ _ ⟨changed⟩
  exact .ok ⟨changed⟩

theorem Like.nameStatement {setting : Setting} (declares : setting.declaring = true → σ.Declares)
    (mods : LeadingModifiers) (first : Token) (tokens : List Token) :
    Alike σ.exact (Accepted.Like σ) (env.nameStatement setting mods first tokens)
      (other.nameStatement setting mods first tokens) := by
  cases tokens with
  | nil => exact .error fun _ => rfl
  | cons second rest =>
      simp only [Environment.nameStatement]
      split
      · exact like.variableStatement declares mods first (second :: rest)
      · exact like.callStatement mods first (second :: rest)
      · split
        · exact like.assignment mods first second rest
        · exact .error fun _ => rfl

end Control

end Environment

end MiLanguage
