import MiLanguage.Proofs.Likeness.Statement

set_option autoImplicit false

namespace MiLanguage

variable {σ : Slack} {env other : Environment}

section Headers

variable (like : env.Like σ other)

include like

theorem Parameter.read_like (others : List ReadParameter) (place : Token) (part : List Token) :
    Alike σ.exact Eq (Parameter.read env others place part)
      (Parameter.read other others place part) := by
  cases part with
  | nil => exact .of_eq rfl
  | cons first part =>
      refine .after _ fun _ => .after _ fun ⟨mods, rest⟩ => ?_
      cases rest with
      | nil => exact .of_eq rfl
      | cons t rest =>
          refine .after _ fun ⟨typeToken, rest⟩ => .after _ fun _ => ?_
          exact (like.resolveDatatype typeToken _).andThen fun _ => .of_eq rfl

theorem Parameter.readAll_like (place : Token) (read : List ReadParameter)
    (parts : List (List Token)) :
    Alike σ.exact Eq (Parameter.readAll env place read parts)
      (Parameter.readAll other place read parts) := by
  induction parts generalizing read with
  | nil => exact .of_eq rfl
  | cons part parts ih => exact (Parameter.read_like like read place part).andThen fun p => ih _

theorem Parameter.readList_like (tokens : List Token) :
    Alike σ.exact Eq (Parameter.readList env tokens) (Parameter.readList other tokens) := by
  cases tokens with
  | nil => exact .of_eq rfl
  | cons opening rest =>
      simp only [Parameter.readList]
      split
      · split
        · exact .of_eq rfl
        · exact .of_eq rfl
        · exact (Parameter.readAll_like like _ _ _).andThen fun _ => .of_eq rfl
      · exact .of_eq rfl

theorem Header.readReturn_like (mods : LeadingModifiers) (tokens : List Token) (last : Token) :
    Alike σ.exact Eq (Header.readReturn env mods tokens last)
      (Header.readReturn other mods tokens last) := by
  match tokens with
  | [] => exact .of_eq rfl
  | [t] => exact .of_eq rfl
  | t :: name :: rest =>
      simp only [Header.readReturn]
      split
      · exact .of_eq rfl
      · split
        · exact .of_eq rfl
        · exact (like.resolveDatatype name _).andThen fun _ => .of_eq rfl
      · exact .of_eq rfl
      · exact .of_eq rfl
      · exact .of_eq rfl
      · exact .of_eq rfl

theorem Header.read_like (mods : LeadingModifiers) (keyword : Token) (tokens : List Token) :
    Alike σ.exact Eq (Header.read env mods keyword tokens)
      (Header.read other mods keyword tokens) := by
  refine .after _ fun name => (Header.readReturn_like like mods _ _).andThen fun found => ?_
  exact (Parameter.readList_like like _).andThen fun _ => .of_eq rfl

end Headers

namespace Environment

section Places

variable (like : env.Like σ other)

include like

theorem Like.requireTypePlace (keyword : Token) (plural title : String) :
    other.requireTypePlace keyword plural title = env.requireTypePlace keyword plural title := by
  have frame := like.frame
  unfold Environment.requireTypePlace
  rw [like.inLibrary]
  generalize env.frame = f, other.frame = g at frame
  cases frame <;> rfl

theorem Like.requireFunctionPlace (keyword : Token) :
    other.requireFunctionPlace keyword = env.requireFunctionPlace keyword := by
  have frame := like.frame
  unfold Environment.requireFunctionPlace
  rw [like.inLibrary]
  generalize env.frame = f, other.frame = g at frame
  cases frame <;> rfl

theorem Like.requireFreeName (name : Token) :
    other.requireFreeName name = env.requireFreeName name := by
  rw [Environment.requireFreeName, like.currentModule, like.modules.nameTaken,
    Environment.requireFreeName]

theorem Like.owner : other.owner = env.owner := by
  have frame := like.frame
  unfold Environment.owner
  rw [like.currentModule]
  generalize env.frame = f, other.frame = g at frame
  cases frame with
  | «class» related => simp only [related.name]
  | _ => rfl

end Places

section Opening

variable {setting : Setting} (like : env.Like σ other)

include like

theorem Like.openModule (mods : LeadingModifiers) (keyword : Token) (tokens : List Token) :
    Alike σ.exact (Accepted.Like σ) (env.openModule setting mods keyword tokens)
      (other.openModule setting mods keyword tokens) := by
  refine .after _ fun _ => ?_
  have frame := like.frame
  generalize env.frame = f, other.frame = g at frame
  cases frame with
  | parent | module =>
      refine .after _ fun name => .after _ fun _ => ?_
      dsimp only
      split
      · obtain ⟨id, modules⟩ := like.modules.addChild env.currentModule name.lexeme
        rw [like.currentModule, id]
        have grown : ({ env with
              modules := (env.modules.addChild env.currentModule name.lexeme).2 } :
              Environment).Like σ
            { other with modules := (other.modules.addChild env.currentModule name.lexeme).2 } :=
          ⟨modules, like.scopes, like.inLibrary⟩
        exact .ok ⟨grown.push (.module _) _⟩
      · rw [like.currentModule, like.modules.child?]
        split
        · exact .ok ⟨like.push (.module _) _⟩
        · exact .error fun _ => rfl
  | «class» | enum | block => exact .error fun _ => rfl

theorem Like.openClass (mods : LeadingModifiers) (keyword : Token) (tokens : List Token) :
    Alike σ.exact (Accepted.Like σ) (env.openClass setting mods keyword tokens)
      (other.openClass setting mods keyword tokens) := by
  refine .after _ fun _ => Alike.andThen (.of_eq (like.requireTypePlace keyword _ _)) fun _ => ?_
  refine .after _ fun name => .after _ fun _ => ?_
  dsimp only
  rw [like.currentModule]
  split
  next declaring =>
    refine Alike.andThen (.of_eq (like.requireFreeName name)) fun _ => ?_
    rw [like.originOf]
    have fresh (c : ClassDeclaration) (fields : c.fields = .empty) (methods : c.methods = .empty)
        (constructor : c.constructor = none) : c.Like σ (.inClass env.currentModule c.name) c := by
      refine ⟨rfl, rfl, rfl, ?_, fun name => ?_, ?_⟩
      · rw [fields]
        exact SymbolTable.like_refl _ fun _ _ found => by cases found
      · rw [methods]
        exact σ.overloads_none _ _
      · rw [constructor]
        exact .none
    have opened := fresh
      { name := name.lexeme, modifiers := mods.set, origin := env.originOf name } rfl rfl rfl
    have grown : ({ env with
          modules := env.modules.insertClass env.currentModule
            { name := name.lexeme, modifiers := mods.set, origin := env.originOf name } } :
          Environment).Like σ
        { other with
          modules := other.modules.insertClass env.currentModule
            { name := name.lexeme, modifiers := mods.set, origin := env.originOf name } } :=
      ⟨like.modules.insertClass opened, like.scopes, like.inLibrary⟩
    exact .ok ⟨grown.push (.class opened) _⟩
  next =>
    have found := like.classes env.currentModule name.lexeme
    generalize SymbolTable.find? (env.modules.get _).members.classes name.lexeme = c,
      SymbolTable.find? (other.modules.get _).members.classes name.lexeme = d at found
    cases found with
    | none => exact .ok ⟨like⟩
    | some found =>
        obtain ⟨named, related⟩ := found
        exact .ok ⟨like.push (.class (by rw [named]; exact related)) _⟩

theorem Like.openEnum (mods : LeadingModifiers) (keyword : Token) (tokens : List Token) :
    Alike σ.exact (Accepted.Like σ) (env.openEnum setting mods keyword tokens)
      (other.openEnum setting mods keyword tokens) := by
  refine .after _ fun _ => Alike.andThen (.of_eq (like.requireTypePlace keyword _ _)) fun _ => ?_
  refine .after _ fun name => .after _ fun _ => ?_
  dsimp only
  rw [like.currentModule]
  split
  · refine Alike.andThen (.of_eq (like.requireFreeName name)) fun _ => ?_
    rw [like.originOf]
    have grown (e : EnumDeclaration) : ({ env with
          modules := env.modules.insertEnum env.currentModule e } : Environment).Like σ
        { other with modules := other.modules.insertEnum env.currentModule e } :=
      ⟨like.modules.insertEnum env.currentModule e, like.scopes, like.inLibrary⟩
    exact .ok ⟨(grown _).push (.enum _ _) _⟩
  · rw [(like.modules.members env.currentModule).enums]
    split
    · exact .ok ⟨like.push (.enum _ _) _⟩
    · exact .ok ⟨like⟩

-- The frame of the current scope is replaced.
theorem Like.reframe {frame frame' : Frame} (frames : frame.Like σ frame')
    (plain : frame.isFunction = false) :
    ({ env with scopes := env.scopes.modifyCurrent ({ · with frame := frame }) } :
      Environment).Like σ
      { other with scopes := other.scopes.modifyCurrent ({ · with frame := frame' }) } :=
  like.withScopes (like.scopes.modifyCurrent (fun _ _ scope => ⟨frames, scope.discard⟩)
    (fun _ _ same => same) (fun _ _ nodes => nodes) fun _ _ b _ block => by
      have same : frame = .block .function b := block
      rw [same] at plain
      cases plain)

end Opening

section Functions

theorem modifyClass?_congr {s : ScopeStack} {f g : ClassDeclaration → ClassDeclaration}
    (same : ∀ id c, s.class? = some (id, c) → f c = g c) : s.modifyClass? f = s.modifyClass? g := by
  have around : ∀ id c, s.opened.findSome? (·.frame.class?) = some (id, c) → f c = g c := by
    intro id c found
    refine same id c ?_
    rw [ScopeStack.class?, ScopeStack.all, List.findSome?_append, found]
    rfl
  refine congrArg (Option.map fun opened => { s with opened }) ?_
  generalize s.opened = scopes at around
  induction scopes with
  | nil => rfl
  | cons scope scopes ih =>
      unfold ScopeStack.modifyFirst
      rw [List.findSome?_cons] at around
      generalize scope.frame = frame at around
      cases frame with
      | «class» id c => simp only [around id c rfl]
      | _ => exact congrArg (Option.map (scope :: ·)) (ih around)

variable (like : env.Like σ other)

include like

theorem Like.addFunction? (declares : σ.Declares) (f : FunctionDefinition) :
    Option.Rel (Environment.Like σ) (env.addFunction? f) (other.addFunction? f) := by
  unfold Environment.addFunction?
  cases f.owner with
  | module id =>
      have added := like.modules.addFunction? declares id f
      simp only
      generalize env.modules.addFunction? id f = t, other.modules.addFunction? id f = u at added
      cases added with
      | none => exact .none
      | some added => exact .some ⟨added, like.scopes, like.inLibrary⟩
  | inClass id name =>
      have around := ScopeStack.class?_like like.scopes.scopes
      -- The innermost class is the one that takes the method.
      have changed := like.scopes.modifyClass?
        (f := fun c => { c with methods := (c.methods.add? f).getD c.methods })
        (g := fun c => { c with methods := (c.methods.add? f).getD c.methods })
        fun id c d related => by
          refine ⟨related.name, related.modifiers, related.origin, related.fields, ?_,
            related.constructor⟩
          have added := related.methods.add? declares f
          show ((c.methods.add? f).getD c.methods).Like σ (.inClass id c.name)
            ((d.methods.add? f).getD d.methods)
          generalize c.methods.add? f = t, d.methods.add? f = u at added
          cases added with
          | none => exact related.methods
          | some added => exact added
      cases mine : env.scopes.class? with
      | none =>
          cases theirs : other.scopes.class? with
          | none => exact .none
          | some => rw [mine, theirs] at around; cases around
      | some found =>
          cases theirs : other.scopes.class? with
          | none => rw [mine, theirs] at around; cases around
          | some found' =>
              rw [mine, theirs] at around
              obtain ⟨id, c⟩ := found
              obtain ⟨id', d⟩ := found'
              have related : c.Like σ (.inClass id c.name) d := by
                cases around with
                | some around => cases around; assumption
              have added := related.methods.add? declares f
              simp only [Option.bind_eq_bind]
              cases grown : c.methods.add? f with
              | none =>
                  cases grown' : d.methods.add? f with
                  | none => exact .none
                  | some => rw [grown, grown'] at added; cases added
              | some methods =>
                  cases grown' : d.methods.add? f with
                  | none => rw [grown, grown'] at added; cases added
                  | some methods' =>
                      simp only [Option.bind_some]
                      rw [modifyClass?_congr (s := env.scopes)
                          (g := fun c => { c with methods := (c.methods.add? f).getD c.methods })
                          fun id' c' same => by
                            rw [mine] at same
                            cases same
                            simp [grown],
                        modifyClass?_congr (s := other.scopes)
                          (g := fun c => { c with methods := (c.methods.add? f).getD c.methods })
                          fun id' c' same => by
                            rw [theirs] at same
                            cases same
                            simp [grown']]
                      generalize env.scopes.modifyClass? _ = s, other.scopes.modifyClass? _ = t
                        at changed
                      cases changed with
                      | none => exact .none
                      | some changed => exact .some (like.withScopes changed)

theorem Like.declareFunction (declares : σ.Declares) (mods : LeadingModifiers) (h : Header)
    (body : FunctionBody) :
    Alike σ.exact (Accepted.Like σ) (env.declareFunction mods h body)
      (other.declareFunction mods h body) := by
  unfold Environment.declareFunction
  rw [like.owner]
  dsimp only
  have added := like.addFunction? declares
    { name := h.name.lexeme, returnType := h.returnType, parameters := h.params
      modifiers := mods.set, owner := env.owner, fileId := h.name.span.fileId
      line := h.name.streamLine, body }
  generalize env.addFunction? _ = here, other.addFunction? _ = there at added
  cases added with
  | none => exact .error fun _ => rfl
  | some added => exact .ok ⟨added⟩

theorem Like.openBody (type : Datatype) (owner : BodyOwner) (parameters : List FunctionParameter)
    (place : Token) (node : Node) :
    (env.openBody type owner parameters place node).Like σ
      (other.openBody type owner parameters place node) := by
  have opened := like.push (.block (Block.like_refl
    { Block.function type with bodyOf := some owner }) : Frame.Like σ (.block .function _) _) node
  simp only [Environment.openBody]
  generalize env.push _ node = inner, other.push _ node = inner' at opened
  induction parameters generalizing inner inner' with
  | nil => exact opened
  | cons p parameters ih =>
      rw [List.foldl_cons, List.foldl_cons]
      refine ih _ _ ?_
      rw [opened.originOf]
      have declared := opened.scopes.declareLocal?
        { name := p.name, type := p.type, modifiers := p.modifiers, origin := inner.originOf place
          initialized := true }
      generalize inner.scopes.declareLocal? _ = s, inner'.scopes.declareLocal? _ = t at declared
      cases declared with
      | none => exact opened
      | some declared => exact opened.withScopes declared

theorem Like.function {setting : Setting} (declares : setting.declaring = true → σ.Declares)
    (mods : LeadingModifiers) (keyword : Token) (tokens : List Token) :
    Alike σ.exact (Accepted.Like σ) (env.function setting mods keyword tokens)
      (other.function setting mods keyword tokens) := by
  refine .after _ fun _ => Alike.andThen (.of_eq (like.requireFunctionPlace keyword)) fun _ => ?_
  refine (Header.read_like like mods keyword tokens).andThen fun h => ?_
  dsimp only
  split
  · split
    next declaring =>
      split
      · exact like.declareFunction (declares declaring) mods h _
      · exact .error fun _ => rfl
    next => exact .ok ⟨like⟩
  · split
    next declaring => exact like.declareFunction (declares declaring) mods h _
    next =>
      rw [like.owner]
      exact .ok ⟨like.openBody _ _ _ _ _⟩

theorem Like.constructor {setting : Setting} (declares : setting.declaring = true → σ.Declares)
    (mods : LeadingModifiers) (keyword : Token) (tokens : List Token) :
    Alike σ.exact (Accepted.Like σ) (env.constructor setting mods keyword tokens)
      (other.constructor setting mods keyword tokens) := by
  have frame := like.frame
  unfold Environment.constructor
  generalize env.frame = f, other.frame = g at frame
  cases frame with
  | «class» related =>
      refine .after _ fun _ => (Parameter.readList_like like tokens).andThen fun read => ?_
      refine .after _ fun _ => ?_
      dsimp only
      rw [related.name]
      split
      next declaring =>
        have absent {f g : Option FunctionDefinition} {R : FunctionDefinition → FunctionDefinition → Prop}
            (both : Option.Rel R f g) : g.isNone = f.isNone := by
          cases both <;> rfl
        rw [absent related.constructor]
        refine .after _ fun _ => .ok ⟨like.reframe (.class ?_) rfl⟩
        exact ⟨rfl, related.modifiers, related.origin, related.fields, related.methods,
          .some ((declares declaring).constructors _ _)⟩
      next => exact .ok ⟨like.openBody _ _ _ _ _⟩
  | parent | module | enum | block => exact .error fun _ => rfl

end Functions

end Environment

/-- What a statement leaves in two runs. -/
structure Outcome.Like (σ : Slack) (o p : Outcome) : Prop where
  environment : o.environment.Like σ p.environment
  result : Alike σ.exact Eq o.result p.result

theorem Outcome.like_ofChecked (like : env.Like σ other) {x y : Checked Accepted}
    (alike : Alike σ.exact (Accepted.Like σ) x y) :
    (Outcome.ofChecked env x).Like σ (Outcome.ofChecked other y) := by
  cases alike with
  | ok accepted =>
      obtain ⟨changed⟩ := accepted
      exact ⟨changed, .ok rfl⟩
  | error same => exact ⟨like, .error same⟩

namespace Environment

section Statements

variable {setting : Setting} (like : env.Like σ other)
  (declares : setting.declaring = true → σ.Declares)

include like

theorem Like.declareMembers (id : ModuleId) (e : EnumDeclaration) (mods : LeadingModifiers)
    (first : Token) (tokens : List Token) :
    Outcome.Like σ
      ⟨(env.declareMembers setting id e mods first tokens).1,
        (env.declareMembers setting id e mods first tokens).2⟩
      ⟨(other.declareMembers setting id e mods first tokens).1,
        (other.declareMembers setting id e mods first tokens).2⟩ := by
  unfold Environment.declareMembers
  cases readMembers mods first tokens with
  | error report => exact ⟨like, .error fun _ => rfl⟩
  | ok names =>
      dsimp only
      split
      · split
        · have changed := like.reframe (.enum id (addMembers e names).1) rfl
          cases (addMembers e names).2 with
          | none => exact ⟨changed, .ok rfl⟩
          | some name => exact ⟨changed, .error fun _ => rfl⟩
        · exact ⟨like, .error fun _ => rfl⟩
      · exact ⟨like, .ok rfl⟩

include declares

theorem Like.read (mods : LeadingModifiers) (first : Token) (rest : List Token) :
    Alike σ.exact (Accepted.Like σ) (env.read setting mods first rest)
      (other.read setting mods first rest) := by
  unfold Environment.read
  split
  · exact like.openModule mods first rest
  · exact like.openClass mods first rest
  · exact like.openEnum mods first rest
  · exact like.function declares mods first rest
  · exact like.constructor declares mods first rest
  · exact like.openConditional mods _ _ first rest
  · exact like.openConditional mods _ _ first rest
  · exact like.openDo mods first rest
  · exact like.openFor setting mods first rest
  · exact like.returnStatement mods first rest
  · exact like.loopExit mods _ first rest
  · exact like.loopExit mods _ first rest
  · exact like.useStatement mods first rest
  · exact like.endLibrary mods first rest
  · exact like.variableStatement declares mods first rest
  · exact like.nameStatement declares mods first rest
  · split
    · exact like.variableStatement declares mods first rest
    · exact .error fun _ => rfl

theorem Like.dispatch (mods : LeadingModifiers) (first : Token) (rest : List Token) :
    (env.dispatch setting mods first rest).Like σ (other.dispatch setting mods first rest) := by
  have read := Outcome.like_ofChecked like (like.read declares mods first rest)
  have frame := like.frame
  unfold Environment.dispatch
  generalize first.kind = kind, env.frame = f, other.frame = g at frame
  cases frame with
  | enum id e =>
      cases kind with
      | identifier => exact like.declareMembers id e mods first rest
      | _ => exact read
  | parent | module | «class» | block => cases kind <;> exact read

theorem Like.statement (first : Token) (rest : List Token) :
    (env.statement setting first rest).Like σ (other.statement setting first rest) := by
  unfold Environment.statement
  cases LeadingModifiers.read (first :: rest) with
  | error report => exact ⟨like, .error fun _ => rfl⟩
  | ok found =>
      obtain ⟨mods, tokens⟩ := found
      cases tokens with
      | nil => exact ⟨like, .error fun _ => rfl⟩
      | cons head rest => exact like.dispatch declares mods head rest

end Statements

end Environment

end MiLanguage
