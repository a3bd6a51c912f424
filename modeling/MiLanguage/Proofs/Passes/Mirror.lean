import MiLanguage.Proofs.Passes.Lockstep

set_option autoImplicit false

namespace MiLanguage

theorem Titled.unique {rest : List Token} {name name' : Token} (titled : Titled rest name)
    (titled' : Titled rest name') : name' = name := by
  obtain ⟨brace, rfl, _⟩ := titled
  obtain ⟨brace', same, _⟩ := titled'
  cases same
  rfl

-- No modifier is in front of a brace that closes something.
theorem statementSort_of_rightBrace {brace head : Token} {rest tail : List Token}
    {mods : LeadingModifiers} (kind : brace.kind = .rightBrace)
    (read : LeadingModifiers.read (brace :: rest) = .ok (mods, head :: tail)) :
    statementSort head tail ≠ .body := by
  obtain ⟨same, modifiers, _⟩ := LeadingModifiers.read_append read
  cases tokens : mods.tokens with
  | nil =>
      rw [tokens] at same
      cases same
      simp [statementSort, kind]
  | cons first more =>
      rw [tokens] at same
      cases same
      have modifier := modifiers brace (by simp [tokens])
      rw [kind] at modifier
      cases modifier

/-- What the first pass has declared is still there when the second one comes by. -/
structure Known (modules declared now : ModuleTree) : Prop where
  proper : modules.Proper
  kept : declared.Extends modules
  filled : modules.Fills now

namespace Known

variable {modules declared now : ModuleTree} {id : ModuleId} {name : String}

theorem child? (known : Known modules declared now) {child child' : ModuleId}
    (first : declared.child? id name = some child) (second : now.child? id name = some child') :
    child' = child := by
  rw [known.filled.children, known.kept.children _ _ _ first] at second
  exact (Option.some.inj second).symm

theorem class? (known : Known modules declared now)
    (first : (declared.class? id name).isSome = true) : (now.class? id name).isSome = true := by
  rw [known.filled.classes]
  exact known.kept.classes _ _ first

theorem enum? (known : Known modules declared now)
    (first : (declared.enum? id name).isSome = true) : (now.enum? id name).isSome = true := by
  rw [known.filled.enums]
  exact known.kept.enums _ _ first

end Known

-- In the same place, and but for bodies, the two passes open the same.
theorem Environment.Declaring.matches {env after env' after' : Environment} {modules : ModuleTree}
    {mods : LeadingModifiers} {head : Token} {tail : List Token} {sort : StatementSort}
    (declaring : env.Declaring mods head tail after sort)
    (entering : env'.Entering mods head tail after' sort) (header : sort ≠ .body)
    (outside : Title.Outside env.titles) (titles : env'.titles = env.titles)
    (known : Known modules after.declared env'.modules) :
    after'.titles = after.titles ∧ after'.modules = env'.modules ∧
      (Ends head tail .semicolon ∨ after'.titles.length ≠ env'.titles.length) ∧
      ∃ added, env.declared.Declares after.declared added ∧
        ∀ o d, added = some (o, d) → d.isNative = true := by
  have outside' : Title.Outside env'.titles := by rwa [titles]
  have place : env'.currentModule = env.currentModule := by
    rw [currentModule_eq outside, currentModule_eq outside', titles]
  cases declaring with
  | module titled _ opens child declares =>
      cases entering with
      | module titled' child' opens' same =>
          cases titled.unique titled'
          rw [place] at child'
          cases known.child? child child'
          exact ⟨by rw [opens, opens', titles], same, .inr (by simp [opens']), _, declares, by simp⟩
  | «class» titled _ opens found declares =>
      have there := known.class? found
      cases entering with
      | «class» titled' found' opens' same =>
          cases titled.unique titled'
          have name := ((known.filled.proper known.proper).classes _ _ _ found').1
          exact ⟨by rw [opens, opens', titles, place, name], same, .inr (by simp [opens']), _,
            declares, by simp⟩
      | classMissing titled' missing =>
          cases titled.unique titled'
          rw [place] at missing
          rw [missing] at there
          cases there
  | enum titled _ opens found declares =>
      have there := known.enum? found
      cases entering with
      | enum titled' opens' same =>
          exact ⟨by rw [opens, opens', titles, place], same, .inr (by simp [opens']), _, declares,
            by simp⟩
      | enumMissing titled' missing =>
          cases titled.unique titled'
          rw [place] at missing
          rw [missing] at there
          cases there
  | body => exact absurd rfl header
  | native native ends stays declares =>
      cases entering with
      | native _ stays' same =>
          refine ⟨by rw [stays, stays', titles], same, .inl ends, _, declares, ?_⟩
          intro o d added
          cases added
          exact native
  | other ends stays declares =>
      cases entering with
      | other _ stays' same =>
          exact ⟨by rw [stays, stays', titles], same, .inl ends, _, declares, by simp⟩

namespace AnalysisState

variable {s s' t u last : AnalysisState} {modules : ModuleTree}

/-- The two passes have come to the same place outside of bodies. -/
structure Mirror (s t : AnalysisState) : Prop where
  declaring : s.declaring = true
  entering : t.declaring = false
  remaining : t.remaining = s.remaining
  titles : t.environment.titles = s.environment.titles
  idle : s.pendingDo = none ∧ t.pendingDo = none
  outer : s.environment.Outer

-- The next statement is a function with a body.
def AtBody (s : AnalysisState) : Prop :=
  ∃ first rest later mods head tail, s.Takes first rest later ∧
    LeadingModifiers.read (first :: rest) = .ok (mods, head :: tail) ∧
    statementSort head tail = .body

/-- While the first pass goes from `s` to `s'` over a function with a body and declares it, the
second one goes from `t` to `u` over its header and on to `v` over its body. -/
structure Bodies (s s' t u v : AnalysisState) (owner owner' : BodyOwner) (sig sig' : Signature)
    (d : FunctionDefinition) (body : Node) : Prop where
  heads : ∃ first rest later mods head tail, s.Takes first rest later ∧
    LeadingModifiers.read (first :: rest) = .ok (mods, head :: tail) ∧
    s.environment.Heads mods head tail owner sig ∧ t.environment.Heads mods head tail owner' sig'
  declares : s.environment.declared.Declares s'.environment.declared (some (owner, d))
  pending : d.body = .pending
  types : d.paramTypes = sig.paramTypes ∧ d.returnType = sig.returnType
  enters : CleanStep t u
  deeper : t.environment.scopes.depth < u.environment.scopes.depth
  builds : u.Builds t.environment.scopes.depth body
  records : ∀ built, u.Builds t.environment.scopes.depth built → built.Records owner' sig'
  leads : u.Leads v
  attached : ∃ before, t.environment.modules.Updated before ∧
    v.environment.modules = attachBody before body owner'

/-- How the second pass follows a step of the first one. -/
inductive Follows (s s' t v : AnalysisState) : Prop
  | step {added : Option (BodyOwner × FunctionDefinition)} :
      ¬s.AtBody → CleanStep t v → v.environment.modules = t.environment.modules →
      s.environment.declared.Declares s'.environment.declared added →
      (∀ o d, added = some (o, d) → d.isNative = true) → Follows s s' t v
  | body {u : AnalysisState} {owner owner' : BodyOwner} {sig sig' : Signature}
      {d : FunctionDefinition} {body : Node} :
      Bodies s s' t u v owner owner' sig sig' d body → Follows s s' t v

-- A body starts in the scope that its header opens.
theorem within_openBody {env : Environment} {type : Datatype} {owner : BodyOwner}
    {parameters : List FunctionParameter} {place : Token} {n : Node} {beyond : List Token}
    (opened : u.environment = env.openBody type owner parameters place n)
    (skip : Chunk.skipBlock 0 u.remaining = some beyond) :
    Within env.scopes.all env.modules owner n beyond u := by
  have updated := env.updated_openBody type owner parameters place n
  rw [← opened] at updated
  refine ⟨⟨0, ?_, skip⟩, updated.modules⟩
  refine Environment.Inside.updated ?_ updated
  exact .body rfl rfl rfl n.grown_refl (List.forall₂_same.mpr fun scope _ => scope.updated_refl)

theorem Moves.mirror (moves : s.Moves s') (mirror : s.Mirror t) : s'.declaring = true ∧
    s'.pendingDo = none ∧ s'.environment.Outer := by
  obtain ⟨turn, idle⟩ := moves.declaringTurn mirror.declaring mirror.idle.1 mirror.outer
  exact ⟨moves.declaring.trans mirror.declaring, idle, (turn.declares mirror.outer).1⟩

-- Where the first pass has no body, both take one step.
theorem Mirror.step (mirror : s.Mirror t) (first : CleanStep s s') (second : CleanStep t u)
    (known : Known modules s'.environment.declared t.environment.modules) (header : ¬s.AtBody) :
    s.Follows s' t u ∧ s'.Mirror u := by
  obtain ⟨turn, _⟩ := first.moves.declaringTurn mirror.declaring mirror.idle.1 mirror.outer
  obtain ⟨declaring, idle, outer⟩ := first.moves.mirror mirror
  have outside : Title.Outside t.environment.titles := by
    rw [mirror.titles]
    exact mirror.outer.outside
  obtain ⟨turn', idle'⟩ := second.moves.enteringTurn mirror.entering mirror.idle.2 outside
  have entering := second.moves.declaring.trans mirror.entering
  have stray : ∀ {a b : AnalysisState} {brace first : Token} {rest later more : List Token},
      a.Takes first rest later → first.kind ≠ .rightBrace → b.remaining = brace :: more →
      brace.kind = .rightBrace → a.remaining ≠ b.remaining := by
    intro a b brace first rest later more takes notClosing remaining kind same
    rw [takes.split.1, remaining] at same
    cases same
    exact notClosing kind
  cases turn with
  | closes remaining kind titles declared =>
      cases turn' with
      | closes remaining' _ titles' modules =>
          have same := mirror.remaining
          rw [remaining, remaining'] at same
          have below := mirror.titles
          rw [titles, titles'] at below
          have declares : s.environment.declared.Declares s'.environment.declared none := by
            rw [declared]
            exact ModuleTree.declares_refl mirror.outer.proper
          exact ⟨.step header second modules declares (by simp),
            ⟨declaring, entering, List.tail_eq_of_cons_eq same, List.tail_eq_of_cons_eq below,
              ⟨idle, idle'⟩, outer⟩⟩
      | reads takes notClosing => exact absurd mirror.remaining (stray takes notClosing remaining kind)
  | reads takes notClosing read declares body =>
      cases turn' with
      | closes remaining kind => exact absurd mirror.remaining.symm (stray takes notClosing remaining kind)
      | reads takes' _ read' enters stands =>
          obtain ⟨rfl, rfl, rfl⟩ := takes.unique takes' mirror.remaining
          rw [read] at read'
          cases read'
          obtain ⟨titles, modules, ends, added, declares, native⟩ :=
            declares.matches enters body mirror.outer.outside mirror.titles known
          rw [Environment.length_titles, Environment.length_titles] at ends
          exact ⟨.step header second modules declares native,
            ⟨declaring, entering, stands ends, titles, ⟨idle, idle'⟩, outer⟩⟩
  | skips takes _ read _ body => exact absurd ⟨_, _, _, _, _, _, takes, read, body⟩ header

theorem DeclaringTurn.at_body (turn : s.DeclaringTurn s') (header : s.AtBody) :
    ∃ first rest later mods head tail, s.Takes first rest later ∧
      LeadingModifiers.read (first :: rest) = .ok (mods, head :: tail) ∧
      statementSort head tail = .body ∧
      s.environment.Declaring mods head tail s'.environment .body ∧
      Chunk.skipBlock 0 later = some s'.remaining := by
  obtain ⟨first, rest, later, mods, head, tail, takes, read, sort⟩ := header
  cases turn with
  | closes remaining kind =>
      have same := takes.split.1
      rw [remaining] at same
      obtain rfl := (List.cons.inj same).1
      exact absurd sort (statementSort_of_rightBrace kind read)
  | reads takes' _ read' _ body =>
      obtain ⟨rfl, rfl, _⟩ := takes.unique takes' rfl
      rw [read] at read'
      cases read'
      exact absurd sort body
  | skips takes' _ read' declares _ skip =>
      obtain ⟨rfl, rfl, rfl⟩ := takes.unique takes' rfl
      rw [read] at read'
      cases read'
      rw [sort] at declares
      exact ⟨_, _, _, mods, head, tail, takes, read, sort, declares, skip⟩

theorem EnteringTurn.at_body {first head : Token} {rest later tail : List Token}
    {mods : LeadingModifiers} (turn : t.EnteringTurn u) (takes : s.Takes first rest later)
    (same : t.remaining = s.remaining)
    (read : LeadingModifiers.read (first :: rest) = .ok (mods, head :: tail))
    (sort : statementSort head tail = .body) :
    t.environment.Entering mods head tail u.environment .body ∧ u.remaining = later := by
  cases turn with
  | closes remaining kind =>
      have start := takes.split.1
      rw [← same, remaining] at start
      obtain rfl := (List.cons.inj start).1
      exact absurd sort (statementSort_of_rightBrace kind read)
  | reads takes' _ read' enters stands =>
      obtain ⟨rfl, rfl, rfl⟩ := takes.unique takes' same
      rw [read] at read'
      cases read'
      rw [sort] at enters
      refine ⟨enters, stands (.inr ?_)⟩
      cases enters with
      | body _ _ opened =>
          rw [opened, Environment.depth_openBody]
          omega

-- Where the first pass skips a body, the second one reads it.
theorem Mirror.skip (mirror : s.Mirror t) (first : CleanStep s s') (second : CleanStep t u)
    (header : s.AtBody) (leads : u.Leads last) (closed : last.environment.scopes.depth ≤ 1) :
    ∃ v, s.Follows s' t v ∧ s'.Mirror v ∧ v.Leads last := by
  obtain ⟨turn, _⟩ := first.moves.declaringTurn mirror.declaring mirror.idle.1 mirror.outer
  obtain ⟨declaring, idle, outer⟩ := first.moves.mirror mirror
  have outside : Title.Outside t.environment.titles := by
    rw [mirror.titles]
    exact mirror.outer.outside
  obtain ⟨turn', _⟩ := second.moves.enteringTurn mirror.entering mirror.idle.2 outside
  have pass := second.moves.declaring.trans mirror.entering
  obtain ⟨f, rest, later, mods, head, tail, takes, read, sort, declares, skip⟩ :=
    turn.at_body header
  obtain ⟨enters, remaining⟩ := turn'.at_body takes mirror.remaining read sort
  rw [← remaining] at skip
  cases declares with
  | @body owner sig d heads _ pending types returns stays declares =>
      cases enters with
      | @body owner' sig' _ _ _ heads' records opened =>
          have within := within_openBody opened skip
          have level : t.environment.scopes.all.length = t.environment.scopes.depth := length_all _
          have base : 1 ≤ t.environment.scopes.depth := Nat.le_add_left _ _
          have deeper := within.deeper
          obtain ⟨body, x, v, builds, toward, finish, leads, finishes⟩ :=
            leads.finishes pass within (by rw [level]; omega)
          rw [level] at builds deeper
          have bodies : Bodies s s' t u v owner owner' sig sig' d body := by
            refine ⟨⟨f, rest, later, mods, head, tail, takes, read, heads, heads'⟩, declares,
              pending, ⟨types, returns⟩, second, deeper, builds, ?_, toward.tail finish,
              finishes.modules⟩
            intro built builds
            rw [← level] at builds
            exact (builds.grown pass within).records records
          have titles : v.environment.titles = s'.environment.titles := by
            rw [finishes.titles]
            exact mirror.titles.trans stays.symm
          have entering : v.declaring = false :=
            finish.moves.declaring.trans ((Leads.declaring toward).trans pass)
          exact ⟨v, .body bodies, ⟨declaring, entering, finishes.remaining, titles,
            ⟨idle, finishes.idle⟩, outer⟩, leads⟩

end AnalysisState

end MiLanguage
