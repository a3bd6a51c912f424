import MiLanguage.Proofs.Overload
import MiLanguage.Proofs.Passes.InStep
import MiLanguage.Proofs.Symbols.Apart
import MiLanguage.Proofs.Symbols.TypeHome
import MiLanguage.Proofs.Uses.Exchange

set_option autoImplicit false

namespace MiLanguage

section Lists

variable {α β : Type} {ids : List α} {f : α → Option β} {F : α → List β} {i j : α}

-- Two different members of a list have a place of their own each.
theorem exists_append_of_mem (member : i ∈ ids) (other : j ∈ ids) (apart : i ≠ j) :
    ∃ front back, ids = front ++ i :: back ∧ (j ∈ front ∨ j ∈ back) := by
  obtain ⟨front, back, rfl⟩ := List.append_of_mem member
  refine ⟨front, back, rfl, ?_⟩
  rcases List.mem_append.mp other with here | here
  · exact .inl here
  · exact .inr ((List.mem_cons.mp here).resolve_left (Ne.symm apart))

theorem two_le_length_flatMap (member : i ∈ ids) (other : j ∈ ids) (apart : i ≠ j)
    (mine : F i ≠ []) (theirs : F j ≠ []) : 2 ≤ (ids.flatMap F).length := by
  obtain ⟨front, back, rfl, here⟩ := exists_append_of_mem member other apart
  have positive (k : α) (as : List α) (nonempty : F k ≠ []) (member : k ∈ as) :
      0 < (as.flatMap F).length := by
    obtain ⟨b, found⟩ := List.exists_mem_of_ne_nil _ nonempty
    exact List.length_pos_of_mem (List.mem_flatMap.mpr ⟨k, member, found⟩)
  have one := List.length_pos_of_ne_nil mine
  simp only [List.flatMap_append, List.flatMap_cons, List.length_append]
  rcases here with here | here
  · have more := positive j front theirs here
    omega
  · have more := positive j back theirs here
    omega

end Lists

namespace Environment

variable {env : Environment} {name : String} {i j : ModuleId}

theorem lookup_ambiguous {α : Type} {table : Members → SymbolTable α} {a b : α}
    (plain : isDotted name = false) (apart : i ≠ j) (used : i ∈ env.scopes.uses)
    (used' : j ∈ env.scopes.uses)
    (declared : (table (env.modules.get i).members).find? name = some a)
    (declared' : (table (env.modules.get j).members).find? name = some b) :
    ∃ ids, env.lookup table name = .error (.ambiguous ids) ∧ i ∈ ids ∧ j ∈ ids := by
  have split : splitQualified name = none := by simp [splitQualified, plain]
  unfold Environment.lookup
  dsimp only
  rw [split]
  dsimp only
  generalize hits : env.scopes.uses.filterMap _ = found
  have mine : (i, a) ∈ found := by
    rw [← hits]
    exact List.mem_filterMap.mpr ⟨i, used, by rw [declared]; rfl⟩
  have theirs : (j, b) ∈ found := by
    rw [← hits]
    exact List.mem_filterMap.mpr ⟨j, used', by rw [declared']; rfl⟩
  cases found with
  | nil => cases mine
  | cons hit others =>
      cases others with
      | nil =>
          rw [List.mem_singleton] at mine theirs
          rw [← mine] at theirs
          exact absurd (congrArg Prod.fst theirs).symm apart
      | cons => exact ⟨_, rfl, List.mem_map_of_mem mine, List.mem_map_of_mem theirs⟩

theorem place_of_ambiguous {place : Token} {v : ResolvedVariable} {ids : List ModuleId}
    (ambiguous : env.lookup Members.globals place.lexeme = .error (.ambiguous ids))
    (resolved : env.resolveVariable place = .ok v) (id : ModuleId) : v.place ≠ .inModule id := by
  unfold Environment.resolveVariable at resolved
  simp only [Environment.lookupOrBlame, ambiguous] at resolved
  split at resolved
  next w near =>
    cases resolved
    split at near
    next => cases near
    next =>
      cases here : env.localVariable? place.lexeme with
      | some l =>
          rw [here] at near
          cases near
          obtain ⟨_, -, rfl⟩ := Option.map_eq_some_iff.mp here
          simp
      | none =>
          rw [here] at near
          have field : env.fieldVariable? place.lexeme = some v := near
          simp only [Environment.fieldVariable?, Option.bind_eq_bind, Option.bind_eq_some_iff] at field
          obtain ⟨_, -, _, -, same⟩ := field
          cases same
          simp
  next => cases resolved

theorem select_ambiguous {f g : FunctionDefinition} {args : List Datatype}
    (plain : isDotted name = false)
    (methods : (env.scopes.class?.map fun (_, c) => c.methods.overloads name).getD [] = [])
    (apart : i ≠ j) (used : i ∈ env.scopes.uses) (used' : j ∈ env.scopes.uses)
    (declared : f ∈ env.modules.overloads i name) (declared' : g ∈ env.modules.overloads j name)
    (fits : Overload.Takes Datatype.exact args f) (fits' : Overload.Takes Datatype.exact args g) :
    ∃ fs n, env.callCandidates name = .ok fs ∧
      Overload.select fs args = .error (.ambiguous n) := by
  have split : splitQualified name = none := by simp [splitQualified, plain]
  have member : f ∈ env.scopes.uses.flatMap (env.modules.overloads · name) :=
    List.mem_flatMap.mpr ⟨i, used, declared⟩
  have nonempty : (env.scopes.uses.flatMap (env.modules.overloads · name)).isEmpty = false := by
    simpa using List.ne_nil_of_mem member
  have two : 2 ≤ (Overload.decidingTier
      (env.scopes.uses.flatMap (env.modules.overloads · name)) args).length := by
    rw [Overload.decidingTier_eq, if_pos ⟨f, member, fits⟩, List.filter_flatMap]
    refine two_le_length_flatMap used used' apart ?_ ?_
    · exact List.ne_nil_of_mem (List.mem_filter.mpr ⟨declared, by simpa using fits⟩)
    · exact List.ne_nil_of_mem (List.mem_filter.mpr ⟨declared', by simpa using fits'⟩)
  refine ⟨_, _, ?_, Overload.single_eq_ambiguous_iff.mpr ⟨two, rfl⟩⟩
  unfold Environment.callCandidates
  simp only [split, methods, List.find?_cons, List.isEmpty_nil, Bool.not_true, nonempty, Bool.not_false]

end Environment

/-- Names mean the same in two places, as far as they mean something. -/
structure Environment.SameNames (env other : Environment) : Prop where
  vars : ∀ place v, other.resolveVariable place = .ok v ↔ env.resolveVariable place = .ok v
  datatypes : ∀ place nullable type,
    other.resolveDatatype place nullable = .ok type ↔ env.resolveDatatype place nullable = .ok type
  calls : ∀ place args, other.resolveCall place args = env.resolveCall place args
  overloads : ∀ name, Alike true
    (fun fs gs => ∀ args, (Overload.select gs args).map FunctionDefinition.bare =
      (Overload.select fs args).map FunctionDefinition.bare)
    (env.callCandidates name) (other.callCandidates name)

theorem Alike.ok_iff {ε α : Type} {exact : Bool} {x y : Except ε α} (alike : Alike exact Eq x y)
    (a : α) : y = .ok a ↔ x = .ok a := by
  cases alike with
  | ok same => rw [same]
  | error => simp

namespace Environment

theorem sameNames_refl (env : Environment) : env.SameNames env :=
  ⟨fun _ _ => .rfl, fun _ _ _ => .rfl, fun _ _ => rfl, fun _ => .refl (fun _ _ => rfl) _⟩

theorem Like.sameNames {σ : Slack} {env other : Environment} (like : env.Like σ other)
    (unmarked : σ.marked = false) : env.SameNames other where
  vars place v := by
    refine ((like.resolveVariable place).mono fun a b related => ?_).ok_iff v
    obtain ⟨same, -, initialized⟩ := related
    rw [same, initialized unmarked]
  datatypes place nullable type := (like.resolveDatatype place nullable).ok_iff type
  calls := like.resolveCall
  overloads name := (like.callCandidates name).mono fun _ _ => Overload.select_of_bare_perm

end Environment

/-- An analysis and one where `others` stand instead of the nodes `run` of a function, and so in what
is stored as its body. -/
structure Analysis.Exchanged (run others : List Node) (a b : Analysis) : Prop where
  root : b.root = a.root ∨ a.root.Exchanged run others b.root
  modules : ∃ owner, a.modules.Like (.exchange run others owner) b.modules

open AnalysisState UseClause

namespace AnalysisState

theorem Leads.eq_of_length {s t : AnalysisState} (leads : s.Leads t)
    (length : s.remaining.length ≤ t.remaining.length) : t = s := by
  rcases Relation.ReflTransGen.cases_head leads with same | ⟨u, step, leads⟩
  · exact same.symm
  · have fewer := step.moves.remaining_lt
    have least := Leads.remaining_le leads
    omega

theorem Leads.reaches {s t : AnalysisState} (leads : s.Leads t) (bodies : s.declaring = false) :
    s.Reaches t := by
  induction leads with
  | refl => exact .refl
  | tail leads step ih => exact ih.trans (step_reaches ((Leads.declaring leads).trans bodies) step.1)

end AnalysisState

namespace Analysis

variable {host : Host} {maxErrors : Nat} {before after text other : List Token}
  {us vs : List UseClause}

-- Where the second pass ends.
def bodiesEnd (host : Host) (maxErrors : Nat) (tokens : List Token) : AnalysisState :=
  let first := runPass ⟨.declarations, host⟩ .empty { maxErrors } tokens
  runPass ⟨.bodies, host⟩ first.environment.modules first.log tokens

theorem bodiesEnd_of_leads {program : List Token} {last : AnalysisState}
    (leads : (bodiesStart host maxErrors program).Leads last) (ended : last.remaining = [])
    (closed : last.environment.scopes.opened = []) (idle : last.pendingDo = none) :
    bodiesEnd host maxErrors program = last :=
  runPass_of_leads leads ended closed idle

theorem accepted_of_bodiesEnd {program : List Token}
    (first : (runPass ⟨.declarations, host⟩ .empty { maxErrors } program).Clean)
    (second : (bodiesEnd host maxErrors program).Clean) :
    (ofTokens host maxErrors program).isOk = true :=
  isOk_iff.mpr ⟨first, second⟩

section Accepted

variable {program : List Token} (accepted : (ofTokens host maxErrors program).isOk = true)

include accepted

theorem leads_bodiesEnd :
    (bodiesEnd host maxErrors program).Clean ∧
      (bodiesStart host maxErrors program).Leads (bodiesEnd host maxErrors program) ∧
      (bodiesEnd host maxErrors program).remaining = [] ∧
      (bodiesEnd host maxErrors program).environment.scopes.opened = [] ∧
      (bodiesEnd host maxErrors program).pendingDo = none :=
  ⟨(isOk_iff.mp accepted).2, runPass_leads (isOk_iff.mp accepted).2⟩

theorem ofTokens_of_accepted :
    (ofTokens host maxErrors program).root =
        (bodiesEnd host maxErrors program).environment.scopes.base.node ∧
      (ofTokens host maxErrors program).modules =
        (bodiesEnd host maxErrors program).environment.modules := by
  have clean : (runPass ⟨.declarations, host⟩ .empty { maxErrors } program).log.failed = false :=
    (isOk_iff.mp accepted).1
  obtain ⟨-, leads, -, closed, -⟩ := leads_bodiesEnd accepted
  have bodies : (bodiesEnd host maxErrors program).declaring = false := leads.declaring
  have root : (bodiesEnd host maxErrors program).root =
      (bodiesEnd host maxErrors program).environment.scopes.base.node := by
    simp [AnalysisState.root, bodies, closed, AnalysisState.closeAll]
  rw [← root]
  simp [ofTokens, clean, bodiesEnd]

-- The first pass is never in a block.
theorem passed_over (blocks : ∀ s, (bodiesStart host maxErrors program).Leads s →
      s.remaining = text → s.environment.frame.isBlock = true)
    {s : AnalysisState} (leads : (declarationsStart host maxErrors program).Leads s) :
    s.remaining ≠ text := by
  intro here
  obtain ⟨last, final, passed, -⟩ := passed_of_accepted accepted
  obtain ⟨t, toT, mirror, -⟩ := passed.tour leads (Leads.to_end leads passed.declares passed.ended.1)
  have block := blocks t toT (mirror.remaining.trans here)
  have outside : Title.Outside t.environment.titles := by
    rw [mirror.titles]
    exact mirror.outer.outside
  rw [Environment.isBlock_of_outside outside] at block
  cases block

theorem tracked_of_leads {s : AnalysisState} (leads : (bodiesStart host maxErrors program).Leads s) :
    s.declaring = false ∧ s.Tracked ∧ s.environment.modules.Proper := by
  obtain ⟨firstClean, -⟩ := isOk_iff.mp accepted
  have typed := (runPass_wellTyped ⟨.declarations, host⟩ ModuleTree.wellTyped_empty { maxErrors }
    program).environment.modules
  obtain ⟨last, final, passed, -⟩ := passed_of_accepted accepted
  have built := ((inStep_start firstClean).reaches (leads.reaches rfl)).built
  have outer := (Leads.extends (runPass_leads firstClean).1 rfl rfl
    (outer_startPass ⟨.declarations, host⟩ { maxErrors } program)).2.1
  exact ⟨leads.declaring, leads.tracked rfl (startPass_wellTyped _ typed _ _)
    (startPass_tracked _ _ _ _), built.fills.proper outer.proper⟩

end Accepted

section Exchange

variable (accepted : (ofTokens host maxErrors (before ++ text)).isOk = true) (whole : Whole before)
  (level : ∀ depth, Chunk.skipBlock depth text = Chunk.skipBlock depth other)
  (blocks : ∀ s, (bodiesStart host maxErrors (before ++ text)).Leads s →
    s.remaining = text → s.environment.frame.isBlock = true)

include accepted whole level blocks

-- The declarations do not depend on what stands in a block.
theorem bodiesStart_facing :
    (runPass ⟨.declarations, host⟩ .empty { maxErrors } (before ++ other)).Clean ∧
      bodiesStart host maxErrors (before ++ other) =
        (bodiesStart host maxErrors (before ++ text)).facing (before ++ other) := by
  obtain ⟨clean, -⟩ := isOk_iff.mp accepted
  obtain ⟨leads, ended, closed, idle⟩ := runPass_leads clean
  have nonempty : before ≠ [] := by
    rintro rfl
    exact passed_over accepted blocks .refl rfl
  have head : (before ++ other).head? = (before ++ text).head? := by
    cases before with
    | nil => exact absurd rfl nonempty
    | cons => rfl
  have starts (setting : Setting) (modules : ModuleTree) (log : DiagnosticLog) :
      startPass setting modules log (before ++ other) =
        (startPass setting modules log (before ++ text)).facing (before ++ other) := by
    simp only [startPass, head, AnalysisState.facing]
  have ahead : Ahead text other (declarationsStart host maxErrors (before ++ text))
      (declarationsStart host maxErrors (before ++ other)) :=
    ⟨before, whole, rfl, starts _ _ _⟩
  rcases ahead.arrives level leads ended with past | ⟨u, toU, _, here, _⟩
  · have same := runPass_of_leads past ended closed idle
    refine ⟨?_, ?_⟩
    · rw [same]
      exact clean
    · simp only [bodiesStart, same, starts]
  · exact absurd here (passed_over accepted blocks toU)

theorem bodiesStart_ahead : Ahead text other (bodiesStart host maxErrors (before ++ text))
    (bodiesStart host maxErrors (before ++ other)) :=
  ⟨before, whole, rfl, (bodiesStart_facing accepted whole level blocks).2⟩

end Exchange

-- Where the second passes of both programs come to the place, clauses may stand, and the run `vs`
-- puts the same modules in use as the run `us`.
def Exchangeable (start other : AnalysisState) (us vs : List UseClause) (after : List Token) : Prop :=
  ∀ s, start.Leads s → s.remaining = UseClause.text us ++ after →
    other.Leads (s.facing (UseClause.text vs ++ after)) →
    s.Open ∧ (∀ v ∈ vs, (v.target? s.environment).isSome = true) ∧
      ∀ id, (s.environment.Using id ∨ Named vs s.environment id) ↔
        (s.environment.Using id ∨ Named us s.environment id)

-- What names mean in one program they mean in the other, before the run of clauses and behind it.
def NamesAgree (start other : AnalysisState) (text text' after : List Token) : Prop :=
  ∀ s, start.Leads s →
    s.remaining.length ≤ after.length ∨ text.length ≤ s.remaining.length →
    ∃ t, other.Leads t ∧
      (t.remaining = s.remaining ∨
        ∃ front, s.remaining = front ++ text ∧ t.remaining = front ++ text') ∧
      s.environment.SameNames t.environment

section Runs

variable {start other last u : AnalysisState}

-- The two passes come to the place where they go different ways, and meet behind it.
theorem Exchangeable.meet (exchangeable : Exchangeable start other us vs after)
    (toU : start.Leads u) (toLast : u.Leads last) (ended : last.remaining = [])
    (remaining : u.remaining = UseClause.text us ++ after)
    (toOther : other.Leads (u.facing (UseClause.text vs ++ after)))
    (sound : ∀ s, start.Leads s → s.declaring = false ∧ s.Tracked ∧ s.environment.modules.Proper) :
    ∃ t v owner, u.Passes us t ∧ (u.facing (UseClause.text vs ++ after)).Passes vs v ∧
      t.remaining = after ∧ v.remaining = after ∧
      t.Idle (.exchange (nodes us u.environment) (nodes vs u.environment) owner) v := by
  obtain ⟨here, targets, same⟩ := exchangeable u toU remaining toOther
  obtain ⟨bodies, -, proper⟩ := sound u toU
  obtain ⟨t, passes, left⟩ := here.passes remaining (here.finds toLast ended remaining)
  have there : (u.facing (UseClause.text vs ++ after)).Open :=
    ⟨here.bodies, here.clean, here.idle, here.deep, here.block⟩
  obtain ⟨v, passes', left'⟩ := there.passes rfl targets
  have tracked := (sound t (Relation.ReflTransGen.trans toU passes.leads)).2.1
  exact ⟨t, v, _, passes, passes', left, left',
    passes.alike passes' bodies here.deep proper tracked (left'.trans left.symm) same⟩

end Runs

section Programs

variable (accepted : (ofTokens host maxErrors (before ++ (UseClause.text us ++ after))).isOk = true)
  (whole : Whole before)
  (blocks : ∀ s, (bodiesStart host maxErrors (before ++ (UseClause.text us ++ after))).Leads s →
    s.remaining = UseClause.text us ++ after → s.environment.frame.isBlock = true)
  (exchangeable : Exchangeable (bodiesStart host maxErrors (before ++ (UseClause.text us ++ after)))
    (bodiesStart host maxErrors (before ++ (UseClause.text vs ++ after))) us vs after)

include accepted whole blocks exchangeable

theorem namesAgree_of_exchangeable :
    NamesAgree (bodiesStart host maxErrors (before ++ (UseClause.text us ++ after)))
      (bodiesStart host maxErrors (before ++ (UseClause.text vs ++ after)))
      (UseClause.text us ++ after) (UseClause.text vs ++ after) after := by
  have level (depth : Nat) : Chunk.skipBlock depth (UseClause.text us ++ after) =
      Chunk.skipBlock depth (UseClause.text vs ++ after) := by
    rw [skipBlock_text, skipBlock_text]
  have ahead := bodiesStart_ahead accepted whole level blocks
  obtain ⟨-, enters, ended, -⟩ := leads_bodiesEnd accepted
  intro s leads outside
  rcases ahead.leads level leads with past | ⟨w, toW, still⟩ | ⟨u, toU, beyond, remaining, toOther⟩
  · exact ⟨s, past, .inl rfl, s.environment.sameNames_refl⟩
  · obtain ⟨front, _, left, rfl⟩ := still.front
    exact ⟨_, toW, .inr ⟨front, left, rfl⟩, s.environment.sameNames_refl⟩
  · obtain ⟨t, v, owner, passes, passes', left, left', idle⟩ :=
      exchangeable.meet toU (Leads.to_end toU enters ended) ended remaining toOther
        fun s leads => tracked_of_leads accepted leads
    have toV := Relation.ReflTransGen.trans toOther passes'.leads
    -- The place is either where the passes part or beyond the place where they meet.
    have place : s = u ∨ t.Leads s := by
      rcases outside with short | long
      · refine .inr ?_
        rcases Relation.ReflTransGen.total_of_right_unique rightUnique_cleanStep passes.leads
          beyond with further | inside
        · exact further
        · rw [Leads.eq_of_length inside (by rw [left]; exact short)]
          exact .refl
      · exact .inl (Leads.eq_of_length beyond (by rw [remaining]; exact long))
    rcases place with rfl | further
    · exact ⟨_, toOther, .inr ⟨[], remaining, rfl⟩, s.environment.sameNames_refl⟩
    · obtain ⟨s', toS', like⟩ := idle.like.leads (fun _ _ same => same) further
      exact ⟨s', Relation.ReflTransGen.trans toV toS', .inl like.remaining,
        like.environment.sameNames rfl⟩

-- If other clauses put the same modules in use, the program is still accepted, and nothing but the
-- nodes of the clauses changes.
theorem accepted_of_exchangeable :
    (ofTokens host maxErrors (before ++ (UseClause.text vs ++ after))).isOk = true ∧
      ∃ env, (ofTokens host maxErrors (before ++ (UseClause.text us ++ after))).Exchanged
        (nodes us env) (nodes vs env)
        (ofTokens host maxErrors (before ++ (UseClause.text vs ++ after))) := by
  have level (depth : Nat) : Chunk.skipBlock depth (UseClause.text us ++ after) =
      Chunk.skipBlock depth (UseClause.text vs ++ after) := by
    rw [skipBlock_text, skipBlock_text]
  have ahead := bodiesStart_ahead accepted whole level blocks
  obtain ⟨firstClean, -⟩ := bodiesStart_facing accepted whole level blocks
  obtain ⟨clean, enters, ended, closed, idle⟩ := leads_bodiesEnd accepted
  obtain ⟨root, modules⟩ := ofTokens_of_accepted accepted
  rcases ahead.arrives level enters ended with past | ⟨u, toU, toLast, remaining, toOther⟩
  · have same := bodiesEnd_of_leads past ended closed idle
    have accepted' := accepted_of_bodiesEnd firstClean (same ▸ clean)
    obtain ⟨root', modules'⟩ := ofTokens_of_accepted accepted'
    rw [same] at root' modules'
    refine ⟨accepted', (bodiesEnd host maxErrors (before ++ (UseClause.text us ++ after))).environment,
      .inl (root'.trans root.symm), none, ?_⟩
    rw [modules', modules]
    exact ModuleTree.like_refl (Slack.reflexive_exchange _ _ _) (tracked_of_leads accepted enters).2.2
  · obtain ⟨t, v, owner, passes, passes', left, left', alike⟩ :=
      exchangeable.meet toU toLast ended remaining toOther fun s leads =>
        tracked_of_leads accepted leads
    obtain ⟨last, toEnd, like⟩ :=
      alike.like.leads (fun _ _ same => same) (Leads.to_end passes.leads toLast ended)
    have enters' := (Relation.ReflTransGen.trans toOther passes'.leads).trans toEnd
    have closed' : last.environment.scopes.opened = [] := by
      have scopes := (ScopeStack.opened_like like.environment.scopes.scopes).1
      rw [closed] at scopes
      exact List.forall₂_nil_left_iff.mp scopes
    have same := bodiesEnd_of_leads enters' (like.remaining.trans ended) closed'
      (like.idle idle).theirs
    have clean' : last.Clean := like.log.trans clean
    have accepted' := accepted_of_bodiesEnd firstClean (same ▸ clean')
    obtain ⟨root', modules'⟩ := ofTokens_of_accepted accepted'
    rw [same] at root' modules'
    have roots := like.environment.scopes.nodes
    rw [ScopeStack.all, closed, ScopeStack.all, closed'] at roots
    refine ⟨accepted', u.environment, ?_, owner, ?_⟩
    · rw [root', root]
      exact roots.head.imp id And.left
    · rw [modules', modules]
      exact like.environment.modules

end Programs

/-- Two programs with different runs of clauses in one place. -/
structure UsesExchanged (host : Host) (maxErrors : Nat) (before after : List Token)
    (us vs : List UseClause) : Prop where
  accepted : (ofTokens host maxErrors (before ++ (UseClause.text vs ++ after))).isOk =
    (ofTokens host maxErrors (before ++ (UseClause.text us ++ after))).isOk
  exchanged : (ofTokens host maxErrors (before ++ (UseClause.text us ++ after))).isOk = true →
    ∃ env, (ofTokens host maxErrors (before ++ (UseClause.text us ++ after))).Exchanged
      (nodes us env) (nodes vs env)
      (ofTokens host maxErrors (before ++ (UseClause.text vs ++ after)))
  names : (ofTokens host maxErrors (before ++ (UseClause.text us ++ after))).isOk = true →
    NamesAgree (bodiesStart host maxErrors (before ++ (UseClause.text us ++ after)))
      (bodiesStart host maxErrors (before ++ (UseClause.text vs ++ after)))
      (UseClause.text us ++ after) (UseClause.text vs ++ after) after

-- One of the programs being accepted, its pass is in a block at the place, and the clauses of the
-- other one can stand there.
def Fits (host : Host) (maxErrors : Nat) (before after : List Token) (us vs : List UseClause) : Prop :=
  (ofTokens host maxErrors (before ++ (UseClause.text us ++ after))).isOk = true →
    (∀ s, (bodiesStart host maxErrors (before ++ (UseClause.text us ++ after))).Leads s →
      s.remaining = UseClause.text us ++ after → s.environment.frame.isBlock = true) ∧
    Exchangeable (bodiesStart host maxErrors (before ++ (UseClause.text us ++ after)))
      (bodiesStart host maxErrors (before ++ (UseClause.text vs ++ after))) us vs after

theorem usesExchanged_of_fits (whole : Whole before) (there : Fits host maxErrors before after us vs)
    (back : Fits host maxErrors before after vs us) :
    UsesExchanged host maxErrors before after us vs where
  accepted := by
    rw [Bool.eq_iff_iff]
    constructor
    · intro accepted
      obtain ⟨blocks, exchangeable⟩ := back accepted
      exact (accepted_of_exchangeable accepted whole blocks exchangeable).1
    · intro accepted
      obtain ⟨blocks, exchangeable⟩ := there accepted
      exact (accepted_of_exchangeable accepted whole blocks exchangeable).1
  exchanged accepted :=
    (accepted_of_exchangeable accepted whole (there accepted).1 (there accepted).2).2
  names accepted := namesAgree_of_exchangeable accepted whole (there accepted).1 (there accepted).2

section Places

variable {program : List Token} (accepted : (ofTokens host maxErrors program).isOk = true)
  {s : AnalysisState} (leads : (bodiesStart host maxErrors program).Leads s)

include accepted leads

theorem root_not_block : s.environment.scopes.base.frame.isBlock = false := by
  have stack := (tracked_of_leads accepted leads).2.1.scopes
  unfold Environment.Tracked ScopeStack.all at stack
  generalize s.environment.scopes.opened = opened at stack
  induction opened with
  | nil =>
      obtain ⟨⟨-, placed, -⟩, -⟩ := stack
      generalize s.environment.scopes.base.frame = frame at placed
      cases placed with
      | declaration block => exact block
      | function _ _ above => exact absurd rfl above
      | block _ around => cases around
  | cons scope opened ih => exact ih stack.2

theorem open_of_block (idle : s.pendingDo = none) (block : s.environment.frame.isBlock = true) :
    s.Open := by
  refine ⟨(tracked_of_leads accepted leads).1, ?_, idle, fun bottom => ?_, block⟩
  · rcases Relation.ReflTransGen.cases_tail leads with same | ⟨_, _, step⟩
    · rw [same]
      exact (isOk_iff.mp accepted).1
    · exact step.2
  · have bare := root_not_block accepted leads
    simp [Environment.frame, ScopeStack.current, bottom, bare] at block

theorem open_of_clauses (nonempty : us ≠ []) (remaining : s.remaining = UseClause.text us ++ after) :
    s.Open ∧ ∀ u ∈ us, (u.target? s.environment).isSome = true := by
  obtain ⟨-, enters, ended, -⟩ := leads_bodiesEnd accepted
  have toEnd := Leads.to_end leads enters ended
  have here : s.Open := by
    cases us with
    | nil => exact absurd rfl nonempty
    | cons u us =>
        have left : (bodiesEnd host maxErrors program).remaining ≠ s.remaining := by
          rw [ended, remaining]
          exact (List.cons_ne_nil _ _).symm
        obtain ⟨t, step, -⟩ := toEnd.head_of_remaining left
        exact step.open remaining (tracked_of_leads accepted leads).1 (root_not_block accepted leads)
  exact ⟨here, here.finds toEnd ended remaining⟩

end Places

theorem fits_of_paths (nonempty : us ≠ []) (same : ∀ path, path ∈ paths vs ↔ path ∈ paths us) :
    Fits host maxErrors before after us vs := by
  intro accepted
  refine ⟨fun s leads remaining => (open_of_clauses accepted leads nonempty remaining).1.block,
    fun s leads remaining _ => ?_⟩
  obtain ⟨here, targets⟩ := open_of_clauses accepted leads nonempty remaining
  refine ⟨here, fun v member => ?_, fun id => ?_⟩
  · obtain ⟨u, member', spelled⟩ : ∃ u ∈ us, u.path.lexeme = v.path.lexeme :=
      List.mem_map.mp ((same _).mp (List.mem_map_of_mem member))
    have target := targets u member'
    rwa [target?, spelled] at target
  · simp only [named_iff, same]

theorem usesExchanged_of_paths (whole : Whole before)
    (same : ∀ path, path ∈ paths vs ↔ path ∈ paths us) :
    UsesExchanged host maxErrors before after us vs := by
  have empty (ws : List UseClause) : paths ws = [] ↔ ws = [] := List.map_eq_nil_iff
  by_cases clauseless : us = []
  · have clauseless' : vs = [] := by
      subst clauseless
      rw [← empty, List.eq_nil_iff_forall_not_mem]
      intro path member
      cases (same path).mp member
    subst clauseless clauseless'
    refine ⟨rfl, fun accepted => ?_, fun _ s leads _ =>
      ⟨s, leads, .inl rfl, s.environment.sameNames_refl⟩⟩
    obtain ⟨-, enters, -⟩ := leads_bodiesEnd accepted
    refine ⟨(bodiesEnd host maxErrors (before ++ (UseClause.text [] ++ after))).environment,
      .inl rfl, none, ?_⟩
    rw [(ofTokens_of_accepted accepted).2]
    exact ModuleTree.like_refl (Slack.reflexive_exchange _ _ _) (tracked_of_leads accepted enters).2.2
  · have nonempty : vs ≠ [] := by
      rintro rfl
      refine clauseless ((empty us).mp (List.eq_nil_iff_forall_not_mem.mpr fun path member => ?_))
      cases (same path).mpr member
    exact usesExchanged_of_fits whole (fits_of_paths clauseless same)
      (fits_of_paths nonempty fun path => (same path).symm)

theorem usesExchanged_of_repeated {u : UseClause} (whole : Whole before)
    (repeated : ∀ s, (bodiesStart host maxErrors (before ++ after)).Leads s → s.remaining = after →
      s.pendingDo = none ∧ s.environment.frame.isBlock = true ∧
        ∃ id, u.target? s.environment = some id ∧ s.environment.Using id) :
    UsesExchanged host maxErrors before after [] [u] := by
  refine usesExchanged_of_fits whole (fun accepted => ?_) fun accepted => ?_
  · refine ⟨fun s leads remaining => (repeated s leads remaining).2.1, fun s leads remaining _ => ?_⟩
    obtain ⟨idle, block, id, target, used⟩ := repeated s leads remaining
    refine ⟨open_of_block accepted leads idle block, by simp [target], fun other => ?_⟩
    simp only [Named, List.mem_singleton, exists_eq_left, target, Option.some.injEq, List.not_mem_nil,
      false_and, exists_false, or_false, or_iff_left_iff_imp]
    rintro rfl
    exact used
  · have one : [u] ≠ [] := List.cons_ne_nil u []
    refine ⟨fun s leads remaining => (open_of_clauses accepted leads one remaining).1.block,
      fun s leads remaining toOther => ?_⟩
    obtain ⟨here, -⟩ := open_of_clauses accepted leads one remaining
    obtain ⟨-, -, id, target, used⟩ := repeated _ toOther rfl
    refine ⟨here, by simp, fun other => ?_⟩
    have target : u.target? s.environment = some id := target
    simp only [Named, List.mem_singleton, exists_eq_left, target, Option.some.injEq, List.not_mem_nil,
      false_and, exists_false, or_false, iff_self_or]
    rintro rfl
    exact used

/-- The order of `use` clauses is of no account: permuted clauses leave an analysis as it is, but for
the order of their nodes. What several of the modules declare is not chosen by order, and to name a
module again adds a node and nothing else. -/
theorem use_order_irrelevant (host : Host) (maxErrors : Nat) :
    (∀ before after us vs, Whole before → (paths vs).Perm (paths us) →
      UsesExchanged host maxErrors before after us vs ∧
        ∀ env, ((nodes vs env).map Node.lexeme).Perm ((nodes us env).map Node.lexeme) ∧
          ∀ n ∈ nodes us env ++ nodes vs env, n.kind = .useStatement ∧ n.children = []) ∧
    (∀ (env : Environment) (place : Token) (i j : ModuleId), isDotted place.lexeme = false → i ≠ j →
      i ∈ env.scopes.uses → j ∈ env.scopes.uses →
      (∀ (α : Type) (table : Members → SymbolTable α) (a b : α),
        (table (env.modules.get i).members).find? place.lexeme = some a →
        (table (env.modules.get j).members).find? place.lexeme = some b →
        ∃ ids, env.lookup table place.lexeme = .error (.ambiguous ids) ∧ i ∈ ids ∧ j ∈ ids) ∧
      (∀ a b v, (env.modules.get i).members.globals.find? place.lexeme = some a →
        (env.modules.get j).members.globals.find? place.lexeme = some b →
        env.resolveVariable place = .ok v → ∀ id, v.place ≠ .inModule id) ∧
      (∀ f g args,
        (env.scopes.class?.map fun (_, c) => c.methods.overloads place.lexeme).getD [] = [] →
        f ∈ env.modules.overloads i place.lexeme → g ∈ env.modules.overloads j place.lexeme →
        Overload.Takes Datatype.exact args f → Overload.Takes Datatype.exact args g →
        ∃ fs n, env.callCandidates place.lexeme = .ok fs ∧
          Overload.select fs args = .error (.ambiguous n))) ∧
    (∀ before after us u, Whole before → u.path.lexeme ∈ paths us →
      UsesExchanged host maxErrors before after us (us ++ [u])) ∧
    (∀ before after u, Whole before →
      (∀ s, (bodiesStart host maxErrors (before ++ after)).Leads s → s.remaining = after →
        s.pendingDo = none ∧ s.environment.frame.isBlock = true ∧
          ∃ id, u.target? s.environment = some id ∧ s.environment.Using id) →
      UsesExchanged host maxErrors before after [] [u]) := by
  refine ⟨fun before after us vs whole perm => ⟨usesExchanged_of_paths whole fun _ => perm.mem_iff,
    fun env => ⟨?_, fun n member => ?_⟩⟩, fun env place i j plain apart used used' => ⟨?_, ?_, ?_⟩,
    fun before after us u whole known => usesExchanged_of_paths whole fun path => ?_,
    fun before after u whole repeated => usesExchanged_of_repeated whole repeated⟩
  · rw [lexeme_nodes, lexeme_nodes]
    exact perm.filterMap _
  · rcases List.mem_append.mp member with member | member <;> exact nodes_shape member
  · intro α table a b declared declared'
    exact Environment.lookup_ambiguous plain apart used used' declared declared'
  · intro a b v declared declared' resolved id
    obtain ⟨ids, ambiguous, -⟩ :=
      Environment.lookup_ambiguous plain apart used used' declared declared'
    exact Environment.place_of_ambiguous ambiguous resolved id
  · intro f g args methods declared declared' fits fits'
    exact Environment.select_ambiguous plain methods apart used used' declared declared' fits fits'
  · simp only [paths, List.map_append, List.map_cons, List.map_nil, List.mem_append,
      List.mem_singleton, or_iff_left_iff_imp]
    rintro rfl
    exact known

-- The module `module a { int x = 1; fn w { } fn f :: int { ret 1; } }`, under these names.
def offering (module function value : String) : List Token :=
  [Token.alone (.keyword .module) "module", .alone .identifier module, .alone .leftBrace "\x7b",
    .alone (.datatype .int) "int", .alone .identifier "x", .alone .assign "=",
    .alone (.literal .int) value, .alone .semicolon ";", .alone (.keyword .fn) "fn",
    .alone .identifier "w", .alone .leftBrace "\x7b", .alone .rightBrace "\x7d",
    .alone (.keyword .fn) "fn", .alone .identifier function, .alone .doubleColon "::",
    .alone (.datatype .int) "int", .alone .leftBrace "\x7b", .alone (.keyword .ret) "ret",
    .alone (.literal .int) value, .alone .semicolon ";", .alone .rightBrace "\x7d",
    .alone .rightBrace "\x7d"]

-- Two such modules, and `module m { fn h :: int {`.
def beforeUses : List Token :=
  offering "a" "f" "1" ++ offering "b" "g" "2" ++
    [.alone (.keyword .module) "module", .alone .identifier "m", .alone .leftBrace "\x7b",
      .alone (.keyword .fn) "fn", .alone .identifier "h", .alone .doubleColon "::",
      .alone (.datatype .int) "int", .alone .leftBrace "\x7b"]

-- The rest, `ret f() + g(); } }`.
def afterUses : List Token :=
  [.alone (.keyword .ret) "ret", .alone .identifier "f", .alone .leftParen "(",
    .alone .rightParen ")", .alone (.binary .add) "+", .alone .identifier "g",
    .alone .leftParen "(", .alone .rightParen ")", .alone .semicolon ";", .alone .rightBrace "\x7d",
    .alone .rightBrace "\x7d"]

def useOf (module : String) : UseClause :=
  ⟨.alone (.keyword .use) "use", .alone .identifier module, .alone .semicolon ";", rfl, rfl, rfl⟩

-- Where the second pass has read `use a; use b;`.
def behindUses : AnalysisState :=
  (bodiesStart {} 100 (beforeUses ++ (UseClause.text [useOf "a", useOf "b"] ++ afterUses))).steps 20

-- Both modules are in use there, and declare `x` and `w`.
theorem behindUses_state :
    behindUses.remaining = afterUses ∧ behindUses.pendingDo.isNone = true ∧
      behindUses.environment.frame.isBlock = true ∧
      (useOf "a").target? behindUses.environment = some ⟨1⟩ ∧
      behindUses.environment.scopes.uses = [⟨1⟩, ⟨2⟩] ∧ behindUses.environment.Using ⟨1⟩ ∧
      behindUses.environment.scopes.class?.isNone = true ∧
      ∀ id ∈ [(⟨1⟩ : ModuleId), ⟨2⟩],
        ((behindUses.environment.modules.get id).members.globals.find? "x").isSome = true ∧
        (behindUses.environment.modules.overloads id "w").map FunctionDefinition.paramTypes = [[]] := by
  decide +kernel

theorem twoUses_accepted :
    (ofTokens {} 100
      (beforeUses ++ (UseClause.text [useOf "a", useOf "b"] ++ afterUses))).isOk = true := by
  decide +kernel

theorem twoUses_alike :
    UsesExchanged {} 100 beforeUses afterUses [useOf "a", useOf "b"] [useOf "b", useOf "a"] ∧
      UsesExchanged {} 100 beforeUses afterUses [useOf "a", useOf "b"]
        [useOf "a", useOf "b", useOf "a"] ∧
      UsesExchanged {} 100 (beforeUses ++ UseClause.text [useOf "a", useOf "b"]) afterUses []
        [useOf "a"] ∧
      (∃ ids, behindUses.environment.lookup Members.globals "x" = .error (.ambiguous ids)) ∧
      ∃ fs n, behindUses.environment.callCandidates "w" = .ok fs ∧
        Overload.select fs [] = .error (.ambiguous n) := by
  have leads : (bodiesStart {} 100
      (beforeUses ++ (UseClause.text [useOf "a", useOf "b"] ++ afterUses))).Leads behindUses := by
    obtain ⟨-, enters, ended, -⟩ := leads_bodiesEnd twoUses_accepted
    exact enters.steps ended 20
  obtain ⟨remaining, idle, block, target, uses, inUse, noClass, declared⟩ := behindUses_state
  generalize behindUses = here at leads remaining idle block target uses inUse noClass declared ⊢
  obtain ⟨permuted, ambiguous, again, later⟩ := use_order_irrelevant {} 100
  have used (id : ModuleId) (member : id ∈ [(⟨1⟩ : ModuleId), ⟨2⟩]) :
      id ∈ here.environment.scopes.uses := by rwa [uses]
  have swapped : (paths [useOf "b", useOf "a"]).Perm (paths [useOf "a", useOf "b"]) := .swap _ _ _
  refine ⟨(permuted _ _ _ _ (by decide) swapped).1,
    again _ _ _ _ (by decide) (by decide), later _ _ _ (by decide) ?_, ?_, ?_⟩
  · intro s toS there
    rw [List.append_assoc] at toS
    obtain rfl : s = here := Leads.unique leads toS (there.trans remaining.symm)
    exact ⟨by simpa using idle, block, ⟨1⟩, target, inUse⟩
  · obtain ⟨found, -⟩ := declared ⟨1⟩ (by simp)
    obtain ⟨found', -⟩ := declared ⟨2⟩ (by simp)
    obtain ⟨a, found⟩ := Option.isSome_iff_exists.mp found
    obtain ⟨b, found'⟩ := Option.isSome_iff_exists.mp found'
    obtain ⟨lookups, -⟩ := ambiguous here.environment (.alone .identifier "x") ⟨1⟩ ⟨2⟩
      (by decide) (by decide) (used _ (by simp)) (used _ (by simp))
    obtain ⟨ids, hidden, -⟩ := lookups _ Members.globals a b found found'
    exact ⟨ids, hidden⟩
  · have overload (id : ModuleId) (member : id ∈ [(⟨1⟩ : ModuleId), ⟨2⟩]) :
        ∃ f ∈ here.environment.modules.overloads id "w", Overload.Takes Datatype.exact [] f := by
      obtain ⟨f, listed, types⟩ := List.map_eq_singleton_iff.mp (declared id member).2
      refine ⟨f, by simp [listed], ?_⟩
      unfold Overload.Takes
      rw [types]
      exact .nil
    obtain ⟨f, known, fits⟩ := overload ⟨1⟩ (by simp)
    obtain ⟨g, known', fits'⟩ := overload ⟨2⟩ (by simp)
    obtain ⟨-, -, calls⟩ := ambiguous here.environment (.alone .identifier "w") ⟨1⟩ ⟨2⟩
      (by decide) (by decide) (used _ (by simp)) (used _ (by simp))
    have outside : here.environment.scopes.class? = none := by simpa using noClass
    exact calls f g [] (by simp [outside]) known known' fits fits'

end Analysis

end MiLanguage
