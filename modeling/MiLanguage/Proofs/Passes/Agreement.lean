import MiLanguage.Proofs.Expression.Surface
import MiLanguage.Proofs.Passes.Mirror

set_option autoImplicit false

namespace MiLanguage

namespace AnalysisState

-- In the pass from `start` on, the statement at `site` declares `d`.
def DeclaredAt (start : AnalysisState) (site : List Token) (o : BodyOwner)
    (d : FunctionDefinition) : Prop :=
  ∃ s t, start.Leads s ∧ CleanStep s t ∧ s.remaining = site ∧
    s.environment.declared.definition? o = none ∧ t.environment.declared.definition? o = some d

-- In the pass from `start` on, the statement at `site` opens a scope whose node is `body` when it
-- closes.
def BuiltAt (start : AnalysisState) (site : List Token) (body : Node) : Prop :=
  ∃ s t, start.Leads s ∧ CleanStep s t ∧ s.remaining = site ∧
    s.environment.scopes.depth < t.environment.scopes.depth ∧
    t.Builds s.environment.scopes.depth body

-- Every function that is not native has the body that follows its own declaration, and shows the
-- types that are declared.
def BodiesAgree (first second : AnalysisState) (modules : ModuleTree) : Prop :=
  ∀ o d, modules.Holds o d → d.isNative = false → ∃ site body,
    first.DeclaredAt site o { d with body := .pending } ∧ second.BuiltAt site body ∧
      d.body = .tree body ∧ body.Records o ⟨d.paramTypes, d.returnType⟩

-- Headers mean the same in both passes.
def HeadersAgree (first second : AnalysisState) : Prop :=
  ∀ s t head rest later a b, first.Leads s → second.Leads t → t.remaining = s.remaining →
    s.Takes head rest later → s.environment.signature? (head :: rest) = some a →
    t.environment.signature? (head :: rest) = some b → a = b

/-- Two passes over one program, both without an error to the end. -/
structure Passed (first last second final : AnalysisState) : Prop where
  starts : first.Mirror second
  fresh : ∀ o, first.environment.declared.definition? o = none
  declares : first.Leads last
  enters : second.Leads final
  given : second.environment.modules = last.environment.declared
  ended : last.remaining = [] ∧ final.remaining = []
  closed : final.environment.scopes.depth ≤ 1

-- What the second pass has done so far for the functions in `modules`.
def Filled (first second : AnalysisState) (modules : ModuleTree) (s t : AnalysisState) : Prop :=
  ∀ o d, modules.definition? o = some d →
    (s.environment.declared.definition? o = none → t.environment.modules.definition? o = some d) ∧
    (s.environment.declared.definition? o = some d →
      (d.isNative = true ∧ t.environment.modules.definition? o = some d) ∨
      ∃ site body, first.DeclaredAt site o d ∧ second.BuiltAt site body ∧ d.body = .pending ∧
        body.Records o ⟨d.paramTypes, d.returnType⟩ ∧
        t.environment.modules.definition? o = some { d with body := .tree body })

variable {first last second final s s' t u v : AnalysisState} {modules : ModuleTree}

theorem Follows.leads (follows : s.Follows s' t v) : t.Leads v := by
  cases follows with
  | step _ step => exact .single step
  | body bodies => exact .head bodies.enters bodies.leads

theorem Follows.fills (follows : s.Follows s' t v) (filled : modules.Fills t.environment.modules) :
    modules.Fills v.environment.modules := by
  cases follows with
  | step _ _ same =>
      rw [same]
      exact filled
  | body bodies =>
      obtain ⟨before, updated, attached⟩ := bodies.attached
      rw [attached]
      exact (filled.trans updated.fills.1).trans (before.fills_attachBody _ _)

theorem Follows.declares (follows : s.Follows s' t v) :
    s.environment.declared.Extends s'.environment.declared := by
  cases follows with
  | step _ _ _ declares => exact declares.extends
  | body bodies => exact bodies.declares.extends

theorem Bodies.signatures {owner owner' : BodyOwner} {sig sig' : Signature} {d : FunctionDefinition}
    {body : Node} (bodies : Bodies s s' t u v owner owner' sig sig' d body) :
    ∃ head rest later, s.Takes head rest later ∧
      s.environment.signature? (head :: rest) = some sig ∧
      t.environment.signature? (head :: rest) = some sig' := by
  obtain ⟨head, rest, later, mods, _, _, takes, read, heads, heads'⟩ := bodies.heads
  exact ⟨head, rest, later, takes, heads.signature? read, heads'.signature? read⟩

-- A body goes to the function that its header has declared.
theorem Bodies.owner_eq {owner owner' : BodyOwner} {sig sig' : Signature} {d : FunctionDefinition}
    {body : Node} (bodies : Bodies s s' t u v owner owner' sig sig' d body) (mirror : s.Mirror t)
    (same : sig' = sig) : owner' = owner := by
  obtain ⟨_, _, _, _, _, _, _, _, heads, heads'⟩ := bodies.heads
  exact heads.owner_eq heads' (by rw [same]) mirror.outer.outside mirror.titles

theorem Follows.filled (follows : s.Follows s' t v) (agree : HeadersAgree first second)
    (mirror : s.Mirror t) (toS : first.Leads s) (step : CleanStep s s') (toT : second.Leads t)
    (filled : Filled first second modules s t) : Filled first second modules s' v := by
  intro o d inModules
  obtain ⟨undeclared, declared⟩ := filled o d inModules
  have later := fun undefined => undeclared (follows.declares.none_of_none undefined)
  cases follows with
  | step _ _ same declares native =>
      rw [same]
      refine ⟨later, ?_⟩
      intro found
      rcases declares.cases_some found with ⟨added, fresh⟩ | before
      · exact .inl ⟨native o d added, undeclared fresh⟩
      · exact declared before
  | @body u owner owner' sig sig' d' body bodies =>
      obtain ⟨head, rest, after, takes, first', second'⟩ := bodies.signatures
      have same := agree s t head rest after sig sig' toS toT mirror.remaining takes first' second'
      cases bodies.owner_eq mirror same.symm
      obtain ⟨before, updated, attached⟩ := bodies.attached
      have definition : v.environment.modules.definition? o =
          if o = owner then (t.environment.modules.definition? o).map ({ · with body := .tree body })
          else t.environment.modules.definition? o := by
        rw [attached, ModuleTree.definition?_attachBody, updated.fills.2]
      rw [definition]
      refine ⟨?_, ?_⟩
      · intro undefined
        have other : o ≠ owner := by
          rintro rfl
          rw [bodies.declares.definitions] at undefined
          simp [ModuleTree.afterAdding] at undefined
        rw [if_neg other]
        exact later undefined
      · intro found
        rcases bodies.declares.cases_some found with ⟨added, fresh⟩ | before
        · cases added
          rw [if_pos rfl, undeclared fresh]
          refine .inr ⟨s.remaining, body, ⟨s, s', toS, step, rfl, fresh, found⟩,
            ⟨t, u, toT, bodies.enters, mirror.remaining, bodies.deeper, bodies.builds⟩,
            bodies.pending, ?_, rfl⟩
          have records := bodies.records body bodies.builds
          have types : (⟨d.paramTypes, d.returnType⟩ : Signature) = sig' := by
            rw [bodies.types.1, bodies.types.2, same]
          rw [types]
          exact records
        · have other : o ≠ owner := by
            rintro rfl
            rw [bodies.declares.fresh _ _ rfl] at before
            cases before
          rw [if_neg other]
          exact declared before

-- The first pass only adds to what is declared.
theorem Leads.extends (leads : s.Leads t) (pass : s.declaring = true) (idle : s.pendingDo = none)
    (outer : s.environment.Outer) : t.pendingDo = none ∧ t.environment.Outer ∧
      s.environment.declared.Extends t.environment.declared := by
  induction leads with
  | refl => exact ⟨idle, outer, ModuleTree.extends_refl _⟩
  | @tail b c leads step ih =>
      obtain ⟨idle, outer, grows⟩ := ih
      obtain ⟨turn, idle⟩ := step.moves.declaringTurn ((Leads.declaring leads).trans pass) idle outer
      obtain ⟨outer, added, declares⟩ := turn.declares outer
      exact ⟨idle, outer, grows.trans declares.extends⟩

-- A function is declared in one place only.
theorem DeclaredAt.unique {start : AnalysisState} {site : List Token} {o : BodyOwner}
    {d : FunctionDefinition} (declaredAt : start.DeclaredAt site o d)
    (pass : start.declaring = true) (idle : start.pendingDo = none)
    (outer : start.environment.Outer) (leads : start.Leads s) (step : CleanStep s s')
    (fresh : s.environment.declared.definition? o = none)
    (found : s'.environment.declared.definition? o = some d) : site = s.remaining := by
  obtain ⟨u, u', leads', step', rfl, fresh', found'⟩ := declaredAt
  have lost : ∀ {a a' b : AnalysisState}, start.Leads a → CleanStep a a' → a.Leads b →
      a'.environment.declared.definition? o = some d →
      b.environment.declared.definition? o = none → a = b := by
    intro a a' b leads step toward found fresh
    rcases Leads.eq_or_head toward step with same | toward
    · exact same
    · obtain ⟨idle, outer, _⟩ := Leads.extends (.tail leads step) pass idle outer
      have pass : a'.declaring = true :=
        (Leads.declaring (.tail leads step : start.Leads a')).trans pass
      rw [(Leads.extends toward pass idle outer).2.2.definitions o d found] at fresh
      cases fresh
  rcases Relation.ReflTransGen.total_of_right_unique rightUnique_cleanStep leads leads' with
    toward | toward
  · rw [lost leads step toward found fresh']
  · rw [lost leads' step' toward found' fresh]

theorem atBody_of_signature? {head : Token} {rest later : List Token} {sig : Signature}
    (takes : s.Takes head rest later) (found : s.environment.signature? (head :: rest) = some sig) :
    s.AtBody := by
  obtain ⟨mods, first, tail, read, kind | ⟨kind, ends⟩⟩ := Environment.body_of_signature? found
  · exact ⟨head, rest, later, mods, first, tail, takes, read, by simp [statementSort, kind]⟩
  · exact ⟨head, rest, later, mods, first, tail, takes, read, statementSort_body kind ends⟩

namespace Passed

variable (passed : Passed first last second final)

include passed

theorem proper : last.environment.declared.Proper :=
  (Leads.extends passed.declares passed.starts.declaring passed.starts.idle.1
    passed.starts.outer).2.1.proper

theorem follow (mirror : s.Mirror t) (step : CleanStep s s') (toward : s'.Leads last)
    (toT : second.Leads t) (filled : last.environment.declared.Fills t.environment.modules) :
    ∃ v, s.Follows s' t v ∧ s'.Mirror v := by
  have toEnd := Leads.to_end toT passed.enters passed.ended.2
  have left : final.remaining ≠ t.remaining := by
    have fewer := step.moves.remaining_lt
    rw [passed.ended.2, mirror.remaining]
    intro empty
    rw [← empty] at fewer
    cases fewer
  obtain ⟨u, second', toFinal⟩ := toEnd.head_of_remaining left
  by_cases header : s.AtBody
  · obtain ⟨v, follows, mirror, _⟩ := mirror.skip step second' header toFinal passed.closed
    exact ⟨v, follows, mirror⟩
  · obtain ⟨declaring, idle, outer⟩ := step.moves.mirror mirror
    have kept := (Leads.extends toward declaring idle outer).2.2
    exact ⟨u, mirror.step step second' ⟨passed.proper, kept, filled⟩ header⟩

-- The second pass comes by wherever the first one does.
theorem tour (leads : first.Leads s) (toward : s.Leads last) :
    ∃ t, second.Leads t ∧ s.Mirror t ∧
      last.environment.declared.Fills t.environment.modules ∧
      (HeadersAgree first second → Filled first second last.environment.declared s t) := by
  induction leads with
  | refl =>
      refine ⟨second, .refl, passed.starts, ?_, ?_⟩
      · rw [passed.given]
        exact ModuleTree.fills_refl _
      · intro _ o d found
        refine ⟨fun _ => by rw [passed.given]; exact found, ?_⟩
        intro declared
        rw [passed.fresh] at declared
        cases declared
  | @tail b c leads step ih =>
      obtain ⟨t, toT, mirror, fills, filled⟩ := ih (.head step toward)
      obtain ⟨v, follows, mirror'⟩ := passed.follow mirror step toward toT fills
      refine ⟨v, Relation.ReflTransGen.trans toT follows.leads, mirror', follows.fills fills, ?_⟩
      exact fun agree => follows.filled agree mirror leads step toT (filled agree)

theorem tour_end : last.environment.declared.Fills final.environment.modules ∧
    (HeadersAgree first second →
      Filled first second last.environment.declared last final) := by
  obtain ⟨t, toT, mirror, fills, filled⟩ := passed.tour passed.declares .refl
  have empty : final.remaining = t.remaining := by
    rw [passed.ended.2, mirror.remaining, passed.ended.1]
  cases Leads.unique toT passed.enters empty
  exact ⟨fills, filled⟩

-- If the headers mean the same, the bodies belong to their declarations.
theorem bodies_of_headers (agree : HeadersAgree first second) :
    BodiesAgree first second final.environment.modules := by
  obtain ⟨fills, filled⟩ := passed.tour_end
  intro o d holds bodied
  have found := holds.definition? (fills.proper passed.proper)
  cases declared : last.environment.declared.definition? o with
  | none =>
      rcases fills.definitions o with same | ⟨_, same⟩
      · rw [same, declared] at found
        cases found
      · rw [same, declared] at found
        cases found
  | some d' =>
      rcases (filled agree o d' declared).2 declared with
        ⟨native, same⟩ | ⟨site, body, declaredAt, builtAt, pending, records, same⟩
      · rw [same] at found
        cases found
        rw [native] at bodied
        cases bodied
      · rw [same] at found
        cases found
        have whole : { d' with body := .pending } = d' := by rw [← pending]
        exact ⟨site, body, by rw [← whole] at declaredAt; exact declaredAt, builtAt, rfl, records⟩

-- What the first pass declares is in the tree at the end, but for its body.
theorem holds {o : BodyOwner} {d : FunctionDefinition}
    (declared : last.environment.declared.definition? o = some d) (pending : d.body = .pending) :
    ∃ d', final.environment.modules.Holds o d' ∧ d'.paramTypes = d.paramTypes ∧
      d'.returnType = d.returnType ∧ { d' with body := .pending } = d ∧ d'.isNative = false := by
  have fills := passed.tour_end.1
  have whole : { d with body := .pending } = d := by rw [← pending]
  rcases fills.definitions o with same | ⟨body, same⟩
  · rw [declared] at same
    exact ⟨d, ModuleTree.holds_of_definition? same, rfl, rfl, whole, by
      simp [FunctionDefinition.isNative, pending]⟩
  · rw [declared] at same
    exact ⟨_, ModuleTree.holds_of_definition? same, rfl, rfl, whole, rfl⟩

-- The body of a function shows what its header means in the second pass.
theorem headers_of_bodies (agree : BodiesAgree first second final.environment.modules) :
    HeadersAgree first second := by
  intro s t head rest later a b toS toT same takes sig sig'
  have toLast := Leads.to_end toS passed.declares passed.ended.1
  obtain ⟨s', step, toward⟩ := toLast.head_of_remaining (by
    rw [passed.ended.1, takes.split.1]
    simp)
  obtain ⟨t', toT', mirror, fills, _⟩ := passed.tour toS toLast
  have place : t' = t := Leads.unique toT toT' (mirror.remaining.trans same.symm)
  cases place
  obtain ⟨v, follows, _⟩ := passed.follow mirror step toward toT fills
  cases follows with
  | step header => exact absurd (atBody_of_signature? takes sig) header
  | @body u owner owner' known known' d _ bodies =>
      obtain ⟨head', rest', later', takes', first', second'⟩ := bodies.signatures
      obtain ⟨rfl, rfl, rfl⟩ := takes.unique takes' rfl
      rw [sig] at first'
      cases first'
      rw [sig'] at second'
      cases second'
      have found : s'.environment.declared.definition? owner = some d := by
        rw [bodies.declares.definitions]
        simp [ModuleTree.afterAdding]
      obtain ⟨declaring, idle, outer⟩ := step.moves.mirror mirror
      have inLast := (Leads.extends toward declaring idle outer).2.2.definitions owner d found
      obtain ⟨final', holds, types, returns, pending, bodied⟩ :=
        passed.holds inLast bodies.pending
      obtain ⟨site, body, declaredAt, builtAt, _, records⟩ := agree owner final' holds bodied
      rw [pending] at declaredAt
      have here := declaredAt.unique passed.starts.declaring passed.starts.idle.1
        passed.starts.outer toS step (bodies.declares.fresh owner d rfl) found
      obtain ⟨t', u', toT', enters, remaining, _, builds⟩ := builtAt
      have place : t' = t := Leads.unique toT toT' (by rw [remaining, here, same])
      cases place
      rw [← rightUnique_cleanStep bodies.enters enters] at builds
      have shown := (bodies.records body builds).unique records
      have declared : (⟨d.paramTypes, d.returnType⟩ : Signature) = a := by
        rw [bodies.types.1, bodies.types.2]
      rw [shown, types, returns, declared]

end Passed

end AnalysisState

namespace Analysis

open AnalysisState

-- Where the first pass starts.
def declarationsStart (host : Host) (maxErrors : Nat) (tokens : List Token) : AnalysisState :=
  startPass ⟨.declarations, host⟩ .empty { maxErrors } tokens

-- Where the second pass starts.
def bodiesStart (host : Host) (maxErrors : Nat) (tokens : List Token) : AnalysisState :=
  let first := runPass ⟨.declarations, host⟩ .empty { maxErrors } tokens
  startPass ⟨.bodies, host⟩ first.environment.modules first.log tokens

theorem titles_startPass (setting : Setting) (modules : ModuleTree) (log : DiagnosticLog)
    (tokens : List Token) :
    (startPass setting modules log tokens).environment.titles = [.module ModuleTree.root] := rfl

theorem outer_startPass (setting : Setting) (log : DiagnosticLog) (tokens : List Token) :
    (startPass setting .empty log tokens).environment.Outer := by
  have declared : (startPass setting .empty log tokens).environment.declared = .empty := rfl
  have titles := titles_startPass setting .empty log tokens
  refine ⟨?_, by rw [declared]; exact ModuleTree.proper_empty, ?_⟩
  · rw [titles]
    exact ⟨_, [], rfl, rfl, by simp, rfl⟩
  · rw [titles, declared]
    intro title member id found
    rw [List.mem_singleton.mp member] at found
    cases found
    exact ModuleTree.proper_empty.root

theorem declared_of_closed {env : Environment} (outside : Title.Outside env.titles)
    (closed : env.scopes.opened = []) : env.declared = env.modules := by
  have titles : env.titles = [env.scopes.base.title] := by
    simp [Environment.titles, ScopeStack.all, closed]
  have top := (Environment.title_frame outside).2.2
  obtain ⟨_, _, _, _, _, last⟩ := outside
  rw [titles] at top last
  simp only [List.head?_cons, List.getLast?_singleton, Option.some.injEq] at top last
  rw [last] at top
  exact Environment.declared_of_isModule (Environment.isModule_of_title (by rw [← top]; rfl))

theorem passed_of_accepted {host : Host} {maxErrors : Nat} {tokens : List Token}
    (accepted : (ofTokens host maxErrors tokens).isOk = true) :
    ∃ last final, Passed (declarationsStart host maxErrors tokens) last
        (bodiesStart host maxErrors tokens) final ∧
      (ofTokens host maxErrors tokens).modules = final.environment.modules := by
  obtain ⟨firstClean, secondClean⟩ := isOk_iff.mp accepted
  have failed : (runPass ⟨.declarations, host⟩ .empty { maxErrors } tokens).log.failed = false :=
    firstClean
  obtain ⟨declares, ended, closed, _⟩ := runPass_leads firstClean
  obtain ⟨enters, ended', closed', _⟩ := runPass_leads secondClean
  have outer := outer_startPass ⟨.declarations, host⟩ { maxErrors } tokens
  have later := (Leads.extends declares rfl rfl outer).2.1
  refine ⟨_, _, ⟨⟨rfl, rfl, rfl, rfl, ⟨rfl, rfl⟩, outer⟩, ModuleTree.definition?_empty, declares,
    enters, (declared_of_closed later.outside closed).symm, ⟨ended, ended'⟩, ?_⟩, ?_⟩
  · simp [ScopeStack.depth, closed']
  · simp [ofTokens, failed]

/-- In an accepted program, the bodies belong to their declarations exactly if the headers mean the
same among the declarations before them as among all. -/
theorem bodiesAgree_iff {host : Host} {maxErrors : Nat} {tokens : List Token}
    (accepted : (ofTokens host maxErrors tokens).isOk = true) :
    BodiesAgree (declarationsStart host maxErrors tokens) (bodiesStart host maxErrors tokens)
        (ofTokens host maxErrors tokens).modules ↔
      HeadersAgree (declarationsStart host maxErrors tokens)
        (bodiesStart host maxErrors tokens) := by
  obtain ⟨last, final, passed, modules⟩ := passed_of_accepted accepted
  rw [modules]
  exact ⟨passed.headers_of_bodies, passed.bodies_of_headers⟩

-- The program `module a { class E { } module b { fn f (E x) { } enum E { A; } } }`. The enum is
-- declared behind the header that it changes the meaning of.
def shadowingProgram : List Token :=
  [Token.alone (.keyword .module) "module", .alone .identifier "a", .alone .leftBrace "\x7b",
    .alone (.keyword .«class») "class", .alone .identifier "E", .alone .leftBrace "\x7b",
    .alone .rightBrace "\x7d", .alone (.keyword .module) "module", .alone .identifier "b",
    .alone .leftBrace "\x7b", .alone (.keyword .fn) "fn", .alone .identifier "f",
    .alone .leftParen "(", .alone .identifier "E", .alone .identifier "x",
    .alone .rightParen ")", .alone .leftBrace "\x7b", .alone .rightBrace "\x7d",
    .alone (.keyword .enum) "enum", .alone .identifier "E", .alone .leftBrace "\x7b",
    .alone .identifier "A", .alone .semicolon ";", .alone .rightBrace "\x7d",
    .alone .rightBrace "\x7d", .alone .rightBrace "\x7d"]

-- The function `f` is left without the body that is written behind its header.
theorem shadowingProgram_pending :
    ∃ d, (ofTokens {} 100 shadowingProgram).modules.Holds
      (.function (.module ⟨2⟩) "f" [.named "a.E"]) d ∧ d.body = .pending := by
  have found : ((ofTokens {} 100 shadowingProgram).modules.definition?
      (.function (.module ⟨2⟩) "f" [.named "a.E"])).any (fun d => d.body matches .pending) =
        true := by
    decide +kernel
  cases inTree : (ofTokens {} 100 shadowingProgram).modules.definition?
      (.function (.module ⟨2⟩) "f" [.named "a.E"]) with
  | none =>
      rw [inTree] at found
      cases found
  | some d =>
      rw [inTree, Option.any_some] at found
      refine ⟨d, ModuleTree.holds_of_definition? inTree, ?_⟩
      split at found
      next pending => exact pending
      next => cases found

theorem shadowingProgram_disagrees :
    (ofTokens {} 100 shadowingProgram).isOk = true ∧
      ¬BodiesAgree (declarationsStart {} 100 shadowingProgram)
        (bodiesStart {} 100 shadowingProgram) (ofTokens {} 100 shadowingProgram).modules := by
  refine ⟨by decide +kernel, ?_⟩
  intro agree
  obtain ⟨d, holds, pending⟩ := shadowingProgram_pending
  obtain ⟨_, _, _, _, body, _⟩ := agree _ d holds (by simp [FunctionDefinition.isNative, pending])
  rw [pending] at body
  cases body

-- The header of `f` is what has two meanings.
theorem shadowingProgram_headers :
    (ofTokens {} 100 shadowingProgram).isOk = true ∧
      ¬HeadersAgree (declarationsStart {} 100 shadowingProgram)
        (bodiesStart {} 100 shadowingProgram) := by
  have accepted : (ofTokens {} 100 shadowingProgram).isOk = true := by decide +kernel
  refine ⟨accepted, ?_⟩
  intro agree
  obtain ⟨d, holds, pending⟩ := shadowingProgram_pending
  obtain ⟨_, _, _, _, body, _⟩ := (bodiesAgree_iff accepted).mpr agree _ d holds
    (by simp [FunctionDefinition.isNative, pending])
  rw [pending] at body
  cases body

end Analysis

end MiLanguage
