import MiLanguage.Proofs.Outline.Accounted
import MiLanguage.Proofs.Reach.Hosts
import MiLanguage.Proofs.Reach.Warnings

set_option autoImplicit false

namespace MiLanguage

theorem NodeKind.isBody_eq {kind : NodeKind} (other : kind ≠ .forFakeScope) :
    kind.isBody = kind.isBlock := by
  cases kind <;> first | rfl | exact absurd rfl other

namespace Node

variable {n : Node} {ns more : List Node}

def bodiesAll (ns : List Node) : List Node := (preorderAll ns).filter (·.kind.isBody)

-- The blocks of statements in a tree, in the order of its text.
def bodies (n : Node) : List Node := n.preorder.filter (·.kind.isBody)

@[simp] theorem bodiesAll_nil : bodiesAll [] = [] := by simp [bodiesAll]

@[simp] theorem bodiesAll_cons (n : Node) (ns : List Node) :
    bodiesAll (n :: ns) = n.bodies ++ bodiesAll ns := by
  simp [bodiesAll, bodies]

@[simp] theorem bodiesAll_append (ns more : List Node) :
    bodiesAll (ns ++ more) = bodiesAll ns ++ bodiesAll more := by
  induction ns with
  | nil => simp
  | cons n ns ih => simp [ih]

theorem bodies_eq (n : Node) :
    n.bodies = (if n.kind.isBody then [n] else []) ++ bodiesAll n.children := by
  rw [bodies, preorder_eq, List.filter_cons]
  split <;> rfl

theorem Seated.bodies_plain (seated : n.Seated) (plain : n.kind.isHost = false) : n.bodies = [] := by
  rw [bodies, List.filter_eq_nil_iff]
  intro m member body
  have host := NodeKind.isHost_of_isBody body
  rw [seated.plain_below plain m member] at host
  cases host

theorem bodiesAll_plain (seated : ∀ n ∈ ns, n.Seated) (plain : ∀ n ∈ ns, n.kind.isHost = false) :
    bodiesAll ns = [] := by
  induction ns with
  | nil => simp
  | cons n ns ih =>
      obtain ⟨first, rest⟩ := List.forall_mem_cons.mp seated
      obtain ⟨here, later⟩ := List.forall_mem_cons.mp plain
      rw [bodiesAll_cons, first.bodies_plain here, ih rest later, List.append_nil]

theorem Seated.children (seated : n.Seated) : ∀ c ∈ n.children, c.Seated := by
  cases seated with
  | plain _ inert => exact fun c member => (inert c member).seated
  | host _ seated => exact seated

end Node

namespace Outline

variable {inEnum inBlock : Bool} {o : Outline} {ns : List Node}

theorem Shown.texts (shown : Shown inEnum o ns) (whole : o.Whole inBlock false)
    (seated : ∀ n ∈ ns, n.Seated) : List.Forall₂ Node.HasText (Node.bodiesAll ns) o.bodies := by
  induction shown generalizing inBlock with
  | nil => simp [bodies]
  | @statement inEnum tokens n rest ns kind _ behind ih =>
      obtain ⟨here, whole⟩ := whole
      obtain ⟨first, later⟩ := List.forall_mem_cons.mp seated
      have plain : n.kind.isHost = false := by
        rw [← any_isHost_eq kind]
        exact (here rfl).1
      rw [Node.bodiesAll_cons, first.bodies_plain plain]
      exact ih whole later
  | @block inEnum header inner brace n front body rest ns kind notFor notDo _ children heads
      inside behind ihInner ih =>
      obtain ⟨host, inWhole, whole⟩ := whole
      obtain ⟨first, later⟩ := List.forall_mem_cons.mp seated
      have parts := first.children
      rw [children] at parts
      obtain ⟨inFront, inBody⟩ := List.forall_mem_append.mp parts
      have plain : ∀ c ∈ front, c.kind.isHost = false := by
        intro c member
        refine (headerKinds_plain n.kind c.kind ?_).1
        rw [← heads]
        exact List.mem_map_of_mem member
      have own : List.Forall₂ Node.HasText (if n.kind.isBody then [n] else [])
          (if opensBlock header then [inner] else []) := by
        rw [NodeKind.isBody_eq notFor, opensBlock_eq kind]
        split
        next isBlock =>
          refine .cons ?_ .nil
          have noEnum : n.kind ≠ .createEnum := by
            intro same
            rw [same] at isBlock
            cases isBlock
          rw [decide_eq_false noEnum] at inside
          exact Node.hasText_of_shown front [] (by rw [children, List.append_nil]) heads
            (by simp [notDo]) inside inWhole
        next => exact .nil
      simp only [opensDo_eq kind, notDo, decide_false] at whole
      rw [Node.bodiesAll_cons, Node.bodies_eq, children, Node.bodiesAll_append,
        Node.bodiesAll_plain inFront plain, List.nil_append, List.append_assoc]
      exact List.rel_append own (List.rel_append (ihInner inWhole inBody) (ih whole later))
  | @forLoop inEnum header inner brace n start condition step loop rest ns kind isFor children
      starts conditions steps isLoop inside behind ihInner ih =>
      obtain ⟨_, inWhole, whole⟩ := whole
      obtain ⟨first, later⟩ := List.forall_mem_cons.mp seated
      have parts := first.children
      rw [children] at parts
      simp only [List.forall_mem_cons] at parts
      obtain ⟨start', condition', step', loop', _⟩ := parts
      have opens : opensBlock header = true := by
        rw [opensBlock_eq kind, isFor]
        rfl
      have text : loop.HasText inner :=
        Node.hasText_of_shown [] [] (by simp) (by rw [isLoop]; rfl)
          (by simp [isLoop]) inside inWhole
      simp only [opensDo_eq kind, isFor, reduceCtorEq, decide_false] at whole
      have nodes : n.bodies = loop :: Node.bodiesAll loop.children := by
        rw [Node.bodies_eq, isFor, children]
        simp only [Node.bodiesAll_cons, start'.bodies_plain (by rw [starts]; rfl),
          condition'.bodies_plain (by rw [conditions]; rfl),
          step'.bodies_plain (by rw [steps]; rfl), Node.bodiesAll_nil, loop.bodies_eq, isLoop]
        simp [NodeKind.isBody]
      rw [Node.bodiesAll_cons, nodes, bodies, opens]
      exact .cons text (List.rel_append (ihInner inWhole loop'.children) (ih whole later))
  | @doLoop inEnum header trailer inner brace n condition body rest ns kind isDo _ _ children
      conditions inside behind ihInner ih =>
      obtain ⟨_, inWhole, _, whole⟩ := whole
      obtain ⟨first, later⟩ := List.forall_mem_cons.mp seated
      have parts := first.children
      rw [children] at parts
      obtain ⟨inBody, last⟩ := List.forall_mem_append.mp parts
      have opens : opensBlock header = true := by
        rw [opensBlock_eq kind, isDo]
        rfl
      have text : n.HasText inner :=
        Node.hasText_of_shown [] [condition] children (by rw [isDo]; rfl)
          (by simp [isDo, conditions]) inside inWhole
      have nodes : n.bodies = n :: Node.bodiesAll body := by
        rw [Node.bodies_eq, isDo, children, Node.bodiesAll_append, Node.bodiesAll_cons,
          (last condition (by simp)).bodies_plain (by rw [conditions]; rfl)]
        simp [NodeKind.isBody]
      rw [Node.bodiesAll_cons, nodes, bodies, opens]
      exact .cons text (List.rel_append (ihInner inWhole inBody) (ih whole later))

end Outline

namespace Environment

theorem Reads.quiet {setting : Setting} {waiting : Option Node} {env last : Environment}
    {o : Outline} {alarms : List Token} (reads : Reads setting waiting env o last alarms)
    (pass : setting.declaring = true) : alarms = [] := by
  have silent : ∀ {env warned : Environment} {first : Token} {here : List Token},
      env.Checks setting first warned here → here = [] := by
    intro env warned first here checks
    cases checks with
    | reached => rfl
    | unreached bodies => simp [pass] at bodies
  induction reads with
  | nil => rfl
  | statement checks _ _ _ ih => rw [silent checks, ih, List.nil_append]
  | passed checks _ _ _ _ ih => rw [silent checks, ih, List.nil_append]
  | block checks _ _ _ _ _ _ _ ihInner ih => rw [silent checks, ihInner, ih]; rfl
  | completes _ _ _ _ ih => exact ih

end Environment

theorem DiagnosticLog.warnings_reportAll {log : DiagnosticLog} {ds : List Diagnostic}
    (harmless : ∀ d ∈ ds, d.isError = false) : (log.reportAll ds).warnings = log.warnings ++ ds := by
  induction ds generalizing log with
  | nil => simp
  | cons d ds ih =>
      obtain ⟨first, later⟩ := List.forall_mem_cons.mp harmless
      have reported : (log.report d).warnings = log.warnings ++ [d] := by
        simp [report, first, warnings]
      rw [reportAll_cons, ih later, reported, List.append_assoc, List.singleton_append]

namespace Analysis

variable {host : Host} {maxErrors : Nat} {tokens : List Token}

/-- Each block of statements that has dead code gets one warning, where that starts, and nothing
else gets any. -/
theorem unreachable_exact (accepted : (ofTokens host maxErrors tokens).isOk = true) :
    ∃ o, Outline.ofTokens? tokens = some o ∧
      List.Forall₂ Node.HasText (ofTokens host maxErrors tokens).root.bodies o.bodies ∧
      (ofTokens host maxErrors tokens).log.warnings.Perm
        ((o.bodies.filterMap (Outline.dead? false false)).map Diagnostic.unreachable) := by
  obtain ⟨firstClean, secondClean⟩ := isOk_iff.mp accepted
  obtain ⟨o, _, outline, _, logged, reads⟩ := runPass_reads firstClean
  obtain ⟨complete, gains⟩ := runPass_declares rfl firstClean outline
  obtain ⟨ns, alarms, root, shown, _, log, enters⟩ :=
    runPass_shown rfl secondClean outline complete gains.arena gains.declaredBy
  obtain ⟨whole, found, _⟩ := enters.alarms (m := {}) rfl rfl
  have typed := (runPass_wellTyped ⟨.declarations, host⟩ ModuleTree.wellTyped_empty { maxErrors }
    tokens).environment.modules
  have seated := (runPass_seated typed secondClean).children
  have quiet : (runPass ⟨.declarations, host⟩ .empty { maxErrors } tokens).log = { maxErrors } := by
    rw [logged, reads.quiet rfl]
    rfl
  have failed : (runPass ⟨.declarations, host⟩ .empty { maxErrors } tokens).log.failed = false :=
    firstClean
  refine ⟨o, outline, ?_⟩
  simp only [ofTokens, failed, Bool.false_eq_true, if_false]
  rw [root] at seated ⊢
  constructor
  · exact shown.texts whole seated
  · have harmless : ∀ d ∈ AnalysisState.warnings alarms, d.isError = false := by
      intro d member
      obtain ⟨first, _, rfl⟩ := List.mem_map.mp member
      rfl
    have outside : o.Whole false false := whole
    have all : (o.alarms false false false).Perm
        ((o.dead? false false).toList ++ o.bodies.filterMap (Outline.dead? false false)) :=
      outside.alarms_perm (by simp) (by simp)
    rw [outside.dead?_eq_none, ← show alarms = o.alarms false false false from found] at all
    rw [log, quiet, DiagnosticLog.warnings_reportAll harmless]
    exact all.map Diagnostic.unreachable

-- The program `module m { fn f { while (true) { break; int x = 1; } ret; } }`.
def brokenOffProgram : List Token :=
  [Token.alone (.keyword .module) "module", .alone .identifier "m", .alone .leftBrace "\x7b",
    .alone (.keyword .fn) "fn", .alone .identifier "f", .alone .leftBrace "\x7b",
    .alone (.keyword .«while») "while", .alone .leftParen "(", .alone (.literal .yes) "true",
    .alone .rightParen ")", .alone .leftBrace "\x7b", .alone (.keyword .«break») "break",
    .alone .semicolon ";", .alone (.datatype .int) "int", .alone .identifier "x",
    .alone .assign "=", .alone (.literal .int) "1", .alone .semicolon ";",
    .alone .rightBrace "\x7d", .alone (.keyword .ret) "ret", .alone .semicolon ";",
    .alone .rightBrace "\x7d", .alone .rightBrace "\x7d"]

theorem brokenOffProgram_unreachable :
    (ofTokens {} 100 brokenOffProgram).isOk = true ∧
      (ofTokens {} 100 brokenOffProgram).log.warnings =
        [.unreachable (.alone (.datatype .int) "int")] ∧
      ∃ o, Outline.ofTokens? brokenOffProgram = some o ∧
        List.Forall₂ Node.HasText (ofTokens {} 100 brokenOffProgram).root.bodies o.bodies ∧
        (ofTokens {} 100 brokenOffProgram).log.warnings.Perm
          ((o.bodies.filterMap (Outline.dead? false false)).map Diagnostic.unreachable) := by
  have accepted : (ofTokens {} 100 brokenOffProgram).isOk = true := by decide +kernel
  exact ⟨accepted, by decide +kernel, unreachable_exact accepted⟩

end Analysis

end MiLanguage
