import MiLanguage.Proofs.Isolation.Heading
import MiLanguage.Proofs.Likeness.Run
import MiLanguage.Proofs.Passes.InStep
import MiLanguage.Proofs.Relocation.Reformatting
import MiLanguage.Proofs.Uses.Exchange
import MiLanguage.Proofs.Writes.Closing

set_option autoImplicit false

namespace MiLanguage

section Nodes

variable {header m n : Node} {run others : List Node}

/-- Two trees that differ in one node at most, which has `header` as its head and `run` next in the
one tree, `others` in the other. -/
inductive Node.Rebodied (header : Node) (run others : List Node) : Node → Node → Prop
  | here (back : List Node) :
      Rebodied header run others (header.withChildren (run ++ back))
        (header.withChildren (others ++ back))
  | inside {c d : Node} (n : Node) (front back : List Node) :
      Rebodied header run others c d →
      Rebodied header run others { n with children := front ++ c :: back }
        { n with children := front ++ d :: back }

theorem Node.Rebodied.withChildren (rebodied : Node.Rebodied header run others m n) (more : List Node) :
    Node.Rebodied header run others (m.withChildren more) (n.withChildren more) := by
  cases rebodied with
  | here back =>
      rw [Node.withChildren_withChildren, Node.withChildren_withChildren, List.append_assoc,
        List.append_assoc]
      exact .here (back ++ more)
  | inside n front back rebodied =>
      simp only [Node.withChildren, List.append_assoc, List.cons_append]
      exact .inside n front (back ++ more) rebodied

theorem Node.Rebodied.nest (rebodied : Node.Rebodied header run others m n) (around : Node) :
    Node.Rebodied header run others (around.push m) (around.push n) :=
  .inside around around.children [] rebodied

end Nodes

section Marks

-- The same variable. Whether it has a value may differ if it is mutable, and makes no difference
-- then.
def Variable.MarkedApart (v w : Variable) : Prop :=
  w = { v with initialized := w.initialized } ∧
    (w.initialized = v.initialized ∨ v.modifiers.isMutable = true)

theorem Variable.markedApart_refl (v : Variable) : v.MarkedApart v := ⟨rfl, .inl rfl⟩

theorem Variable.MarkedApart.canAssign {v w : Variable} (apart : v.MarkedApart w) :
    w.canAssign = v.canAssign := by
  obtain ⟨same, marked⟩ := apart
  have modifiers : w.modifiers = v.modifiers := by rw [same]
  unfold Variable.canAssign Modifiers.canAssign
  rw [modifiers]
  rcases marked with same | mutable
  · rw [same]
  · rw [mutable, Bool.true_or, Bool.true_or]

theorem Variable.MarkedApart.marked {v w : Variable} (apart : v.MarkedApart w) :
    ({ v with initialized := true } : Variable).MarkedApart { w with initialized := true } := by
  refine ⟨?_, .inl rfl⟩
  rw [apart.1]

-- What is not mutable is as it was.
def SymbolTable.Spares (old new : SymbolTable Variable) : Prop :=
  ∀ name v, old.find? name = some v → v.modifiers.isMutable = false → new.find? name = some v

theorem SymbolTable.spares_refl (t : SymbolTable Variable) : t.Spares t := fun _ _ found _ => found

theorem SymbolTable.Spares.trans {a b c : SymbolTable Variable} (first : a.Spares b)
    (second : b.Spares c) : a.Spares c :=
  fun name v found fixed => second name v (first name v found fixed) fixed

-- Marks in two runs, none of which is on a variable that is not mutable.
theorem SymbolTable.Marked.apart {old a b : SymbolTable Variable} (first : old.Marked a)
    (second : old.Marked b) (spares : old.Spares a) (spares' : old.Spares b) :
    SymbolTable.Like (fun _ => Variable.MarkedApart) a b := by
  intro name
  cases found : old.find? name with
  | none =>
      have stays {new : SymbolTable Variable} (marked : old.Marked new) : new.find? name = none := by
        rcases marked name with same | ⟨v, held, -⟩
        · rw [same, found]
        · rw [found] at held
          cases held
      rw [stays first, stays second]
      exact .none
  | some v =>
      have here {new : SymbolTable Variable} (marked : old.Marked new) (spares : old.Spares new) :
          ∃ w, new.find? name = some w ∧ w = { v with initialized := w.initialized } ∧
            (w.initialized = v.initialized ∨ v.modifiers.isMutable = true) := by
        cases mutable : v.modifiers.isMutable with
        | false => exact ⟨v, spares name v found mutable, rfl, .inl rfl⟩
        | true =>
            rcases marked name with same | ⟨w, held, marked⟩
            · exact ⟨v, same.trans found, rfl, .inr rfl⟩
            · rw [found, Option.some.injEq] at held
              subst held
              exact ⟨_, marked, rfl, .inr rfl⟩
      obtain ⟨w, foundW, sameW, markW⟩ := here first spares
      obtain ⟨u, foundU, sameU, markU⟩ := here second spares'
      rw [foundW, foundU]
      refine .some ⟨?_, ?_⟩
      · rw [sameU, sameW]
      · have modifiers : w.modifiers = v.modifiers := by rw [sameW]
        rw [modifiers]
        rcases markU with same | mutable
        · rcases markW with same' | mutable
          · exact .inl (same.trans same'.symm)
          · exact .inr mutable
        · exact .inr mutable

namespace Environment

variable {env after last : Environment}

/-- Neither a global nor a field of the class that is open has been stored to, unless it is
`mut`. -/
structure Spares (env after : Environment) : Prop where
  globals : ∀ id,
    (env.modules.get id).members.globals.Spares (after.modules.get id).members.globals
  fields : ∀ id c, env.scopes.class? = some (id, c) →
    ∃ d, after.scopes.class? = some (id, d) ∧ c.fields.Spares d.fields

theorem Spares.trans (first : env.Spares after) (second : after.Spares last) : env.Spares last := by
  refine ⟨fun id => (first.globals id).trans (second.globals id), fun id c around => ?_⟩
  obtain ⟨d, around', spared⟩ := first.fields id c around
  obtain ⟨e, around', spared'⟩ := second.fields id d around'
  exact ⟨e, around', spared.trans spared'⟩

theorem Spares.idles (spares : env.Spares last) (idles : after.Idles last) : env.Spares after := by
  have classes : last.scopes.class? = after.scopes.class? :=
    class?_of_frames (idles.scopes.imp fun _ _ idle => idle.class?)
  refine ⟨fun id => ?_, fun id c around => ?_⟩
  · rw [← idles.globals id]
    exact spares.globals id
  · rw [← classes]
    exact spares.fields id c around

end Environment

end Marks

theorem DiagnosticLog.entries_report_of_unlimited (log : DiagnosticLog) (free : log.maxErrors = 0)
    (d : Diagnostic) : (log.report d).entries = log.entries ++ [d] := by
  unfold DiagnosticLog.report
  cases d.isError <;> simp [DiagnosticLog.isFull, free]

-- Two analyses that differ in the body of one function: in its node, in what is stored of it, in
-- what is reported while it is read, and in the marks on mutable variables.
def Slack.contained (header : Node) (run others : List Node) (owner : Option BodyOwner)
    (mine theirs : List Diagnostic) : Slack where
  exact := true
  marked := true
  vars _ _ := Variable.MarkedApart
  overloads o name := List.Forall₂ fun f g =>
    f.Rebuilt (Node.Rebodied header run others) (owner = some (.function o name f.paramTypes)) g
  constructors o f g :=
    f.Rebuilt (Node.Rebodied header run others) (o.constructor?.isSome ∧ owner = o.constructor?) g
  nodes := Node.Rebodied header run others
  bodies o := owner = some o
  logs l k := l.maxErrors = 0 ∧ k.maxErrors = 0 ∧
    ∃ later, l.entries = mine ++ later ∧ k.entries = theirs ++ later
  vars_same apart := ⟨apart.1, apart.canAssign, fun unmarked => by cases unmarked⟩
  vars_marked apart := apart.marked
  overloads_none _ _ := .nil
  overloads_perm related :=
    .of_eq (FunctionDefinition.Rebuilt.all_bare (fun _ _ rebuilt => rebuilt.bare) related)
  overloads_filled {o name types m n fs gs} related bodies :=
    FunctionDefinition.Rebuilt.all_filled
      (fun types => owner = some (.function o name types)) related bodies
  constructors_filled rebuilt bodies :=
    rebuilt.filled (bodies.imp id fun found => ⟨found.1, rfl, found.2⟩)
  nodes_push child rebodied := rebodied.withChildren [child]
  nodes_nest around rebodied := rebodied.nest around
  logs_report {l k} d related := by
    obtain ⟨free, free', later, left, right⟩ := related
    refine ⟨(l.maxErrors_report d).trans free, (k.maxErrors_report d).trans free', later ++ [d], ?_, ?_⟩
    · rw [l.entries_report_of_unlimited free, left, List.append_assoc]
    · rw [k.entries_report_of_unlimited free', right, List.append_assoc]
  logs_error inexact := by cases inexact
  logs_warning inexact := by cases inexact

section Body

variable {header : Node} {run others : List Node} {owner : Option BodyOwner}
  {mine theirs : List Diagnostic}

theorem Slack.reflexive_contained : (Slack.contained header run others owner mine theirs).Reflexive where
  vars _ _ v := v.markedApart_refl
  overloads _ _ _ := List.forall₂_same.mpr fun _ _ => .same
  constructors _ _ := .same

theorem SymbolTable.marked_refl (t : SymbolTable Variable) : t.Marked t := fun _ => .inl rfl

-- Only marks on globals have been set.
theorem ModuleTree.Updated.get {old new : ModuleTree} (updated : old.Updated new) :
    new.size = old.size ∧ ∀ id, ∃ globals, (old.get id).members.globals.Marked globals ∧
      new.get id = { old.get id with members := { (old.get id).members with globals } } := by
  induction updated with
  | refl => exact ⟨rfl, fun id => ⟨_, SymbolTable.marked_refl _, rfl⟩⟩
  | @marked id name new _ ih =>
      obtain ⟨size, same⟩ := ih
      refine ⟨by rw [ModuleTree.modifyVariable, ModuleTree.size_modifyMembers, size], fun other => ?_⟩
      obtain ⟨globals, marked, here⟩ := same other
      unfold ModuleTree.modifyVariable ModuleTree.modifyMembers
      rw [ModuleTree.get_modify_eq]
      split
      next standing =>
        rw [← standing.1, here]
        exact ⟨_, marked.trans (globals.marked_modify name), rfl⟩
      next => exact ⟨globals, marked, here⟩

theorem ModuleTree.Updated.contained {old a b : ModuleTree} (first : old.Updated a)
    (second : old.Updated b) (proper : old.Proper)
    (spares : ∀ id, (old.get id).members.globals.Spares (a.get id).members.globals)
    (spares' : ∀ id, (old.get id).members.globals.Spares (b.get id).members.globals) :
    a.Like (.contained header run others owner mine theirs) b := by
  obtain ⟨size, same⟩ := first.get
  obtain ⟨size', same'⟩ := second.get
  have reflexive := @Slack.reflexive_contained header run others owner mine theirs
  refine ⟨size'.trans size.symm, fun id => ?_, fun id => ?_, fun id => ?_, fun id => ?_⟩
  all_goals
    have spares := spares id
    have spares' := spares' id
    obtain ⟨globals, marked, here⟩ := same id
    obtain ⟨globals', marked', here'⟩ := same' id
    rw [here] at spares
    rw [here'] at spares'
    rw [here, here']
  exact ⟨fun _ => reflexive.overloads _ _ _, marked.apart marked' spares spares',
    SymbolTable.like_refl _ fun name c found =>
      ⟨(proper.classes id name c found).1, ClassDeclaration.like_refl reflexive _ _⟩, rfl⟩

theorem Frame.like_refl {σ : Slack} (reflexive : σ.Reflexive) (f : Frame) : f.Like σ f := by
  cases f with
  | parent id => exact .parent id
  | module id => exact .module id
  | «class» id c => exact .class (ClassDeclaration.like_refl reflexive _ c)
  | enum id e => exact .enum id e
  | block kind b => exact .block (Block.like_refl b)

theorem Scope.like_refl {σ : Slack} (reflexive : σ.Reflexive) (s : Scope) : s.Like σ s :=
  ⟨Frame.like_refl reflexive s.frame, rfl⟩

theorem FieldsMarked.fields {scope : Scope} {outer new : List Scope} {id : ModuleId}
    {c : ClassDeclaration} (marked : FieldsMarked (scope :: outer) new)
    (frame : scope.frame = .class id c) :
    ∃ fields, c.fields.Marked fields ∧
      new = { scope with frame := .class id { c with fields } } :: outer := by
  cases marked with
  | refl =>
      refine ⟨c.fields, SymbolTable.marked_refl _, ?_⟩
      obtain ⟨_, node, discard⟩ := scope
      cases frame
      rfl
  | here frame' marked =>
      rw [frame] at frame'
      cases frame'
      exact ⟨_, marked, rfl⟩
  | under other => rw [frame] at other; cases other

-- The fields of the innermost class are spared.
def FieldsSpared (old new : List Scope) : Prop :=
  ∀ id c, old.findSome? (·.frame.class?) = some (id, c) →
    ∃ d, new.findSome? (·.frame.class?) = some (id, d) ∧ c.fields.Spares d.fields

theorem FieldsMarked.contained {outer as bs : List Scope} (first : FieldsMarked outer as)
    (second : FieldsMarked outer bs) (spares : FieldsSpared outer as)
    (spares' : FieldsSpared outer bs) :
    List.Forall₂ (Scope.Like (.contained header run others owner mine theirs)) as bs := by
  have reflexive := @Slack.reflexive_contained header run others owner mine theirs
  have same (scopes : List Scope) :
      List.Forall₂ (Scope.Like (.contained header run others owner mine theirs)) scopes scopes :=
    List.forall₂_same.mpr fun s _ => s.like_refl reflexive
  induction outer generalizing as bs with
  | nil =>
      cases first
      cases second
      exact .nil
  | cons scope outer ih =>
      cases around : scope.frame.class? with
      | none =>
          obtain ⟨as, rfl, below⟩ := first.beneath around
          obtain ⟨bs, rfl, below'⟩ := second.beneath around
          refine .cons (scope.like_refl reflexive) (ih below below' ?_ ?_)
          · simpa only [FieldsSpared, List.findSome?_cons, around] using spares
          · simpa only [FieldsSpared, List.findSome?_cons, around] using spares'
      | some found =>
          obtain ⟨id, c⟩ := found
          have frame : scope.frame = .class id c := by
            cases frame : scope.frame <;> rw [frame] at around <;> cases around
            rfl
          obtain ⟨fields, marked, rfl⟩ := first.fields frame
          obtain ⟨fields', marked', rfl⟩ := second.fields frame
          have spared {new : SymbolTable Variable}
              (spares : FieldsSpared (scope :: outer)
                ({ scope with frame := .class id { c with fields := new } } :: outer)) :
              c.fields.Spares new := by
            obtain ⟨d, there, spares⟩ := spares id c (by rw [List.findSome?_cons, around])
            cases there
            exact spares
          refine .cons ⟨.class ⟨rfl, rfl, rfl, ?_, fun _ => reflexive.overloads _ _ _, ?_⟩, rfl⟩
            (same outer)
          · exact marked.apart marked' (spared spares) (spared spares')
          · cases c.constructor with
            | none => exact .none
            | some f => exact .some (reflexive.constructors _ f)

end Body

section Root

variable {σ : Slack} {m n : Node} {inner inner' : List Node} {as bs : List Scope} {x y : Scope}

def Slack.SameNode (σ : Slack) (m n : Node) : Prop := n = m ∨ σ.nodes m n

theorem Slack.SameNode.withChildren (same : σ.SameNode m n) (more : List Node) :
    σ.SameNode (m.withChildren more) (n.withChildren more) := by
  rcases same with rfl | nodes
  · exact .inl rfl
  · refine .inr ?_
    rw [show m.withChildren more = more.foldl Node.push m from (Node.foldl_push more m).symm,
      show n.withChildren more = more.foldl Node.push n from (Node.foldl_push more n).symm]
    induction more generalizing m n with
    | nil => exact nodes
    | cons child more ih => exact ih (σ.nodes_push child nodes)

/-- What closed scopes leave to the one around them, in two runs. -/
inductive Slack.Closed (σ : Slack) : List Node → List Node → Prop
  | same (inner : List Node) : Closed σ inner inner
  | apart {m n : Node} : σ.nodes m n → Closed σ [m] [n]

theorem Slack.Closed.within (closed : σ.Closed inner inner') (around : Node) :
    σ.SameNode (around.withChildren inner) (around.withChildren inner') := by
  cases closed with
  | same => exact .inl rfl
  | apart nodes => exact .inr (σ.nodes_nest around nodes)

-- What one scope leaves.
def closeOne (inner : List Node) (scope : Scope) : List Node :=
  if scope.discard then [] else [scope.node.withChildren inner]

theorem Slack.SameNode.closed (same : σ.SameNode m n) : σ.Closed [m] [n] := by
  rcases same with rfl | nodes
  · exact .same _
  · exact .apart nodes

theorem Slack.Closed.all (closed : σ.Closed inner inner')
    (discards : List.Forall₂ (fun a b : Scope => b.discard = a.discard) as bs)
    (nodes : bs.map Scope.node = as.map Scope.node) :
    σ.Closed (as.foldl closeOne inner) (bs.foldl closeOne inner') := by
  induction discards generalizing inner inner' with
  | nil => exact closed
  | @cons a b as bs head _ ih =>
      obtain ⟨first, nodes⟩ := List.cons.inj nodes
      refine ih ?_ nodes
      unfold closeOne
      rw [head, first]
      split
      · exact .same []
      · exact (closed.within a.node).closed

theorem Apart.closed (apart : Apart σ (as ++ [x]) (bs ++ [y]))
    (discards : List.Forall₂ (fun a b : Scope => b.discard = a.discard) as bs) (inner : List Node) :
    σ.SameNode (x.node.withChildren (as.foldl closeOne inner))
      (y.node.withChildren (bs.foldl closeOne inner)) := by
  have rest {as bs : List Scope} {inner inner' : List Node} (closed : σ.Closed inner inner')
      (discards : List.Forall₂ (fun a b : Scope => b.discard = a.discard) as bs)
      (nodes : (bs ++ [y]).map Scope.node = (as ++ [x]).map Scope.node) :
      σ.SameNode (x.node.withChildren (as.foldl closeOne inner))
        (y.node.withChildren (bs.foldl closeOne inner')) := by
    rw [List.map_append, List.map_append] at nodes
    obtain ⟨opened, base⟩ := List.append_inj nodes (by
      rw [List.length_map, List.length_map, discards.length_eq])
    rw [(List.cons.inj base).1]
    exact (closed.all discards opened).within x.node
  induction discards generalizing inner with
  | nil =>
      rcases apart.head with same | ⟨nodes, -⟩
      · exact Slack.SameNode.withChildren (.inl same) inner
      · exact Slack.SameNode.withChildren (.inr nodes) inner
  | @cons a b as bs head tail ih =>
      rw [List.foldl_cons, List.foldl_cons]
      cases apart with
      | none same =>
          obtain ⟨first, later⟩ := List.cons.inj same
          refine rest ?_ tail later
          unfold closeOne
          rw [head, first]
          exact .same _
      | here nodes same _ =>
          refine rest ?_ tail same
          unfold closeOne
          rw [head]
          split
          · exact .same []
          · exact (Slack.SameNode.withChildren (.inr nodes) inner).closed
      | outside same apart =>
          unfold closeOne
          rw [head, same]
          exact ih apart _

theorem AnalysisState.Idle.root {s t : AnalysisState} (idle : s.Idle σ t)
    (pass : s.declaring = false) : σ.SameNode s.root t.root := by
  have declaring := idle.like.declaring.trans pass
  obtain ⟨opened, -⟩ := ScopeStack.opened_like idle.environment.scopes.scopes
  have apart := Apart.closed idle.environment.scopes.nodes
    (opened.imp fun _ _ scope => scope.discard) []
  unfold AnalysisState.root
  rw [pass, declaring]
  exact apart

end Root

namespace AnalysisState

variable {σ : Slack} {s t : AnalysisState}

theorem Like.readOn (like : s.Like σ t) (left bound : Nat) :
    (AnalysisState.readOn left bound s).Like σ (AnalysisState.readOn left bound t) := by
  induction bound generalizing s t with
  | zero => exact like
  | succ bound ih =>
      have stepped := like.step
      unfold AnalysisState.readOn
      rw [like.remaining]
      split
      · exact like
      · generalize s.step = u, t.step = v at stepped
        cases stepped with
        | none => exact like
        | some stepped => exact ih stepped

theorem Like.downTo (like : s.Like σ t) (left : Nat) : (s.downTo left).Like σ (t.downTo left) := by
  unfold AnalysisState.downTo
  rw [like.remaining]
  exact like.readOn left _

-- A run that has no limit on its errors is like itself.
theorem like_refl {header : Node} {run others : List Node} {owner : Option BodyOwner}
    (pass : s.declaring = false) (proper : s.environment.modules.Proper) (free : s.log.maxErrors = 0) :
    s.Like (.contained header run others owner s.log.entries s.log.entries) s where
  declares declaring := by cases declaring.symm.trans pass
  setting := rfl
  remaining := rfl
  environment :=
    ⟨ModuleTree.like_refl Slack.reflexive_contained proper,
      ⟨List.forall₂_same.mpr fun s _ => s.like_refl Slack.reflexive_contained, .refl _⟩, rfl⟩
  waiting := rfl
  nested := .refl _
  log := ⟨free, free, [], (List.append_nil _).symm, (List.append_nil _).symm⟩

theorem maxErrors_of_grows {allowed : Fault → Prop} {old new : DiagnosticLog}
    (grows : old.Grows allowed new) : new.maxErrors = old.maxErrors := by
  induction grows with
  | refl => rfl
  | report _ _ _ _ ih => rw [DiagnosticLog.maxErrors_report, ih]

section Finished

variable {start last last' : AnalysisState} {home : Scope} {outer : List Scope}
  {text beyond : List Token}

theorem Outside.contained (header : Node) (run others : List Node) (owner : Option BodyOwner)
    (mine : Outside start outer beyond s) (theirs : Outside (start.facing text) outer beyond t)
    (scopes : start.environment.scopes.all = home :: outer) (block : home.frame.class? = none)
    (pass : start.setting.declaring = false) (proper : start.environment.modules.Proper)
    (free : start.log.maxErrors = 0) (spares : start.environment.Spares s.environment)
    (spares' : start.environment.Spares t.environment) :
    s.Idle (.contained header run others owner s.log.entries t.log.entries) t where
  declares declaring := by
    rw [mine.setting, pass] at declaring
    cases declaring
  setting := theirs.setting.trans mine.setting.symm
  remaining := theirs.remaining.trans mine.remaining.symm
  environment := by
    have fields {env : Environment} (spares : start.environment.Spares env) :
        FieldsSpared outer env.scopes.all := by
      intro id c around
      refine spares.fields id c ?_
      rw [ScopeStack.class?, scopes, List.findSome?_cons, block]
      exact around
    refine ⟨mine.modules.contained theirs.modules proper spares.globals spares'.globals, ⟨?_, ?_⟩,
      theirs.inLibrary.trans mine.inLibrary.symm⟩
    · exact mine.scopes.contained theirs.scopes (fields spares) (fields spares')
    · exact .none (theirs.scopes.nodes.trans mine.scopes.nodes.symm)
  mine := mine.idle
  theirs := theirs.idle
  log := ⟨(maxErrors_of_grows mine.log).trans free, (maxErrors_of_grows theirs.log).trans free, [],
    (List.append_nil _).symm, (List.append_nil _).symm⟩

theorem idles_handOn (s : AnalysisState) (body : Scope) (b : Block) :
    s.environment.Idles (s.handOn body b).environment := by
  unfold handOn
  split
  · exact s.environment.idles_refl
  · exact (s.environment.idles_attached b body.node).trans
      (Environment.idles_append _ s.setting body.node)

theorem log_handOn (s : AnalysisState) (body : Scope) (b : Block) : (s.handOn body b).log = s.log := by
  unfold handOn
  split <;> rfl

theorem handOn_eq (s : AnalysisState) {body : Scope} (kept : body.discard = false) (b : Block) :
    s.handOn body b = (match b.bodyOf with
      | some owner => s.modifyModules (attachBody · body.node owner)
      | none => s).append body.node := by
  unfold handOn Block.attached
  rw [if_neg (by simp [kept])]
  cases b.bodyOf <;> rfl

theorem FieldsMarked.bare {as bs : List Scope} (marked : FieldsMarked as bs)
    (bare : ∀ s ∈ as, s.frame.isFunction = false) : ∀ s ∈ bs, s.frame.isFunction = false := by
  induction marked with
  | refl => exact bare
  | here frame _ =>
      intro s member
      rcases List.mem_cons.mp member with rfl | member
      · rfl
      · exact bare s (List.mem_cons_of_mem _ member)
  | under _ _ ih =>
      intro s member
      rcases List.mem_cons.mp member with rfl | member
      · exact bare s List.mem_cons_self
      · exact ih (fun s member => bare s (List.mem_cons_of_mem _ member)) s member

theorem Finished.contained (mine : Finished start home outer beyond last)
    (theirs : Finished (start.facing text) home outer beyond last') (opens : Opens start home outer)
    (pass : start.setting.declaring = false) (proper : start.environment.modules.Proper)
    (free : start.log.maxErrors = 0) (spares : start.environment.Spares last.environment)
    (spares' : start.environment.Spares last'.environment) :
    ∃ run others, last.Idle (.contained home.node run others start.environment.bodyOwner?
      last.log.entries last'.log.entries) last' := by
  obtain ⟨outside, kept, frame⟩ := mine
  rename_i s body b
  obtain ⟨outside', kept', frame'⟩ := theirs
  rename_i s' body' b'
  obtain ⟨run, node⟩ := kept.node
  obtain ⟨others, node'⟩ := kept'.node
  have block : home.frame.class? = none := by
    obtain ⟨kind, c, -, shown, -⟩ := kept.frame
    rw [shown]
    rfl
  have idle := outside.contained home.node run others start.environment.bodyOwner? outside' opens.scopes block pass proper free
    (spares.idles (idles_handOn s body b)) (spares'.idles (idles_handOn s' body' b'))
  refine ⟨run, others, ?_⟩
  rw [log_handOn, log_handOn]
  cases discard : home.discard with
  | true =>
      rw [handOn, if_pos (kept.discard.trans discard), handOn, if_pos (kept'.discard.trans discard)]
      exact idle
  | false =>
      have bare := opens.single.resolve_left (by simp [discard])
      obtain ⟨kind, c, -, shown, -⟩ := kept.frame
      have owned : start.environment.bodyOwner? = c.bodyOf := by
        unfold Environment.bodyOwner? ScopeStack.functionScope?
        rw [opens.scopes, List.find?_cons, opens.function]
        simp [shown, Frame.block?]
      have bodyOf {scope : Scope} {d : Block} (kept : home.Continued scope)
          (frame : scope.frame = .block .function d) : d.bodyOf = c.bodyOf := by
        obtain ⟨e, shown', -, same⟩ := kept.block shown
        rw [frame] at shown'
        cases shown'
        exact same
      have same : b'.bodyOf = b.bodyOf := (bodyOf kept' frame').trans (bodyOf kept frame).symm
      have apart : Apart (.contained home.node run others start.environment.bodyOwner?
          s.log.entries s'.log.entries) (body :: s.environment.scopes.all)
          (body' :: s'.environment.scopes.all) := by
        refine .here ?_ (outside'.scopes.nodes.trans outside.scopes.nodes.symm) ?_
        · rw [node, node']
          have here := @Node.Rebodied.here home.node run others []
          rw [List.append_nil, List.append_nil] at here
          exact here
        · intro scope member d o isBody owner
          rcases List.mem_cons.mp member with rfl | member
          · show _ = some o
            rw [owned, ← bodyOf kept isBody]
            exact owner
          · have other := FieldsMarked.bare outside.scopes bare scope member
            simp [isBody, Frame.isFunction, Frame.blockKind?] at other
      rw [handOn_eq s (kept.discard.trans discard), handOn_eq s' (kept'.discard.trans discard), same]
      exact idle.closeBody apart frame

end Finished

end AnalysisState

end MiLanguage
