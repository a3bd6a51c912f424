import MiLanguage.Proofs.Isolation.Storing
import MiLanguage.Proofs.Ordering.Items

set_option autoImplicit false

namespace MiLanguage

/-- Two trees, of which the second one has one more node: `extra`, somewhere behind what `home` is
so far. -/
inductive Node.Extended (home extra : Node) : Node → Node → Prop
  | here (later : List Node) :
      Extended home extra (home.withChildren later) ((home.push extra).withChildren later)
  | inside {c d : Node} (n : Node) (front back : List Node) :
      Extended home extra c d →
      Extended home extra { n with children := front ++ c :: back }
        { n with children := front ++ d :: back }

namespace Node.Extended

variable {home extra m n : Node}

theorem push (extended : Node.Extended home extra m n) (child : Node) :
    Node.Extended home extra (m.push child) (n.push child) := by
  cases extended with
  | here later =>
      rw [Node.push_eq (home.withChildren later), Node.push_eq (Node.withChildren _ later),
        Node.withChildren_withChildren, Node.withChildren_withChildren]
      exact .here (later ++ [child])
  | inside n front back extended =>
      simp only [Node.push, List.append_assoc, List.cons_append]
      exact .inside n front (back ++ [child]) extended

theorem nest (extended : Node.Extended home extra m n) (around : Node) :
    Node.Extended home extra (around.push m) (around.push n) :=
  .inside around around.children [] extended

-- The one child more is where it was put.
theorem of_push {mine theirs : Node}
    (extended : Node.Extended home extra (home.push mine) ((home.push extra).push theirs)) :
    theirs = mine := by
  generalize left : home.push mine = m, right : (home.push extra).push theirs = n at extended
  cases extended with
  | here later =>
      have first := congrArg Node.children left
      have second := congrArg Node.children right
      simp only [Node.push, Node.withChildren, List.append_assoc, List.append_cancel_left_eq] at first second
      rw [← first] at second
      simpa using second
  | inside n front back =>
      have first := congrArg (·.children.length) left
      have second := congrArg (·.children.length) right
      simp [Node.push] at first second
      omega

end Node.Extended

section Marks

-- The variable is known, and has a value.
def SymbolTable.Holds (t : SymbolTable Variable) (name : String) : Prop :=
  ∃ v, t.find? name = some v ∧ v.initialized = true

/-- The same variable. If it is mutable it may have a value in the second run only, one that has been
`set` besides. -/
structure Variable.MarkedMore (set : Prop) (v w : Variable) : Prop where
  apart : v.MarkedApart w
  keeps : v.initialized = true → w.initialized = true
  only : w.initialized = true → v.initialized = true ∨ set

theorem Variable.markedMore_refl (set : Prop) (v : Variable) : v.MarkedMore set v :=
  ⟨v.markedApart_refl, id, .inl⟩

namespace SymbolTable

variable {old new : SymbolTable Variable}

theorem Marked.keeps (marked : old.Marked new) {name : String} (holds : old.Holds name) :
    new.Holds name := by
  obtain ⟨v, found, initialized⟩ := holds
  rcases marked name with same | ⟨w, -, here⟩
  · exact ⟨v, same.trans found, initialized⟩
  · exact ⟨_, here, rfl⟩

-- A table and what marks have made of it.
theorem Marked.more (marked : old.Marked new) (spares : old.Spares new) :
    Like (fun name => Variable.MarkedMore (new.Holds name)) old new := by
  intro name
  have apart := (marked_refl old).apart marked (fun _ _ found _ => found) spares name
  generalize found : old.find? name = v, found' : new.find? name = w at apart
  cases apart with
  | none => exact .none
  | @some v w apart =>
      refine .some ⟨apart, fun initialized => ?_, fun initialized => .inr ⟨w, found', initialized⟩⟩
      obtain ⟨u, same, holds⟩ := marked.keeps ⟨v, found, initialized⟩
      rw [found'] at same
      cases same
      exact holds

theorem Like.holds {set : String → Prop} (like : Like (fun name => Variable.MarkedMore (set name)) old new)
    (name : String) :
    (old.Holds name → new.Holds name) ∧ (new.Holds name → old.Holds name ∨ set name) := by
  have both := like name
  unfold Holds
  generalize old.find? name = v, new.find? name = w at both ⊢
  cases both with
  | none => exact ⟨id, .inl⟩
  | some more =>
      refine ⟨?_, ?_⟩
      · rintro ⟨v, same, initialized⟩
        cases same
        exact ⟨_, rfl, more.keeps initialized⟩
      · rintro ⟨w, same, initialized⟩
        cases same
        exact (more.only initialized).imp (fun initialized => ⟨_, rfl, initialized⟩) id

theorem eq_of_holds {one two : SymbolTable Variable} (first : old.Marked one) (second : old.Marked two)
    (same : ∀ name, one.Holds name ↔ two.Holds name) : Like (fun _ v w => w = v) one two := by
  intro name
  have holds := same name
  -- Each of them is as it was but for its mark.
  have as_was {new : SymbolTable Variable} (marked : old.Marked new) :
      ∃ f : Variable → Variable, (∀ v, f v = { v with initialized := (f v).initialized }) ∧
        new.find? name = (old.find? name).map f := by
    rcases marked name with same | ⟨v, found, here⟩
    · exact ⟨id, fun _ => rfl, by rw [same, Option.map_id_fun, id]⟩
    · exact ⟨({ · with initialized := true }), fun _ => rfl, by rw [found, here]; rfl⟩
  obtain ⟨f, keeps, here⟩ := as_was first
  obtain ⟨g, keeps', there⟩ := as_was second
  unfold Holds at holds
  rw [here, there] at holds ⊢
  generalize old.find? name = found at holds ⊢
  cases found with
  | none => exact .none
  | some v =>
      refine .some ?_
      have equal : (g v).initialized = (f v).initialized := by
        simp only [Option.map_some, Option.some.injEq, exists_eq_left'] at holds
        exact Bool.eq_iff_iff.mpr holds.symm
      rw [keeps', keeps, equal]

end SymbolTable

end Marks

/-- Two logs with the same entries, but for those in front. -/
structure DiagnosticLog.Beside (mine theirs : List Diagnostic) (l k : DiagnosticLog) : Prop where
  maxErrors : k.maxErrors = l.maxErrors
  failed : k.failed = l.failed
  suppressed : k.suppressed = l.suppressed
  errorCount : k.errorCount = l.errorCount
  entries : ∃ later, l.entries = mine ++ later ∧ k.entries = theirs ++ later

namespace DiagnosticLog

variable {mine theirs : List Diagnostic} {l k : DiagnosticLog}

theorem Beside.report (beside : Beside mine theirs l k) (d : Diagnostic) :
    Beside mine theirs (l.report d) (k.report d) := by
  obtain ⟨maxErrors, failed, suppressed, errorCount, later, left, right⟩ := beside
  have full : k.isFull = l.isFull := by simp only [isFull, maxErrors, errorCount]
  have longer : l.entries ++ [d] = mine ++ (later ++ [d]) ∧ k.entries ++ [d] = theirs ++ (later ++ [d]) := by
    rw [left, right, List.append_assoc, List.append_assoc]
    exact ⟨rfl, rfl⟩
  have counted : ((k.entries ++ [d]).filter (·.isError)).length =
      ((l.entries ++ [d]).filter (·.isError)).length := by
    simp only [DiagnosticLog.errorCount, errors] at errorCount
    rw [List.filter_append, List.filter_append, List.length_append, List.length_append, errorCount]
  unfold DiagnosticLog.report
  rw [full]
  split
  · split
    · exact ⟨maxErrors, rfl, congrArg (· + 1) suppressed, errorCount, later, left, right⟩
    · exact ⟨maxErrors, rfl, suppressed, counted, later ++ [d], longer⟩
  · exact ⟨maxErrors, failed, suppressed, counted, later ++ [d], longer⟩

-- A log that has no error has grown by its warnings only.
theorem Grows.beside {allowed : Fault → Prop} {old new : DiagnosticLog} (grows : old.Grows allowed new)
    (clean : new.failed = false) :
    old.failed = false ∧ Beside old.entries new.entries old new := by
  induction grows with
  | refl => exact ⟨clean, rfl, rfl, rfl, rfl, [], (List.append_nil _).symm, (List.append_nil _).symm⟩
  | @report new fault severity place _ _ ih =>
      rw [failed_report, Bool.or_eq_false_iff] at clean
      obtain ⟨fine, maxErrors, failed, suppressed, errorCount, -⟩ := ih clean.1
      have grown : new.report (.ofFault severity fault place) =
          { new with entries := new.entries ++ [.ofFault severity fault place] } := by
        unfold DiagnosticLog.report
        rw [clean.2]
        rfl
      rw [grown]
      refine ⟨fine, maxErrors, failed, suppressed, ?_, [], (List.append_nil _).symm, (List.append_nil _).symm⟩
      simp only [DiagnosticLog.errorCount, errors] at errorCount ⊢
      rw [List.filter_append, List.filter_cons_of_neg (by simp [clean.2]), List.filter_nil,
        List.append_nil, errorCount]

end DiagnosticLog

theorem FunctionTable.map_bare_modifyFirst (p : FunctionDefinition → Bool) (m : Node)
    (fs : List FunctionDefinition) :
    (modifyFirst p ({ · with body := .tree m }) fs).map FunctionDefinition.bare =
      fs.map FunctionDefinition.bare := by
  induction fs with
  | nil => rfl
  | cons f fs ih =>
      unfold modifyFirst
      split
      · rfl
      · rw [List.map_cons, ih, List.map_cons]

-- Two analyses, the second of which has read one more definition: it has one more node, may have
-- more stored bodies, and more mutable variables have values there.
def Slack.beside (home extra : Node) (set : Owner → String → Prop) (mine theirs : List Diagnostic) :
    Slack where
  exact := true
  marked := true
  vars o name := Variable.MarkedMore (set o name)
  overloads _ _ fs gs := gs.map FunctionDefinition.bare = fs.map FunctionDefinition.bare
  constructors _ f g := g.bare = f.bare
  nodes := Node.Extended home extra
  bodies _ := False
  logs := DiagnosticLog.Beside mine theirs
  vars_same more := ⟨more.apart.1, more.apart.canAssign, fun unmarked => by cases unmarked⟩
  vars_marked more := ⟨more.apart.marked, fun _ => rfl, fun _ => .inl rfl⟩
  overloads_none _ _ := rfl
  overloads_perm same := .of_eq same
  overloads_filled same _ := by
    rw [FunctionTable.map_bare_modifyFirst, FunctionTable.map_bare_modifyFirst, same]
  constructors_filled same _ := same
  nodes_push child extended := extended.push child
  nodes_nest around extended := extended.nest around
  logs_report d beside := beside.report d
  logs_error inexact := by cases inexact
  logs_warning inexact := by cases inexact

theorem Slack.reflexive_beside {home extra : Node} {set : Owner → String → Prop}
    {mine theirs : List Diagnostic} : (Slack.beside home extra set mine theirs).Reflexive where
  vars _ _ v := v.markedMore_refl _
  overloads _ _ _ := rfl
  constructors _ _ := rfl

-- What is asked of related variables holds where each variable is related to itself alone.
theorem Variable.same_of_eq : ∀ {_ : Owner} {_ : String} {v w : Variable}, w = v →
    w = { v with initialized := w.initialized } ∧ w.canAssign = v.canAssign ∧
      (false = false → w.initialized = v.initialized) := by
  rintro _ _ v _ rfl
  exact ⟨rfl, rfl, fun _ => rfl⟩

theorem Variable.marked_of_eq : ∀ {_ : Owner} {_ : String} {v w : Variable}, w = v →
    ({ w with initialized := true } : Variable) = { v with initialized := true } := by
  rintro _ _ v _ rfl
  rfl

-- Two analyses that have read two definitions, each in its own order.
def Slack.reordered (run others : List Node) (mine theirs : List Diagnostic) : Slack where
  exact := true
  marked := false
  vars _ _ v w := w = v
  overloads _ _ fs gs := gs = fs
  constructors _ f g := g = f
  nodes := Node.Exchanged run others
  bodies _ := False
  logs := DiagnosticLog.Beside mine theirs
  vars_same := @Variable.same_of_eq
  vars_marked := @Variable.marked_of_eq
  overloads_none _ _ := rfl
  overloads_perm same := .of_eq (congrArg _ same)
  overloads_filled same bodies := by
    rcases bodies with rfl | ⟨-, apart⟩
    · rw [same]
    · exact apart.elim
  constructors_filled same bodies := by
    rcases bodies with rfl | ⟨-, apart⟩
    · rw [same]
    · exact apart.elim
  nodes_push child exchanged := exchanged.push child
  nodes_nest around exchanged := exchanged.nest around
  logs_report d beside := beside.report d
  logs_error inexact := by cases inexact
  logs_warning inexact := by cases inexact

theorem Slack.reflexive_reordered {run others : List Node} {mine theirs : List Diagnostic} :
    (Slack.reordered run others mine theirs).Reflexive where
  vars _ _ _ := rfl
  overloads _ _ _ := rfl
  constructors _ _ := rfl

-- The fields of the class that is open in a frame.
def Frame.fields : Frame → SymbolTable Variable
  | .class _ c => c.fields
  | _ => .empty

def Frame.withFields (f : Frame) (fields : SymbolTable Variable) : Frame :=
  match f with
  | .class id c => .class id { c with fields }
  | f => f

theorem Frame.withFields_fields (f : Frame) : f.withFields f.fields = f := by cases f <;> rfl

section Scopes

variable {home : Scope} {outer new : List Scope}

theorem FieldsMarked.eq_of_classless (marked : FieldsMarked outer new)
    (classless : ∀ s ∈ outer, s.frame.class? = none) : new = outer := by
  induction marked with
  | refl => rfl
  | here frame =>
      have bare := classless _ List.mem_cons_self
      rw [frame] at bare
      cases bare
  | under _ _ ih => rw [ih fun s member => classless s (List.mem_cons_of_mem _ member)]

-- Where no class is open around the first scope, only that one may change.
theorem FieldsMarked.head (marked : FieldsMarked (home :: outer) new)
    (classless : ∀ s ∈ outer, s.frame.class? = none) :
    ∃ fields, home.frame.fields.Marked fields ∧
      new = { home with frame := home.frame.withFields fields } :: outer := by
  cases class? : home.frame.class? with
  | none =>
      obtain ⟨later, rfl, below⟩ := marked.beneath class?
      refine ⟨home.frame.fields, SymbolTable.marked_refl _, ?_⟩
      rw [Frame.withFields_fields, below.eq_of_classless classless]
  | some found =>
      obtain ⟨id, c⟩ := found
      have frame : home.frame = .class id c := by
        cases frame : home.frame <;> rw [frame] at class? <;> cases class?
        rfl
      obtain ⟨fields, changed, rfl⟩ := marked.fields frame
      refine ⟨fields, ?_, ?_⟩
      · rw [frame]
        exact changed
      · rw [frame]
        rfl

theorem Environment.home_of_outside {env : Environment} (outside : Title.Outside env.titles)
    (scopes : env.scopes.all = home :: outer) :
    (∀ s ∈ home :: outer, s.frame.isBlock = false) ∧ ∀ s ∈ outer, s.frame.class? = none := by
  have kept := Environment.discard_of_outside outside
  obtain ⟨top, below, titles, declaration, modules, -⟩ := outside
  rw [scopes] at kept
  rw [Environment.titles, scopes, List.map_cons, List.cons.injEq] at titles
  have title {s : Scope} (member : s ∈ home :: outer) : s.title = s.frame.title := by
    rw [Scope.title, if_neg (by simp [kept s member])]
  have around {s : Scope} (member : s ∈ outer) : s.frame.title.isModule = true := by
    rw [← title (List.mem_cons_of_mem _ member)]
    exact modules _ (titles.2 ▸ List.mem_map_of_mem member)
  refine ⟨List.forall_mem_cons.mpr ⟨?_, fun s member => ?_⟩, fun s member => ?_⟩
  · rw [← titles.1, title List.mem_cons_self] at declaration
    cases frame : home.frame with
    | block => rw [frame] at declaration; cases declaration
    | _ => rfl
  · have isModule := around member
    cases frame : s.frame with
    | block => rw [frame] at isModule; cases isModule
    | _ => rfl
  · have isModule := around member
    cases frame : s.frame with
    | «class» => rw [frame] at isModule; cases isModule
    | _ => rfl

end Scopes

-- The declarations with a body stored, if there is one to store.
def ModuleTree.withBody (t : ModuleTree) (node : Node) (owner : Option BodyOwner) : ModuleTree :=
  owner.elim t (AnalysisState.attachBody t node)

@[simp] theorem ModuleTree.withBody_none (t : ModuleTree) (node : Node) : t.withBody node none = t := rfl

@[simp] theorem ModuleTree.withBody_some (t : ModuleTree) (node : Node) (owner : BodyOwner) :
    t.withBody node (some owner) = AnalysisState.attachBody t node owner := rfl

namespace AnalysisState

/-- What the second pass adds when it reads a definition: a node where it is, a stored body, marks on
variables, and warnings. -/
structure Adds (home : Scope) (outer : List Scope) (owner : Option BodyOwner) (node : Node)
    (u v : AnalysisState) : Prop where
  setting : v.setting = u.setting
  idle : v.pendingDo = none
  inLibrary : v.environment.inLibrary = u.environment.inLibrary
  modules : ∃ marked, u.environment.modules.Updated marked ∧
    v.environment.modules = marked.withBody node owner
  scopes : ∃ fields, home.frame.fields.Marked fields ∧ v.environment.scopes.all =
    { home with frame := home.frame.withFields fields, node := home.node.push node } :: outer
  log : u.log.Grows (fun _ => True) v.log

variable {p u v : AnalysisState} {home : Scope} {outer : List Scope} {rest : List Token}

theorem clean_of_downTo {left : Nat} (clean : (u.downTo left).Clean) : u.Clean := by
  have kept : (u.downTo left).Clean → u.Clean := downTo_invariant (P := fun v => v.Clean → u.Clean) id
    fun s t ih _ stepped clean => ih (step_moves stepped clean).1
  exact kept clean

theorem all_append (env : Environment) {setting : Setting} (pass : setting.declaring = false)
    (scopes : env.scopes.all = home :: outer) (node : Node) :
    (env.append setting node).scopes.all = { home with node := home.node.push node } :: outer := by
  obtain ⟨below, all, changed⟩ := env.scopes.all_eq_current
  rw [scopes, List.cons.injEq] at all
  obtain ⟨rfl, rfl⟩ := all
  unfold Environment.append
  rw [if_neg (by simp [pass])]
  exact changed _

-- The pass is behind the body, and hands on what it has made of it.
theorem Finished.adds {start : AnalysisState} {body : Scope}
    {owner : BodyOwner} (finished : Finished start body (home :: outer) rest v)
    (frame : ∃ b, body.frame = .block .function b ∧ b.bodyOf = some owner)
    (kept : body.discard = false) (pass : start.setting.declaring = false)
    (classless : ∀ s ∈ outer, s.frame.class? = none) :
    v.remaining = rest ∧ ∃ node, Adds home outer (some owner) node start v := by
  obtain @⟨s, last, b, outside, lasts, here⟩ := finished
  obtain ⟨c, frame, stored⟩ := frame
  have bodyOf : b.bodyOf = some owner := by
    obtain ⟨d, frame', -, same⟩ := lasts.block frame
    rw [here] at frame'
    cases frame'
    exact same.trans stored
  have handed : s.handOn last b =
      (s.modifyModules (attachBody · last.node owner)).append last.node := by
    unfold handOn
    rw [lasts.discard, kept, if_neg (by simp)]
    unfold Block.attached
    rw [bodyOf]
  obtain ⟨fields, marked, scopes⟩ := outside.scopes.head classless
  have bodies : s.setting.declaring = false := by rw [outside.setting]; exact pass
  rw [handed]
  refine ⟨outside.remaining, last.node, outside.setting, outside.idle, ?_, ?_, ⟨fields, marked, ?_⟩,
    outside.log⟩
  · exact (Environment.inLibrary_append _).trans outside.inLibrary
  · refine ⟨_, outside.modules, ?_⟩
    unfold append Environment.append
    split <;> rfl
  · exact all_append (s.modifyModules (attachBody · last.node owner)).environment bodies
      scopes last.node

end AnalysisState

namespace FunctionItem

variable {item : FunctionItem} {p : AnalysisState} {home : Scope} {outer : List Scope}
  {rest : List Token}

open AnalysisState

theorem adds (remaining : p.remaining = item.text ++ rest) (pass : p.declaring = false)
    (placed : p.environment.frame.isBlock = false → Title.Outside p.environment.titles)
    (scopes : p.environment.scopes.all = home :: outer) (clean : (p.downTo rest.length).Clean) :
    Title.Outside p.environment.titles ∧ p.pendingDo = none ∧ (p.downTo rest.length).remaining = rest ∧
      (p.StoresToMutable rest.length → p.environment.Spares (p.downTo rest.length).environment) ∧
      ∃ owner node, Adds home outer owner node p (p.downTo rest.length) ∧
        ∃ mods head tail h, item.Reads mods head tail h ∧ owner = if item.block = [] then none else
          some (.function p.environment.owner h.name.lexeme h.paramTypes) := by
  have more : rest.length < p.remaining.length := by
    have positive := List.length_pos_iff.mpr item.ne_nil
    rw [remaining, List.length_append]
    omega
  obtain ⟨q, stepped⟩ := exists_step more
  have later (stores : p.StoresToMutable rest.length) := stores.step stepped
  rw [downTo_of_step stepped more] at clean ⊢
  obtain ⟨idle, mods, head, tail, h, accepted, reads, function, rfl⟩ :=
    item.accepted remaining ⟨stepped, clean_of_downTo clean⟩
  have bare := isBlock_of_host (host_of_function function)
  have outside := placed bare
  refine ⟨outside, idle, ?_⟩
  have here : (if p.declaring then rest else item.block ++ rest) = item.block ++ rest := by
    rw [pass, if_neg (by simp)]
  rw [here] at clean later ⊢
  have classless := (Environment.home_of_outside outside scopes).2
  rcases opens_of_function reads function pass with ⟨brace, node, rfl⟩ | ⟨semicolon, node, rfl⟩
  · obtain ⟨body, all, kept⟩ := p.environment.openBody_all h.returnType
      (.function p.environment.owner h.name.lexeme h.paramTypes) h.params h.name node
    obtain ⟨b, frame, -, owner⟩ := kept.block rfl
    have bodied : item.block ≠ [] := by
      rcases item.ends with ⟨semicolon, -⟩ | ⟨-, inner, closing, block, -⟩
      · rw [brace] at semicolon
        cases semicolon
      · simp [block]
    have opened := p.environment.updated_openBody h.returnType
      (.function p.environment.owner h.name.lexeme h.paramTypes) h.params h.name node
    have marks := p.environment.keepsMarks_openBody h.returnType
      (.function p.environment.owner h.name.lexeme h.paramTypes) h.params h.name node
    rw [scopes] at all
    generalize start : ({ p with
      remaining := item.block ++ rest
      environment := Accepted.settled ⟨p.environment.openBody h.returnType
        (.function p.environment.owner h.name.lexeme h.paramTypes) h.params h.name node, none⟩
          p.setting } : AnalysisState) = s at clean later ⊢
    have reading : Reading s body (home :: outer) rest 0 s := by
      subst start
      refine ⟨⟨rfl, .refl, rfl, ?_, .refl⟩, (item.skipBlock_block brace 0 rest).2⟩
      show Enclosed body (home :: outer) 0 (p.environment.openBody _ _ _ _ _).scopes.all
      rw [all]
      exact .body kept.again (.refl _)
    have pass : s.setting.declaring = false := by
      subst start
      exact pass
    have marks : p.environment.KeepsMarks s.environment := by
      subst start
      exact marks
    have finished := reading.finished kept.isFunction pass (List.cons_ne_nil _ _)
    obtain ⟨left, added, adds⟩ := finished.adds ⟨b, frame, owner⟩ kept.discard pass classless
    obtain ⟨marked, updated, filled⟩ := adds.modules
    refine ⟨left, fun stores => marks.spares.trans
        (reading.spares kept.isFunction pass (List.cons_ne_nil _ _) (later stores)),
      some (.function p.environment.owner h.name.lexeme h.paramTypes), added, ?_⟩
    subst start
    exact ⟨⟨adds.setting, adds.idle, adds.inLibrary.trans opened.inLibrary,
      ⟨marked, opened.modules.trans updated, filled⟩, adds.scopes, adds.log⟩, mods, head, tail, h, reads,
      (if_neg bodied).symm⟩
  · have native : item.block = [] := by
      rcases item.ends with ⟨-, native⟩ | ⟨brace, -⟩
      · exact native
      · rw [semicolon] at brace
        cases brace
    rw [native, List.nil_append, downTo_of_le (Nat.le_refl _)]
    refine ⟨rfl, fun _ => (Environment.idles_append _ _ _).keepsMarks.spares, none, node,
      ⟨rfl, idle, Environment.inLibrary_append _, ⟨_, .refl, ?_⟩, ⟨_, SymbolTable.marked_refl _, ?_⟩, .refl⟩,
      mods, head, tail, h, reads, (if_pos rfl).symm⟩
    · show (p.environment.append p.setting node).modules = p.environment.modules
      unfold Environment.append
      split <;> rfl
    · rw [Frame.withFields_fields]
      exact all_append _ pass scopes node

end FunctionItem

end MiLanguage
