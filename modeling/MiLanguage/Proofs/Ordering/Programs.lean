import MiLanguage.Proofs.Ordering.Bodies
import MiLanguage.Proofs.Uses.Order

set_option autoImplicit false

namespace MiLanguage

section Composition

variable {σ τ ρ : Slack} {α : Type} {t u v : ModuleTree}

theorem SymbolTable.Like.comp {R S T : String → α → α → Prop} {a b c : SymbolTable α}
    (first : Like R a b) (second : Like S b c)
    (both : ∀ name x y z, R name x y → S name y z → T name x z) : Like T a c := by
  intro name
  have one := first name
  have two := second name
  generalize a.find? name = x, b.find? name = y, c.find? name = z at one two
  cases one with
  | none =>
      cases two
      exact .none
  | some one =>
      cases two with
      | some two => exact .some (both _ _ _ _ one two)

/-- What may lie between three runs. -/
structure Slack.Composes (σ τ ρ : Slack) : Prop where
  vars (o : Owner) (name : String) (x y z : Variable) :
    σ.vars o name x y → τ.vars o name y z → ρ.vars o name x z
  overloads (o : Owner) (name : String) (x y z : List FunctionDefinition) :
    σ.overloads o name x y → τ.overloads o name y z → ρ.overloads o name x z
  constructors (o : Owner) (x y z : FunctionDefinition) :
    σ.constructors o x y → τ.constructors o y z → ρ.constructors o x z

theorem ClassDeclaration.Like.comp (composes : σ.Composes τ ρ) {o : Owner} {c d e : ClassDeclaration}
    (first : c.Like σ o d) (second : d.Like τ o e) : c.Like ρ o e where
  name := second.name.trans first.name
  modifiers := second.modifiers.trans first.modifiers
  origin := second.origin.trans first.origin
  fields := first.fields.comp second.fields fun name => composes.vars o name
  methods name := composes.overloads o name _ _ _ (first.methods name) (second.methods name)
  constructor := by
    have one := first.constructor
    have two := second.constructor
    generalize c.constructor = x, d.constructor = y, e.constructor = z at one two
    cases one with
    | none =>
        cases two
        exact .none
    | some one =>
        cases two with
        | some two => exact .some (composes.constructors o _ _ _ one two)

theorem ModuleTree.Like.comp (composes : σ.Composes τ ρ) (first : t.Like σ u) (second : u.Like τ v) :
    t.Like ρ v where
  size := second.size.trans first.size
  names id := (second.names id).trans (first.names id)
  parents id := (second.parents id).trans (first.parents id)
  children id := (second.children id).trans (first.children id)
  members id :=
    { functions := fun name =>
        composes.overloads _ name _ _ _ ((first.members id).functions name)
          ((second.members id).functions name)
      globals := (first.members id).globals.comp (second.members id).globals fun name =>
        composes.vars _ name
      classes := (first.members id).classes.comp (second.members id).classes fun _ _ _ _ one two =>
        ⟨one.1, one.2.comp composes two.2⟩
      enums := (second.members id).enums.trans (first.members id).enums }

theorem Slack.composes_reordered {run others : List Node} {mine theirs : List Diagnostic} :
    (Slack.reordered run others mine theirs).Composes .permuted .permuted where
  vars _ _ _ _ _ one two := two.trans one
  overloads _ _ _ _ _ one two := one ▸ two
  constructors _ _ _ _ one two := two.trans one

end Composition

/-- Two analyses of a program whose definitions of two functions come in another order: so do their
nodes, the overloads of a name, and the warnings. -/
structure Analysis.Permuted (a b : Analysis) : Prop where
  root : b.root = a.root ∨ ∃ f g, a.root.Exchanged [f, g] [g, f] b.root
  modules : a.modules.Like .permuted b.modules
  warnings : b.log.entries.Perm a.log.entries

theorem Analysis.startPass_like {σ : Slack} {setting : Setting} {modules modules' : ModuleTree}
    {log log' : DiagnosticLog} (pass : setting.declaring = false) (reflexive : σ.Reflexive)
    (like : modules.Like σ modules') (logs : σ.logs log log') (tokens : List Token) :
    (startPass setting modules log tokens).Like σ (startPass setting modules' log' tokens) :=
  AnalysisState.Idle.like ⟨fun declaring => (Bool.false_ne_true (pass.symm.trans declaring)).elim, rfl, rfl,
    ⟨like, ⟨List.forall₂_same.mpr fun s _ => s.like_refl reflexive, .refl _⟩, rfl⟩, rfl, rfl, logs⟩

theorem Analysis.log_of_accepted {host : Host} {maxErrors : Nat} {program : List Token}
    (accepted : (ofTokens host maxErrors program).isOk = true) :
    (ofTokens host maxErrors program).log = (bodiesEnd host maxErrors program).log := by
  have clean : (runPass ⟨.declarations, host⟩ .empty { maxErrors } program).log.failed = false :=
    (isOk_iff.mp accepted).1
  simp [ofTokens, clean, bodiesEnd]

theorem AnalysisState.Like.facing {σ : Slack} {s t : AnalysisState} (like : s.Like σ t)
    (text : List Token) : (s.facing text).Like σ (t.facing text) :=
  ⟨like.declares, like.setting, rfl, like.environment, like.waiting, like.nested, like.log⟩

-- Where nothing is open, the tree is done.
theorem AnalysisState.Like.ended {σ : Slack} {s t : AnalysisState} (like : s.Like σ t)
    (closed : s.environment.scopes.opened = []) (idle : s.pendingDo = none) :
    t.environment.scopes.opened = [] ∧ t.pendingDo = none ∧
      σ.SameNode s.environment.scopes.base.node t.environment.scopes.base.node := by
  have scopes := (ScopeStack.opened_like like.environment.scopes.scopes).1
  rw [closed] at scopes
  have closed' := List.forall₂_nil_left_iff.mp scopes
  have nodes := like.environment.scopes.nodes
  rw [ScopeStack.all, closed, ScopeStack.all, closed'] at nodes
  exact ⟨closed', (like.idle idle).theirs, nodes.head.imp id And.left⟩

namespace FunctionPair

open Analysis AnalysisState

variable {t : FunctionPair} {host : Host} {maxErrors : Nat}

section First

variable (clean : (runPass ⟨.declarations, host⟩ .empty { maxErrors } t.program).Clean)

include clean

-- Where the first pass comes to the definitions.
theorem declares_at {u : AnalysisState} (leads : (declarationsStart host maxErrors t.program).Leads u)
    (remaining : u.remaining = t.text) :
    t.first.Apart t.second ∧ ∃ w w' : AnalysisState,
      w.Leads (runPass ⟨.declarations, host⟩ .empty { maxErrors } t.program) ∧
      (u.facing t.swap.text).Leads w' ∧ w.Like .permuted w' := by
  obtain ⟨toLast, ended, -⟩ := runPass_leads clean
  have outer := (leads.extends rfl rfl
    (outer_startPass ⟨.declarations, host⟩ { maxErrors } t.program)).2.1
  have wellFormed := leads.wellFormed
    (startPass_wellFormed ⟨.declarations, host⟩ ModuleTree.wellFormed_empty { maxErrors } t.program)
  exact declares_both remaining leads.declaring (leads.clean rfl) outer wellFormed
    (leads.to_end toLast ended) ended

theorem declared_swap :
    (runPass ⟨.declarations, host⟩ .empty { maxErrors } t.program).Like .permuted
      (runPass ⟨.declarations, host⟩ .empty { maxErrors } t.swap.program) := by
  obtain ⟨leads, ended, closed, idle⟩ := runPass_leads clean
  rcases (t.ahead_swap ⟨.declarations, host⟩ .empty { maxErrors }).arrives t.level leads ended with
    past | ⟨u, toU, toLast, remaining, toOther⟩
  · rw [runPass_of_leads past ended closed idle]
    exact like_self Slack.reflexive_permuted Slack.declares_permuted rfl (leads.wellFormed
      (startPass_wellFormed ⟨.declarations, host⟩ ModuleTree.wellFormed_empty { maxErrors } t.program))
  · obtain ⟨-, w, w', toLast, toW', like⟩ := declares_at clean toU remaining
    obtain ⟨last, toEnd, alike⟩ := like.leads (fun _ _ same => congrArg _ same) toLast
    have closed' : last.environment.scopes.opened = [] := by
      have scopes := (ScopeStack.opened_like alike.environment.scopes.scopes).1
      rw [closed] at scopes
      exact List.forall₂_nil_left_iff.mp scopes
    have enters := Relation.ReflTransGen.trans (Relation.ReflTransGen.trans toOther toW') toEnd
    rw [runPass_of_leads enters (alike.remaining.trans ended) closed' (alike.idle idle).theirs]
    exact alike

end First

-- The second pass in front of the definitions.
def reached (t : FunctionPair) (host : Host) (maxErrors : Nat) : AnalysisState :=
  (bodiesStart host maxErrors t.program).downTo t.text.length

-- Neither of the bodies assigns or steps a global or a field, unless it is `mut`, each of them read
-- where the second pass comes to the definitions.
def StoresToMutable (t : FunctionPair) (host : Host) (maxErrors : Nat) : Prop :=
  (t.reached host maxErrors).remaining.length = t.text.length → t.StoresFrom (t.reached host maxErrors)

instance (t : FunctionPair) (u : AnalysisState) : Decidable (t.StoresFrom u) :=
  inferInstanceAs (Decidable (_ ∧ _))

instance (t : FunctionPair) (host : Host) (maxErrors : Nat) :
    Decidable (t.StoresToMutable host maxErrors) :=
  inferInstanceAs (Decidable (_ → _))

theorem ahead_bodies (t : FunctionPair) (host : Host) (maxErrors : Nat) :
    Ahead t.text t.swap.text (bodiesStart host maxErrors t.program)
      ((bodiesStart host maxErrors t.program).facing t.swap.program) :=
  ⟨t.before, t.whole, rfl, rfl⟩

theorem skipBlock_text_length (depth : Nat) (rest : List Token)
    (skipped : Chunk.skipBlock depth t.text = some rest) : rest.length ≤ t.after.length := by
  rw [text, FunctionItem.skipBlock_text, FunctionItem.skipBlock_text] at skipped
  exact Nat.le_of_lt (Chunk.length_skipBlock skipped)

section Declared

variable (clean : (runPass ⟨.declarations, host⟩ .empty { maxErrors } t.program).Clean)

include clean

-- The second pass of the swapped program, but for the order of the declarations.
theorem bodiesStart_swap : ((bodiesStart host maxErrors t.program).facing t.swap.program).Like .permuted
    (bodiesStart host maxErrors t.swap.program) := by
  have declares := declared_swap clean
  unfold bodiesStart
  rw [← startPass_swap]
  exact startPass_like rfl Slack.reflexive_permuted declares.environment.modules declares.log _

theorem storesToMutable_of_swap (stores : t.swap.StoresToMutable host maxErrors) :
    t.StoresToMutable host maxErrors := by
  intro here
  rcases downTo_ahead t.level skipBlock_text_length (t.ahead_bodies host maxErrors) with
    ⟨-, there⟩ | ⟨-, few⟩
  · have like := (bodiesStart_swap clean).downTo t.swap.text.length
    rw [there] at like
    have stores := stores (congrArg List.length (show (t.swap.reached host maxErrors).remaining = _ from
      like.remaining))
    exact ⟨(like.facing (t.first.text ++ t.after)).storesToMutable stores.2,
      (like.facing (t.second.text ++ t.after)).storesToMutable stores.1⟩
  · have few := Nat.le_trans (Nat.le_of_eq here.symm) few
    have positive := List.length_pos_iff.mpr t.first.ne_nil
    simp only [text, List.length_append] at few
    omega

end Declared

section Second

variable (accepted : (ofTokens host maxErrors t.program).isOk = true)

include accepted

theorem bodiesEnd_eq : (bodiesStart host maxErrors t.program).downTo 0 = bodiesEnd host maxErrors t.program := by
  obtain ⟨-, leads, ended, -⟩ := leads_bodiesEnd accepted
  have enough : (bodiesStart host maxErrors t.program).remaining.length ≤ t.program.length := Nat.le_refl _
  rw [← steps_eq_downTo enough]
  exact leads.steps_eq ended enough

theorem comes (stores : t.StoresToMutable host maxErrors) (here : (t.reached host maxErrors).remaining = t.text) :
    t.Comes (t.reached host maxErrors) := by
  have first := (isOk_iff.mp accepted).1
  have inStep := (inStep_start first).downTo t.text.length
  have clean : ((bodiesStart host maxErrors t.program).downTo 0).Clean := by
    rw [bodiesEnd_eq accepted]
    exact (leads_bodiesEnd accepted).1
  refine ⟨here, inStep.pass, fun bare => ⟨inStep.placed bare, ?_⟩,
    fun id name c found => (inStep.proper.classes id name c found).1, ?_, stores (congrArg List.length here)⟩
  · obtain ⟨p, leads, meets⟩ := inStep.outside bare
    exact (declares_at first leads (meets.remaining.symm.trans here)).1
  · have short : t.after.length ≤ t.text.length := by
      simp only [text, List.length_append]
      omega
    rw [← downTo_downTo (Nat.zero_le t.after.length), ← downTo_downTo short] at clean
    exact clean_of_downTo clean

theorem bodies_swap (stores : t.StoresToMutable host maxErrors) :
    ∃ last, ((bodiesStart host maxErrors t.program).facing t.swap.program).downTo 0 = last ∧
      (last = bodiesEnd host maxErrors t.program ∨ ∃ f g mine theirs, theirs.Perm mine ∧
        (bodiesEnd host maxErrors t.program).Like (.reordered [f, g] [g, f] mine theirs) last) := by
  refine ⟨_, rfl, ?_⟩
  rw [← bodiesEnd_eq accepted, ← downTo_downTo (Nat.zero_le t.swap.text.length),
    ← (bodiesStart host maxErrors t.program).downTo_downTo (Nat.zero_le t.text.length)]
  rcases downTo_ahead t.level skipBlock_text_length (t.ahead_bodies host maxErrors) with
    ⟨here, there⟩ | ⟨same, -⟩
  · have comes := comes accepted stores here
    obtain ⟨outside, home, outer, F, G, f, g, f', g', square, apart⟩ := square comes
    have like := (square.reordered outside comes.pass comes.named apart).downTo 0
    rw [downTo_downTo (Nat.zero_le _), downTo_downTo (Nat.zero_le _)] at like
    rw [there]
    exact .inr ⟨f, g, _, _, square.logs.2, like⟩
  · rw [same]
    exact .inl rfl

theorem accepted_swap (stores : t.StoresToMutable host maxErrors) :
    (ofTokens host maxErrors t.swap.program).isOk = true ∧
      (ofTokens host maxErrors t.program).Permuted (ofTokens host maxErrors t.swap.program) := by
  have first := (isOk_iff.mp accepted).1
  have declares := declared_swap first
  have first' : (runPass ⟨.declarations, host⟩ .empty { maxErrors } t.swap.program).Clean :=
    (congrArg DiagnosticLog.failed declares.log).trans first
  obtain ⟨clean, -, ended, closed, idle⟩ := leads_bodiesEnd accepted
  obtain ⟨root, modules⟩ := ofTokens_of_accepted accepted
  obtain ⟨last, swapped, either⟩ := bodies_swap accepted stores
  have like := (bodiesStart_swap first).downTo 0
  rw [swapped] at like
  generalize there : (bodiesStart host maxErrors t.swap.program).downTo 0 = final at like
  have between : last.Clean ∧ last.environment.scopes.opened = [] ∧ last.pendingDo = none := by
    rcases either with rfl | ⟨f, g, mine, theirs, -, alike⟩
    · exact ⟨clean, closed, idle⟩
    · obtain ⟨closed, idle, -⟩ := alike.ended closed idle
      exact ⟨alike.log.failed.trans clean, closed, idle⟩
  obtain ⟨cleanL, closedL, idleL⟩ := between
  obtain ⟨closed', idle', node⟩ := like.ended closedL idleL
  have ends : bodiesEnd host maxErrors t.swap.program = final := by
    have enough : (bodiesStart host maxErrors t.swap.program).remaining.length ≤
        t.swap.program.length := Nat.le_refl _
    show ((bodiesStart host maxErrors t.swap.program).steps t.swap.program.length).finish
      t.swap.program.getLast? = final
    rw [steps_eq_downTo enough, there, finish_eq closed' idle']
  have clean' : (bodiesEnd host maxErrors t.swap.program).Clean := by
    rw [ends]
    exact (congrArg DiagnosticLog.failed like.log).trans cleanL
  have accepted' := accepted_of_bodiesEnd first' clean'
  obtain ⟨root', modules'⟩ := ofTokens_of_accepted accepted'
  have same : final.environment.scopes.base.node = last.environment.scopes.base.node :=
    node.resolve_right fun apart => apart
  refine ⟨accepted', ?_, ?_, ?_⟩
  · rw [root, root', ends, same]
    rcases either with rfl | ⟨f, g, mine, theirs, -, alike⟩
    · exact .inl rfl
    · exact (alike.ended closed idle).2.2.imp id fun exchanged => ⟨f, g, exchanged⟩
  · rw [modules, modules', ends]
    rcases either with rfl | ⟨f, g, mine, theirs, -, alike⟩
    · exact like.environment.modules
    · exact alike.environment.modules.comp Slack.composes_reordered like.environment.modules
  · rw [log_of_accepted accepted, log_of_accepted accepted', ends,
      show final.log = last.log from like.log]
    rcases either with rfl | ⟨f, g, mine, theirs, perm, alike⟩
    · exact .refl _
    · obtain ⟨later, left, right⟩ := alike.log.entries
      rw [left, right]
      exact perm.append_right later

end Second

end FunctionPair

section Places

variable {m : Relocation}

theorem PrimitivelyTyped.move {tokens : List Token} (typed : PrimitivelyTyped tokens) :
    PrimitivelyTyped (MiLanguage.move m tokens) := by
  unfold PrimitivelyTyped
  rw [show MiLanguage.move m tokens = tokens.map (MiLanguage.move m) from rfl, List.isChain_map]
  exact typed

-- The same definition with its tokens in other places.
def FunctionItem.relocate (m : Relocation) (item : FunctionItem) : FunctionItem where
  heading := move m item.heading
  last := move m item.last
  block := move m item.block
  plain := by
    intro token member
    obtain ⟨other, here, rfl⟩ := List.mem_map.mp member
    exact item.plain other here
  names := by
    rw [find?_move fun _ => rfl, option_any_move fun _ => rfl]
    exact item.names
  typed := item.typed.move
  ends := by
    rcases item.ends with ⟨kind, block⟩ | ⟨kind, body, closing, block, balanced, closes⟩
    · exact .inl ⟨kind, by rw [block]; rfl⟩
    · refine .inr ⟨kind, move m body, move m closing, ?_, (closesAll_move 0 body).trans balanced, closes⟩
      rw [block, move_append]
      rfl

theorem FunctionItem.text_relocate (item : FunctionItem) : (item.relocate m).text = move m item.text := by
  simp only [text, relocate, move_append, move_cons]

theorem Analysis.bodiesStart_move (host : Host) (maxErrors : Nat) (tokens : List Token) :
    bodiesStart host maxErrors (move m tokens) = move m (bodiesStart host maxErrors tokens) := by
  have declares := runPass_move (m := m) ⟨.declarations, host⟩ .empty { maxErrors } tokens
  have quiet : move m ({ maxErrors } : DiagnosticLog) = { maxErrors } := rfl
  rw [ModuleTree.empty_move, quiet] at declares
  unfold bodiesStart
  rw [declares]
  exact startPass_move _ _ _ _

namespace FunctionPair

open Analysis

variable (t : FunctionPair) {host : Host} {maxErrors : Nat}

-- The same program with its tokens in other places.
def relocate (m : Relocation) (t : FunctionPair) : FunctionPair where
  before := move m t.before
  first := t.first.relocate m
  second := t.second.relocate m
  after := move m t.after
  whole := by
    intro token last
    rw [getLast?_move] at last
    obtain ⟨other, here, rfl⟩ := Option.map_eq_some_iff.mp last
    exact t.whole other here
  library := by
    rw [FunctionItem.text_relocate, FunctionItem.text_relocate, ← move_append, ← move_append, head?_move,
      head?_move, option_any_move fun _ => rfl, option_any_move fun _ => rfl]
    exact t.library

theorem text_relocate : (t.relocate m).text = move m t.text := by
  simp only [text, relocate, FunctionItem.text_relocate, move_append]

theorem program_relocate : (t.relocate m).program = move m t.program := by
  rw [program, text_relocate, program, move_append]
  rfl

theorem reached_relocate : (t.relocate m).reached host maxErrors = move m (t.reached host maxErrors) := by
  unfold reached
  rw [program_relocate, text_relocate, bodiesStart_move, length_move, AnalysisState.downTo_move]

theorem StoresFrom.move {t : FunctionPair} {u : AnalysisState} (stores : t.StoresFrom u) :
    (t.relocate m).StoresFrom (MiLanguage.move m u) := by
  have alone {item : FunctionItem}
      (stores : (u.facing (item.text ++ t.after)).StoresToMutable t.after.length) :
      ((MiLanguage.move m u).facing ((item.relocate m).text ++ (t.relocate m).after)).StoresToMutable
        (t.relocate m).after.length := by
    rw [FunctionItem.text_relocate, show (t.relocate m).after = MiLanguage.move m t.after from rfl,
      ← move_append, length_move]
    exact stores.move
  exact ⟨alone stores.1, alone stores.2⟩

theorem StoresToMutable.relocate {t : FunctionPair} (stores : t.StoresToMutable host maxErrors) :
    (t.relocate m).StoresToMutable host maxErrors := by
  intro here
  rw [reached_relocate] at here ⊢
  rw [AnalysisState.remaining_move, length_move, text_relocate, length_move] at here
  exact (stores here).move

end FunctionPair

/-- The same definition, but for where its tokens stand. -/
structure FunctionItem.SameText (item other : FunctionItem) : Prop where
  heading : move .nowhere other.heading = move .nowhere item.heading
  last : move .nowhere other.last = move .nowhere item.last
  block : move .nowhere other.block = move .nowhere item.block

theorem FunctionItem.SameText.relocate {item other : FunctionItem} (same : item.SameText other) :
    other.relocate .nowhere = item.relocate .nowhere := by
  simp only [FunctionItem.relocate, same.heading, same.last, same.block]

namespace FunctionPair

open Analysis

/-- The same program with the two definitions in the other order, but for where tokens stand. -/
structure Swapped (t q : FunctionPair) : Prop where
  before : move .nowhere q.before = move .nowhere t.before
  first : t.second.SameText q.first
  second : t.first.SameText q.second
  after : move .nowhere q.after = move .nowhere t.after

theorem Swapped.relocate {t q : FunctionPair} (swapped : t.Swapped q) :
    q.relocate .nowhere = (t.relocate .nowhere).swap := by
  simp only [FunctionPair.relocate, swap, swapped.before, swapped.first.relocate, swapped.second.relocate,
    swapped.after]

/-- The order of functions does not matter. A program with two definitions next to each other, with
headers of primitive types, is accepted with them in the one order if and only if it is in the other,
provided that neither body assigns or steps a global or a field that is not `mut`. Then the two trees
differ in the order of two nodes, the modules in the order of overloads, and the reports in their
order. -/
theorem order_irrelevant (host : Host) (maxErrors : Nat) (t q : FunctionPair) (swapped : t.Swapped q)
    (stores : t.StoresToMutable host maxErrors) :
    (ofTokens host maxErrors q.program).isOk = (ofTokens host maxErrors t.program).isOk ∧
      ((ofTokens host maxErrors t.program).isOk = true →
        (move .nowhere (ofTokens host maxErrors t.program)).Permuted
          (move .nowhere (ofTokens host maxErrors q.program))) := by
  have moved (t : FunctionPair) : ofTokens host maxErrors (t.relocate .nowhere).program =
      move .nowhere (ofTokens host maxErrors t.program) := by
    rw [program_relocate, ofTokens_move]
  have same := swapped.relocate
  have back : (q.relocate .nowhere).swap = t.relocate .nowhere := by
    rw [same]
    rfl
  have stores : (t.relocate .nowhere).StoresToMutable host maxErrors := stores.relocate
  have forth (accepted : (ofTokens host maxErrors t.program).isOk = true) :
      (ofTokens host maxErrors q.program).isOk = true ∧
        (move .nowhere (ofTokens host maxErrors t.program)).Permuted
          (move .nowhere (ofTokens host maxErrors q.program)) := by
    have swaps := accepted_swap (by rw [moved]; exact accepted) stores
    rw [← same, moved, moved] at swaps
    exact swaps
  have again (accepted : (ofTokens host maxErrors q.program).isOk = true) :
      (ofTokens host maxErrors t.program).isOk = true := by
    have accepted : (ofTokens host maxErrors (q.relocate .nowhere).program).isOk = true := by
      rw [moved]
      exact accepted
    have stores := storesToMutable_of_swap (isOk_iff.mp accepted).1 (by rw [back]; exact stores)
    have swaps := (accepted_swap accepted stores).1
    rw [back, moved] at swaps
    exact swaps
  refine ⟨Bool.eq_iff_iff.mpr ⟨again, fun accepted => (forth accepted).1⟩, fun accepted => (forth accepted).2⟩

-- The definition of a function with a body.
def braced (heading body : List Token) (plain : Outline.Plain heading)
    (names : (heading.find? (!·.kind.isModifier)).any (·.kind = .keyword .fn) = true)
    (typed : PrimitivelyTyped heading) (balanced : closesAll 0 body = true) : FunctionItem where
  heading := heading
  last := .alone .leftBrace "\x7b"
  block := body ++ [.alone .rightBrace "\x7d"]
  plain := plain
  names := names
  typed := typed
  ends := .inr ⟨rfl, body, _, rfl, balanced, rfl⟩

-- The definition `fn f :: int (int x) { g = x; b = x; ret f(); }`.
def assigning : FunctionItem :=
  braced [.alone (.keyword .fn) "fn", .alone .identifier "f", .alone .doubleColon "::",
      .alone (.datatype .int) "int", .alone .leftParen "(", .alone (.datatype .int) "int",
      .alone .identifier "x", .alone .rightParen ")"]
    [.alone .identifier "g", .alone .assign "=", .alone .identifier "x", .alone .semicolon ";",
      .alone .identifier "b", .alone .assign "=", .alone .identifier "x", .alone .semicolon ";",
      .alone (.keyword .ret) "ret", .alone .identifier "f", .alone .leftParen "(",
      .alone .rightParen ")", .alone .semicolon ";"]
    (by unfold Outline.Plain; decide) (by decide) (by decide) (by decide)

-- The definition `fn f :: int { ret f(k); }`.
def calling : FunctionItem :=
  braced [.alone (.keyword .fn) "fn", .alone .identifier "f", .alone .doubleColon "::",
      .alone (.datatype .int) "int"]
    [.alone (.keyword .ret) "ret", .alone .identifier "f", .alone .leftParen "(",
      .alone .identifier "k", .alone .rightParen ")", .alone .semicolon ";"]
    (by unfold Outline.Plain; decide) (by decide) (by decide) (by decide)

-- The text `module m { int k = 1; mut int g; class c { int a; mut int b;`.
def beforeFunctions : List Token :=
  [.alone (.keyword .module) "module", .alone .identifier "m", .alone .leftBrace "\x7b",
    .alone (.datatype .int) "int", .alone .identifier "k", .alone .assign "=",
    .alone (.literal .int) "1", .alone .semicolon ";",
    .alone (.modifier .mut) "mut", .alone (.datatype .int) "int", .alone .identifier "g",
    .alone .semicolon ";", .alone (.keyword .class) "class", .alone .identifier "c",
    .alone .leftBrace "\x7b", .alone (.datatype .int) "int", .alone .identifier "a",
    .alone .semicolon ";", .alone (.modifier .mut) "mut", .alone (.datatype .int) "int",
    .alone .identifier "b", .alone .semicolon ";"]

theorem beforeFunctions_whole : Whole beforeFunctions := by decide

-- The two of them in `module m { int k = 1; mut int g; class c { int a; mut int b; … } }`.
def overloaded : FunctionPair where
  before := beforeFunctions
  first := assigning
  second := calling
  after := [.alone .rightBrace "\x7d", .alone .rightBrace "\x7d"]
  whole := beforeFunctions_whole
  library := rfl

theorem overloaded_swapped :
    (ofTokens {} 0 overloaded.program).isOk = true ∧ overloaded.StoresToMutable {} 0 ∧
      (ofTokens {} 0 overloaded.swap.program).isOk = true ∧
      (move .nowhere (ofTokens {} 0 overloaded.program)).Permuted
        (move .nowhere (ofTokens {} 0 overloaded.swap.program)) := by
  have swapped : overloaded.Swapped overloaded.swap := ⟨rfl, ⟨rfl, rfl, rfl⟩, ⟨rfl, rfl, rfl⟩, rfl⟩
  have accepted : (ofTokens {} 0 overloaded.program).isOk = true := by decide +kernel
  have stores : overloaded.StoresToMutable {} 0 := by decide +kernel
  obtain ⟨same, permuted⟩ := order_irrelevant {} 0 overloaded overloaded.swap swapped stores
  exact ⟨accepted, stores, same.trans accepted, permuted accepted⟩

end FunctionPair

end Places

end MiLanguage
