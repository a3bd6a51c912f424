import MiLanguage.Proofs.Likeness.Run
import MiLanguage.Proofs.Ordering.Additions
import MiLanguage.Proofs.Passes.Declaring
import MiLanguage.Proofs.Passes.InStep
import MiLanguage.Proofs.Symbols.Run
import MiLanguage.Proofs.Symbols.WellFormed
import MiLanguage.Proofs.Typing.Shape

set_option autoImplicit false

namespace MiLanguage

-- The same overloads of a name. Those of one signature come in the same order, where a table may
-- have several.
def SameOverloads (fs gs : List FunctionDefinition) : Prop :=
  ∀ types, gs.filter (·.paramTypes = types) = fs.filter (·.paramTypes = types)

section Lists

variable {fs gs hs : List FunctionDefinition} {f g : FunctionDefinition} {types : List Datatype}

theorem sameOverloads_refl (fs : List FunctionDefinition) : SameOverloads fs fs := fun _ => rfl

theorem SameOverloads.append (same : SameOverloads fs gs) (f : FunctionDefinition) :
    SameOverloads (fs ++ [f]) (gs ++ [f]) := fun types => by
  rw [List.filter_append, List.filter_append, same types]

theorem sameOverloads_swap (apart : f.paramTypes ≠ g.paramTypes) (fs : List FunctionDefinition) :
    SameOverloads (fs ++ [f] ++ [g]) (fs ++ [g] ++ [f]) := fun types => by
  simp only [List.filter_append, List.append_assoc]
  congr 1
  by_cases mine : f.paramTypes = types
  · have theirs : g.paramTypes ≠ types := fun same => apart (mine.trans same.symm)
    simp [mine, theirs]
  · simp [mine]

theorem SameOverloads.perm (same : SameOverloads fs gs) : gs.Perm fs := by
  classical
  rw [List.perm_iff_count]
  intro f
  have counted (hs : List FunctionDefinition) :
      (hs.filter (·.paramTypes = f.paramTypes)).count f = hs.count f :=
    List.count_filter (by simp)
  rw [← counted, same, counted]

theorem modifyFirst_none {change : FunctionDefinition → FunctionDefinition}
    (distinct : ∀ f ∈ fs, f.paramTypes ≠ types) :
    FunctionTable.modifyFirst (·.paramTypes = types) change fs = fs := by
  induction fs with
  | nil => rfl
  | cons f fs ih =>
      rw [FunctionTable.modifyFirst, if_neg (by simpa using distinct f List.mem_cons_self),
        ih fun g member => distinct g (List.mem_cons_of_mem _ member)]

-- A body that is filled in does not change which overloads there are of a signature.
theorem filter_modifyFirst (fs : List FunctionDefinition) (types : List Datatype)
    {change : FunctionDefinition → FunctionDefinition} (keeps : ∀ f, (change f).paramTypes = f.paramTypes) (wanted : List Datatype) :
    (FunctionTable.modifyFirst (·.paramTypes = types) change fs).filter (·.paramTypes = wanted) =
      FunctionTable.modifyFirst (·.paramTypes = types) change (fs.filter (·.paramTypes = wanted)) := by
  induction fs with
  | nil => rfl
  | cons f fs ih =>
      by_cases here : f.paramTypes = types
      · rw [FunctionTable.modifyFirst, if_pos (by simpa using here)]
        by_cases kept : f.paramTypes = wanted
        · rw [List.filter_cons_of_pos (by simpa [keeps] using kept),
            List.filter_cons_of_pos (by simpa using kept), FunctionTable.modifyFirst,
            if_pos (by simpa using here)]
        · rw [List.filter_cons_of_neg (by simpa [keeps] using kept),
            List.filter_cons_of_neg (by simpa using kept), modifyFirst_none]
          intro g member same
          have wanted := (List.mem_filter.mp member).2
          exact kept (here.trans (same.symm.trans (by simpa using wanted)))
      · rw [FunctionTable.modifyFirst, if_neg (by simpa using here)]
        by_cases kept : f.paramTypes = wanted
        · rw [List.filter_cons_of_pos (by simpa using kept),
            List.filter_cons_of_pos (by simpa using kept), FunctionTable.modifyFirst,
            if_neg (by simpa using here), ih]
        · rw [List.filter_cons_of_neg (by simpa using kept),
            List.filter_cons_of_neg (by simpa using kept), ih]

theorem SameOverloads.filled (same : SameOverloads fs gs) (types : List Datatype) (m : Node) :
    SameOverloads (FunctionTable.modifyFirst (·.paramTypes = types) ({ · with body := .tree m }) fs)
      (FunctionTable.modifyFirst (·.paramTypes = types) ({ · with body := .tree m }) gs) := by
  have kept (hs : List FunctionDefinition) (wanted : List Datatype) :=
    filter_modifyFirst hs types (fun _ => rfl : ∀ f : FunctionDefinition,
      ({ f with body := .tree m } : FunctionDefinition).paramTypes = f.paramTypes) wanted
  intro wanted
  rw [kept, kept, same]

end Lists

-- Two analyses that differ in the order of overloads.
def Slack.permuted : Slack where
  exact := true
  marked := false
  vars _ _ v w := w = v
  overloads _ _ := SameOverloads
  constructors _ f g := g = f
  nodes _ _ := False
  bodies _ := False
  logs l k := k = l
  vars_same := @Variable.same_of_eq
  vars_marked := @Variable.marked_of_eq
  overloads_none _ _ := sameOverloads_refl []
  overloads_perm same := same.perm.map _
  overloads_filled {_ _ types _ _ _ _} same bodies := by
    rcases bodies with rfl | ⟨apart, -⟩
    · exact same.filled types _
    · exact apart.elim
  constructors_filled same bodies := by
    rcases bodies with rfl | ⟨apart, -⟩
    · rw [same]
    · exact apart.elim
  nodes_push _ apart := apart.elim
  nodes_nest _ apart := apart.elim
  logs_report _ same := by rw [same]
  logs_error inexact := by cases inexact
  logs_warning inexact := by cases inexact

theorem Slack.reflexive_permuted : Slack.permuted.Reflexive where
  vars _ _ _ := rfl
  overloads _ _ := sameOverloads_refl
  constructors _ _ := rfl

theorem Slack.declares_permuted : Slack.permuted.Declares where
  vars _ _ _ := rfl
  overloads f same _ := same.append f
  constructors _ _ := rfl

section Adding

variable {t one two : FunctionTable} {f g : FunctionDefinition}

theorem FunctionTable.add?_of_fresh (fresh : (t.overloads f.name).any (·.sameSignature f) = false) :
    ∃ grown, t.add? f = some grown := by
  unfold FunctionTable.add?
  rw [fresh]
  exact ⟨_, rfl⟩

theorem FunctionTable.fresh_of_add? (added : t.add? f = some one) :
    (t.overloads f.name).any (·.sameSignature f) = false := by
  unfold FunctionTable.add? at added
  split at added
  next => cases added
  next free => simpa using free

theorem FunctionTable.add?_comm (first : t.add? f = some one) (second : one.add? g = some two)
    (o : Owner) :
    (f.name = g.name → f.paramTypes ≠ g.paramTypes) ∧
      ∃ one' two', t.add? g = some one' ∧ one'.add? f = some two' ∧ two.Like .permuted o two' := by
  have fresh := FunctionTable.fresh_of_add? first
  have fresh' := FunctionTable.fresh_of_add? second
  rw [overloads_add? first, List.any_append, Bool.or_eq_false_iff] at fresh'
  have apart : f.name = g.name → f.paramTypes ≠ g.paramTypes := by
    intro same types
    have clash := fresh'.2
    rw [if_pos same.symm] at clash
    simp [FunctionDefinition.sameSignature, same, types] at clash
  obtain ⟨one', added⟩ := FunctionTable.add?_of_fresh fresh'.1
  have fresh₂ : (one'.overloads f.name).any (·.sameSignature f) = false := by
    rw [overloads_add? added, List.any_append, fresh, Bool.false_or]
    split
    next same =>
      have types := apart same
      simp [FunctionDefinition.sameSignature, Ne.symm types]
    next => rfl
  obtain ⟨two', added'⟩ := FunctionTable.add?_of_fresh fresh₂
  refine ⟨apart, one', two', added, added', fun name => ?_⟩
  rw [overloads_add? second, overloads_add? first, overloads_add? added', overloads_add? added]
  by_cases mine : name = f.name
  · by_cases theirs : name = g.name
    · rw [if_pos mine, if_pos theirs]
      exact sameOverloads_swap (apart (mine.symm.trans theirs)) _
    · rw [if_pos mine, if_neg theirs, List.append_nil, List.append_nil]
      exact sameOverloads_refl _
  · rw [if_neg mine, List.append_nil, List.append_nil]
    exact sameOverloads_refl _

end Adding

namespace Environment

variable {env one two : Environment} {f g : FunctionDefinition} {id : ModuleId}
  {c : ClassDeclaration}

def withFunctions (env : Environment) (id : ModuleId) (functions : FunctionTable) : Environment :=
  { env with modules := env.modules.modifyMembers id fun m => { m with functions } }

theorem owner_of_isModule (isModule : env.frame.isModule = true) :
    env.owner = .module env.currentModule := by
  unfold Environment.owner
  cases frame : env.frame <;> first | rfl | (rw [frame] at isModule; cases isModule)

theorem owner_of_class (frame : env.frame = .class id c) : env.owner = .inClass id c.name := by
  unfold Environment.owner
  rw [frame]

theorem addFunction?_module (owner : f.owner = .module id) :
    env.addFunction? f = ((env.modules.get id).members.functions.add? f).map (env.withFunctions id) := by
  unfold Environment.addFunction? ModuleTree.addFunction?
  rw [owner]
  simp only [Option.map_map]
  rfl

theorem addFunction?_class (frame : env.frame = .class id c) (deep : env.scopes.opened ≠ [])
    {name : String} (owner : f.owner = .inClass id name) :
    env.addFunction? f = (c.methods.add? f).map fun methods =>
      env.withFrame (.class id { c with methods }) := by
  unfold Environment.addFunction?
  rw [owner, class?_of_frame frame]
  simp only [modifyClass?_of_frame frame deep]
  cases c.methods.add? f <;> rfl

theorem opened_of_class (outer : env.Outer) (frame : env.frame = .class id c) :
    env.scopes.opened ≠ [] := by
  intro opened
  obtain ⟨top, below, titles, -, -, last⟩ := outer.outside
  have title := (title_frame outer.outside).2.2
  have only : env.titles = [env.scopes.base.title] := by
    simp [Environment.titles, ScopeStack.all, opened]
  rw [only] at last title
  simp only [List.getLast?_singleton, List.head?_cons, Option.some.injEq] at last title
  rw [last, frame] at title
  cases title

theorem addFunction?_keeps (outer : env.Outer)
    (host : (env.frame.isModule || env.frame.isClass) = true) (owner : f.owner = env.owner)
    (added : env.addFunction? f = some one) :
    one.owner = env.owner ∧
      ∀ head, one.requireFunctionPlace head = env.requireFunctionPlace head := by
  cases isModule : env.frame.isModule with
  | true =>
      rw [addFunction?_module (owner.trans (owner_of_isModule isModule))] at added
      obtain ⟨functions, -, rfl⟩ := Option.map_eq_some_iff.mp added
      exact ⟨rfl, fun _ => rfl⟩
  | false =>
      rw [isModule, Bool.false_or] at host
      cases frame : env.frame with
      | «class» id c =>
          rw [addFunction?_class frame (opened_of_class outer frame)
            (owner.trans (owner_of_class frame))] at added
          obtain ⟨methods, -, rfl⟩ := Option.map_eq_some_iff.mp added
          have now := env.frame_withFrame (.class id { c with methods })
          refine ⟨(owner_of_class now).trans (owner_of_class frame).symm, fun head => ?_⟩
          rw [Environment.requireFunctionPlace, now, Environment.requireFunctionPlace, frame]
      | _ => rw [frame] at host; cases host

theorem addFunction?_comm (outer : env.Outer) (wellFormed : env.WellFormed)
    (host : (env.frame.isModule || env.frame.isClass) = true) (owner : f.owner = env.owner)
    (owner' : g.owner = env.owner) (first : env.addFunction? f = some one)
    (second : one.addFunction? g = some two) :
    (f.name = g.name → f.paramTypes ≠ g.paramTypes) ∧
      ∃ one' two', env.addFunction? g = some one' ∧ one'.addFunction? f = some two' ∧
        two.Like .permuted two' := by
  have reflexive := Slack.reflexive_permuted
  have named := fun id name c found => ((wellFormed.modules.members id).classes name c found).named
  cases isModule : env.frame.isModule with
  | true =>
      have here := owner_of_isModule isModule
      have inside : env.currentModule.index < env.modules.size := by
        rw [← size_declared]
        exact outer.currentModule_lt
      have changed (functions : FunctionTable) : ((env.withFunctions env.currentModule
          functions).modules.get env.currentModule).members.functions = functions := by
        rw [withFunctions, ModuleTree.members_modifyMembers, if_pos ⟨rfl, inside⟩]
      rw [addFunction?_module (owner.trans here)] at first
      obtain ⟨fs, added, rfl⟩ := Option.map_eq_some_iff.mp first
      rw [addFunction?_module (owner'.trans here), changed] at second
      obtain ⟨gs, added', rfl⟩ := Option.map_eq_some_iff.mp second
      obtain ⟨apart, hs, ks, grown, grown', like⟩ :=
        FunctionTable.add?_comm added added' (.module env.currentModule)
      refine ⟨apart, env.withFunctions env.currentModule hs,
        (env.withFunctions env.currentModule hs).withFunctions env.currentModule ks, ?_, ?_, ?_, ?_, rfl⟩
      · rw [addFunction?_module (owner'.trans here), grown]
        rfl
      · rw [addFunction?_module (owner.trans here), changed, grown']
        rfl
      · unfold withFunctions
        simp only [ModuleTree.modifyMembers_modifyMembers]
        exact (ModuleTree.like_self reflexive named).modifyMembers fun m n members =>
          ⟨like, members.globals, members.classes, members.enums⟩
      · exact ⟨List.forall₂_same.mpr fun s _ => s.like_refl reflexive, .refl _⟩
  | false =>
      rw [isModule, Bool.false_or] at host
      cases frame : env.frame with
      | «class» id c =>
          have here := owner_of_class frame
          have deep := opened_of_class outer frame
          have deep' (new : Frame) := (env.opened_withFrame new).mpr deep
          rw [addFunction?_class frame deep (owner.trans here)] at first
          obtain ⟨fs, added, rfl⟩ := Option.map_eq_some_iff.mp first
          rw [addFunction?_class (frame_withFrame env _) (deep' _) (owner'.trans here)] at second
          obtain ⟨gs, added', rfl⟩ := Option.map_eq_some_iff.mp second
          obtain ⟨apart, hs, ks, grown, grown', like⟩ :=
            FunctionTable.add?_comm added added' (.inClass id c.name)
          refine ⟨apart, env.withFrame (.class id { c with methods := hs }),
            (env.withFrame (.class id { c with methods := hs })).withFrame
              (.class id { c with methods := ks }), ?_, ?_, ?_, ?_, rfl⟩
          · rw [addFunction?_class frame deep (owner'.trans here), grown]
            rfl
          · rw [addFunction?_class (frame_withFrame env _) (deep' _) (owner.trans here), grown']
            rfl
          · exact ModuleTree.like_self reflexive named
          · rw [withFrame_withFrame, withFrame_withFrame]
            obtain ⟨around, -, changed⟩ := env.scopes.all_eq_current
            unfold withFrame
            constructor
            · rw [changed, changed]
              refine .cons ⟨.class ?_, rfl⟩
                (List.forall₂_same.mpr fun s _ => s.like_refl reflexive)
              have same := ClassDeclaration.like_refl reflexive (.inClass id c.name) c
              exact ⟨rfl, rfl, rfl, same.fields, like, same.constructor⟩
            · rw [changed, changed]
              exact .none rfl
      | _ => rw [frame] at host; cases host

end Environment

namespace FunctionItem

-- Two definitions that do not clash, by the names and the parameters in their headers.
def Apart (one two : FunctionItem) : Prop :=
  ∀ ⦃mods mods' : LeadingModifiers⦄ ⦃head head' : Token⦄ ⦃tail tail' : List Token⦄ ⦃h h' : Header⦄,
    one.Reads mods head tail h → two.Reads mods' head' tail' h' →
    h.name.lexeme = h'.name.lexeme → h.paramTypes ≠ h'.paramTypes

theorem Reads.unique {item : FunctionItem} {mods mods' : LeadingModifiers} {head head' : Token}
    {tail tail' : List Token} {h h' : Header} (reads : item.Reads mods head tail h)
    (reads' : item.Reads mods' head' tail' h') :
    mods' = mods ∧ head' = head ∧ tail' = tail ∧ h' = h := by
  have same := reads.modifiers.symm.trans reads'.modifiers
  cases same
  refine ⟨rfl, rfl, rfl, ?_⟩
  have env : Environment := ⟨.empty, .start ModuleTree.root Analysis.emptyRoot, false⟩
  exact (Except.ok.inj ((reads.header env).symm.trans (reads'.header env))).symm

end FunctionItem

/-- A program with two definitions of functions side by side. If it starts with them, either both are
the library's or neither is. -/
structure FunctionPair where
  before : List Token
  first : FunctionItem
  second : FunctionItem
  after : List Token
  whole : Whole before
  library : (before ++ second.text).head?.any (·.span.isLibrary) =
    (before ++ first.text).head?.any (·.span.isLibrary)

namespace FunctionPair

variable (t : FunctionPair)

-- The definitions, and all that follows.
def text : List Token := t.first.text ++ (t.second.text ++ t.after)

def program : List Token := t.before ++ t.text

def swap : FunctionPair :=
  { t with first := t.second, second := t.first, library := t.library.symm }

theorem level (depth : Nat) : Chunk.skipBlock depth t.text = Chunk.skipBlock depth t.swap.text := by
  simp only [text, swap, FunctionItem.skipBlock_text]

theorem library_program : t.swap.program.head?.any (·.span.isLibrary) =
    t.program.head?.any (·.span.isLibrary) := by
  have head (before : List Token) (item : FunctionItem) (rest : List Token) :
      (before ++ (item.text ++ rest)).head? = (before ++ item.text).head? := by
    rw [← List.append_assoc, List.head?_append_of_ne_nil _ (by simp [item.ne_nil])]
  have library := t.library
  rw [← head _ _ (t.first.text ++ t.after), ← head _ t.first (t.second.text ++ t.after)] at library
  exact library

theorem startPass_swap (setting : Setting) (modules : ModuleTree) (log : DiagnosticLog) :
    Analysis.startPass setting modules log t.swap.program =
      (Analysis.startPass setting modules log t.program).facing t.swap.program := by
  simp only [Analysis.startPass, library_program, AnalysisState.facing]

theorem ahead_swap (setting : Setting) (modules : ModuleTree) (log : DiagnosticLog) :
    AnalysisState.Ahead t.text t.swap.text (Analysis.startPass setting modules log t.program)
      (Analysis.startPass setting modules log t.swap.program) :=
  ⟨t.before, t.whole, rfl, t.startPass_swap setting modules log⟩

end FunctionPair

namespace AnalysisState

variable {s t u last : AnalysisState}

theorem Leads.clean (leads : s.Leads t) (clean : s.Clean) : t.Clean := by
  rcases Relation.ReflTransGen.cases_tail leads with same | ⟨u, -, step⟩
  · rw [same]
    exact clean
  · exact step.2

theorem like_self {σ : Slack} (reflexive : σ.Reflexive) (declares : σ.Declares)
    (logs : σ.logs s.log s.log) (wellFormed : s.environment.WellFormed) : s.Like σ s where
  declares _ := declares
  setting := rfl
  remaining := rfl
  environment := ⟨ModuleTree.like_self reflexive fun id name c found =>
      ((wellFormed.modules.members id).classes name c found).named,
    ⟨List.forall₂_same.mpr fun s _ => s.like_refl reflexive, .refl _⟩, rfl⟩
  waiting := rfl
  nested := .refl _
  log := logs

theorem exists_cleanStep (leads : s.Leads last) (ended : last.remaining = [])
    (text : s.remaining ≠ []) : ∃ u, CleanStep s u ∧ u.Leads last :=
  leads.head_of_remaining (by rw [ended]; exact text.symm)

end AnalysisState

namespace FunctionItem

variable {item : FunctionItem} {p q : AnalysisState} {rest : List Token}

theorem declared (remaining : p.remaining = item.text ++ rest) (pass : p.declaring = true)
    (step : AnalysisState.CleanStep p q) :
    p.pendingDo = none ∧ (p.environment.frame.isModule || p.environment.frame.isClass) = true ∧
      ∃ mods head tail h body env, item.Reads mods head tail h ∧
        p.environment.addFunction? (p.environment.definition mods h body) = some env ∧
        q = { p with remaining := rest, environment := env } ∧
        ∀ other declared : Environment,
          other.requireFunctionPlace head = p.environment.requireFunctionPlace head →
          other.addFunction? (other.definition mods h body) = some declared →
          other.function p.setting mods head tail = .ok ⟨declared, none⟩ := by
  obtain ⟨idle, mods, head, tail, h, accepted, reads, function, same⟩ :=
    FunctionItem.accepted remaining step
  obtain ⟨-, body, added, again⟩ := declares_of_function reads function pass
  refine ⟨idle, host_of_function function, mods, head, tail, h, body, _, reads, added, ?_, again⟩
  rw [same, if_pos pass, Environment.settled_declaring pass]

end FunctionItem

namespace FunctionPair

variable {t : FunctionPair} {u last : AnalysisState}

open AnalysisState

theorem declares_both (remaining : u.remaining = t.text) (pass : u.declaring = true)
    (clean : u.Clean) (outer : u.environment.Outer) (wellFormed : u.environment.WellFormed)
    (leads : u.Leads last) (ended : last.remaining = []) :
    t.first.Apart t.second ∧ ∃ w w' : AnalysisState, w.Leads last ∧
      (u.facing t.swap.text).Leads w' ∧ w.Like .permuted w' := by
  have nonempty (item : FunctionItem) (rest : List Token) : item.text ++ rest ≠ [] := by
    simp [item.ne_nil]
  -- What the two definitions declare.
  obtain ⟨v, step, leads⟩ := exists_cleanStep leads ended (remaining ▸ nonempty _ _)
  obtain ⟨idle, host, mods, head, tail, h, body, one, reads, added, rfl, again⟩ :=
    FunctionItem.declared remaining pass step
  obtain ⟨w, step', leads⟩ := exists_cleanStep leads ended (nonempty _ _)
  obtain ⟨-, -, mods', head', tail', h', body', two, reads', added', rfl, again'⟩ :=
    FunctionItem.declared rfl (by exact pass) step'
  dsimp only at added' again'
  obtain ⟨owner, place⟩ := Environment.addFunction?_keeps outer host rfl added
  have same : one.definition mods' h' body' = u.environment.definition mods' h' body' := by
    unfold Environment.definition
    rw [owner]
  rw [same] at added'
  -- They are declared in the other order, too.
  obtain ⟨apart, one', two', first, second, like⟩ :=
    Environment.addFunction?_comm outer wellFormed host rfl rfl added added'
  obtain ⟨owner', place'⟩ := Environment.addFunction?_keeps outer host rfl first
  have same' : one'.definition mods h body = u.environment.definition mods h body := by
    unfold Environment.definition
    rw [owner']
  have level {env grown : Environment} {f : FunctionDefinition}
      (added : env.addFunction? f = Option.some grown) : grown.scopes.depth = env.scopes.depth := by
    rw [Environment.length_shape, Environment.length_shape, Environment.shape_addFunction? added]
  have stepped : CleanStep (u.facing t.swap.text)
      { u with remaining := t.first.text ++ t.after, environment := one' } :=
    FunctionItem.declares (p := u.facing t.swap.text) rfl pass clean idle reads'
      (again' _ _ (place head').symm first) (level first)
  have stepped' : CleanStep
      { u with remaining := t.first.text ++ t.after, environment := one' }
      { u with remaining := t.after, environment := two' } :=
    FunctionItem.declares
      (p := { u with remaining := t.first.text ++ t.after, environment := one' }) rfl pass clean idle
      reads (again _ _ (place' head) (same'.symm ▸ second)) (level second)
  refine ⟨fun _ _ _ _ _ _ g g' item item' names => ?_, _, _, leads,
    .tail (.single stepped) stepped', ?_⟩
  · obtain ⟨-, -, -, rfl⟩ := reads.unique item
    obtain ⟨-, -, -, rfl⟩ := reads'.unique item'
    exact apart names
  · refine AnalysisState.Idle.like ⟨fun _ => Slack.declares_permuted, rfl, rfl, like, idle, idle, rfl⟩

end FunctionPair

end MiLanguage
