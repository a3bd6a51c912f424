import MiLanguage.Proofs.Ordering.Additions
import MiLanguage.Proofs.Ordering.Declarations

set_option autoImplicit false

namespace MiLanguage

namespace SymbolTable

variable {α : Type} {t u : SymbolTable α}

theorem find?_eq_some_iff {name : String} {a : α} : t.find? name = some a ↔ (name, a) ∈ t.entries := by
  obtain ⟨entries, sorted⟩ := t
  unfold find?
  induction entries with
  | nil => simp
  | cons entry rest ih =>
      obtain ⟨n, v⟩ := entry
      obtain ⟨first, sorted⟩ := List.pairwise_cons.mp sorted
      rw [lookup_cons, List.mem_cons, Prod.mk.injEq]
      split
      next same =>
        subst same
        have fresh : (name, a) ∉ rest := fun member => String.lt_irrefl _ (first (name, a) member)
        simp [fresh, eq_comm]
      next other =>
        rw [ih sorted]
        simp [other]

theorem ext_find? (same : ∀ name, t.find? name = u.find? name) : t = u := by
  have nodup (t : SymbolTable α) : t.entries.Nodup :=
    t.sorted.imp fun {a b} (less : a.1 < b.1) (same : a = b) => String.lt_irrefl b.1 (same ▸ less)
  have perm : t.entries.Perm u.entries := by
    refine (List.perm_ext_iff_of_nodup (nodup t) (nodup u)).mpr fun entry => ?_
    rw [← find?_eq_some_iff (t := t), ← find?_eq_some_iff (t := u), same]
  have entries := perm.eq_of_pairwise
    (fun a b _ _ less more => absurd (String.lt_trans less more) (String.lt_irrefl _)) t.sorted u.sorted
  cases t
  cases u
  cases entries
  rfl

theorem modify_comm (t : SymbolTable α) (n m : String) {f g : α → α}
    (comm : n = m → ∀ a, f (g a) = g (f a)) : (t.modify n f).modify m g = (t.modify m g).modify n f := by
  refine ext_find? fun name => ?_
  simp only [find?_modify]
  by_cases mine : name = n
  · by_cases theirs : name = m
    · subst mine theirs
      simp only [if_true, Option.map_map]
      exact congrArg (fun h => (t.find? name).map h) (funext fun a => (comm rfl a).symm)
    · subst mine
      simp only [if_true, theirs, if_false]
  · by_cases theirs : name = m
    · subst theirs
      simp only [mine, if_false, if_true]
    · simp only [mine, theirs, if_false]

end SymbolTable

namespace FunctionTable

variable {fs : List FunctionDefinition} {one two : List Datatype}
  {f g : FunctionDefinition → FunctionDefinition}

theorem modifyFirst_comm (apart : one ≠ two) (keeps : ∀ d, (f d).paramTypes = d.paramTypes)
    (keeps' : ∀ d, (g d).paramTypes = d.paramTypes) :
    modifyFirst (·.paramTypes = one) f (modifyFirst (·.paramTypes = two) g fs) =
      modifyFirst (·.paramTypes = two) g (modifyFirst (·.paramTypes = one) f fs) := by
  induction fs with
  | nil => rfl
  | cons d fs ih =>
      by_cases mine : d.paramTypes = one
      · have theirs : d.paramTypes ≠ two := fun same => apart (mine.symm.trans same)
        simp [modifyFirst, keeps, mine, apart]
      · by_cases theirs : d.paramTypes = two
        · simp [modifyFirst, keeps', theirs, Ne.symm apart]
        · simp [modifyFirst, mine, theirs, ih]

-- Bodies of different functions are stored in either order.
theorem modify_comm (t : FunctionTable) {n m : String} (apart : n = m → one ≠ two)
    (keeps : ∀ d, (f d).paramTypes = d.paramTypes) (keeps' : ∀ d, (g d).paramTypes = d.paramTypes) :
    (t.modify n one f).modify m two g = (t.modify m two g).modify n one f :=
  congrArg FunctionTable.mk (t.table.modify_comm n m fun same _ =>
    modifyFirst_comm (apart same) keeps keeps')

end FunctionTable

-- The module that the function is in.
def BodyOwner.moduleId : BodyOwner → ModuleId
  | .function (.module id) _ _ | .function (.inClass id _) _ _ | .constructor id _ => id

-- The members of that module with the body stored.
def Members.withBody (body : Node) (owner : BodyOwner) (m : Members) : Members :=
  match owner with
  | .function (.module _) name types =>
      { m with functions := m.functions.modify name types ({ · with body := .tree body }) }
  | .function (.inClass _ c) name types =>
      { m with classes := m.classes.modify c fun c =>
        { c with methods := c.methods.modify name types ({ · with body := .tree body }) } }
  | .constructor _ c =>
      { m with classes := m.classes.modify c fun c =>
        { c with constructor := c.constructor.map ({ · with body := .tree body }) } }

theorem Members.withBody_comm {F G : BodyOwner} (apart : F ≠ G) (home : F.moduleId = G.moduleId)
    (f g : Node) (m : Members) :
    (m.withBody g G).withBody f F = (m.withBody f F).withBody g G := by
  have functions (t : FunctionTable) {n n' : String} {types types' : List Datatype}
      (clash : n' = n → types' ≠ types) :
      (t.modify n' types' ({ · with body := .tree g })).modify n types ({ · with body := .tree f }) =
        (t.modify n types ({ · with body := .tree f })).modify n' types' ({ · with body := .tree g }) :=
    t.modify_comm clash (fun _ => rfl) fun _ => rfl
  have classes {n n' : String} {change other : ClassDeclaration → ClassDeclaration}
      (comm : n' = n → ∀ c, other (change c) = change (other c)) :
      (m.classes.modify n' other).modify n change = (m.classes.modify n change).modify n' other :=
    m.classes.modify_comm n' n comm
  cases F with
  | function o n types =>
      cases G with
      | function o' n' types' =>
          cases o with
          | module i =>
              cases o' with
              | module j =>
                  cases home
                  refine congrArg (fun t => { m with functions := t }) (functions m.functions ?_)
                  rintro rfl rfl
                  exact apart rfl
              | inClass => rfl
          | inClass i c =>
              cases o' with
              | module => rfl
              | inClass j d =>
                  cases home
                  refine congrArg (fun t => { m with classes := t }) (classes ?_)
                  rintro rfl e
                  refine congrArg (fun t => { e with methods := t }) (functions e.methods ?_).symm
                  rintro rfl rfl
                  exact apart rfl
      | constructor j d =>
          cases o with
          | module => rfl
          | inClass i c =>
              refine congrArg (fun t => { m with classes := t }) (classes ?_)
              exact fun _ _ => rfl
  | constructor i c =>
      cases G with
      | function o' n' types' =>
          cases o' with
          | module => rfl
          | inClass j d =>
              refine congrArg (fun t => { m with classes := t }) (classes ?_)
              exact fun _ _ => rfl
      | constructor j d =>
          cases home
          refine congrArg (fun t => { m with classes := t }) (classes ?_)
          rintro rfl
          exact absurd rfl apart

namespace ModuleTree

variable {t u : ModuleTree} {f g : Node} {F G : BodyOwner}

theorem modifyMembers_comm (t : ModuleTree) (i j : ModuleId) {h k : Members → Members}
    (comm : i = j → ∀ m, h (k m) = k (h m)) :
    (t.modifyMembers i h).modifyMembers j k = (t.modifyMembers j k).modifyMembers i h := by
  by_cases same : i = j
  · subst same
    rw [modifyMembers_modifyMembers, modifyMembers_modifyMembers]
    exact congrArg (t.modifyMembers i) (funext fun m => (comm rfl m).symm)
  · have apart : i.index ≠ j.index := fun index => same (by cases i; cases j; exact congrArg _ index)
    exact congrArg ModuleTree.mk (List.modify_modify_ne _ _ _ apart)

theorem attachBody_eq (t : ModuleTree) (body : Node) (owner : BodyOwner) :
    AnalysisState.attachBody t body owner = t.modifyMembers owner.moduleId (Members.withBody body owner) := by
  unfold AnalysisState.attachBody
  split <;> rfl

theorem attachBody_comm (t : ModuleTree) (f g : Node) (apart : F ≠ G) :
    AnalysisState.attachBody (AnalysisState.attachBody t f F) g G =
      AnalysisState.attachBody (AnalysisState.attachBody t g G) f F := by
  simp only [attachBody_eq]
  exact t.modifyMembers_comm _ _ fun home m => Members.withBody_comm apart home f g m

-- A mark does not depend on the bodies that are stored.
theorem attachBody_modifyVariable (t : ModuleTree) (f : Node) (F : BodyOwner) (id : ModuleId)
    (name : String) (mark : Variable → Variable) :
    AnalysisState.attachBody (t.modifyVariable id name mark) f F =
      (AnalysisState.attachBody t f F).modifyVariable id name mark := by
  rw [attachBody_eq, attachBody_eq]
  refine t.modifyMembers_comm _ _ fun _ m => ?_
  unfold Members.withBody
  split <;> rfl

theorem withBody_modifyVariable (t : ModuleTree) (f : Node) (owner : Option BodyOwner) (id : ModuleId)
    (name : String) (mark : Variable → Variable) :
    (t.modifyVariable id name mark).withBody f owner =
      (t.withBody f owner).modifyVariable id name mark := by
  cases owner with
  | none => rfl
  | some F =>
      rw [withBody_some, withBody_some]
      exact attachBody_modifyVariable t f F id name mark

theorem Updated.of_withBody {f : Node} {owner : Option BodyOwner}
    (updated : (t.withBody f owner).Updated u) :
    ∃ marked, t.Updated marked ∧ u = marked.withBody f owner := by
  induction updated with
  | refl => exact ⟨t, .refl, rfl⟩
  | @marked id name new _ ih =>
      obtain ⟨marked, updated, rfl⟩ := ih
      exact ⟨_, .marked id name updated, (withBody_modifyVariable ..).symm⟩

theorem withBody_comm (t : ModuleTree) (f g : Node) {one two : Option BodyOwner}
    (apart : ∀ F G, one = some F → two = some G → F ≠ G) :
    (t.withBody f one).withBody g two = (t.withBody g two).withBody f one := by
  cases one with
  | none => rw [withBody_none, withBody_none]
  | some F =>
      cases two with
      | none => rw [withBody_none, withBody_none]
      | some G =>
          simp only [withBody_some]
          exact attachBody_comm t f g (apart F G rfl rfl)

theorem globals_withBody (t : ModuleTree) (f : Node) (owner : Option BodyOwner) (id : ModuleId) :
    ((t.withBody f owner).get id).members.globals = (t.get id).members.globals := by
  cases owner with
  | none => rfl
  | some F =>
      rw [withBody_some, attachBody_eq]
      refine globals_modifyMembers (fun m => ?_) _ _ _
      unfold Members.withBody
      split <;> rfl

end ModuleTree

section Tables

variable {α : Type} {R : String → α → α → Prop}

theorem SymbolTable.Like.modify_right {t u : SymbolTable α} (like : Like R t u) {name : String}
    {f : α → α} (keeps : ∀ a b, R name a b → R name a (f b)) : Like R t (u.modify name f) := by
  intro other
  rw [find?_modify]
  split
  next same =>
    subst same
    have related := like other
    generalize t.find? other = found, u.find? other = found' at related
    cases related with
    | none => exact .none
    | some related => exact .some (keeps _ _ related)
  next => exact like other

end Tables

namespace ModuleTree

variable {σ : Slack} {t u old a b : ModuleTree}

theorem modifyMembers_id (t : ModuleTree) (id : ModuleId) : t.modifyMembers id (fun m => m) = t :=
  congrArg ModuleTree.mk (List.modify_id _ _)

theorem Updated.like (first : old.Updated a) (second : old.Updated b) (reflexive : σ.Reflexive)
    (named : ∀ id name c, (old.get id).members.classes.find? name = some c → c.name = name)
    (globals : ∀ id, SymbolTable.Like (σ.vars (.module id)) (a.get id).members.globals
      (b.get id).members.globals) : a.Like σ b := by
  obtain ⟨size, same⟩ := first.get
  obtain ⟨size', same'⟩ := second.get
  refine ⟨size'.trans size.symm, fun id => ?_, fun id => ?_, fun id => ?_, fun id => ?_⟩
  all_goals
    have marked := globals id
    obtain ⟨globals, -, here⟩ := same id
    obtain ⟨globals', -, here'⟩ := same' id
    rw [here, here'] at marked ⊢
  exact ⟨fun _ => reflexive.overloads _ _ _, marked, SymbolTable.like_refl _ fun name c found =>
    ⟨named id name c found, ClassDeclaration.like_refl reflexive _ _⟩, rfl⟩

variable {home extra : Node} {set : Owner → String → Prop} {mine theirs : List Diagnostic}

theorem Like.withBody (like : t.Like (.beside home extra set mine theirs) u) (body : Node)
    (owner : Option BodyOwner) : t.Like (.beside home extra set mine theirs) (u.withBody body owner) := by
  have functions {o : Owner} {f g : FunctionTable} (like : f.Like (.beside home extra set mine theirs) o g)
      (name : String) (types : List Datatype) :
      f.Like (.beside home extra set mine theirs) o
        (g.modify name types ({ · with body := .tree body })) := by
    intro other
    rw [FunctionTable.overloads_modify]
    split
    next same =>
      subst same
      exact (FunctionTable.map_bare_modifyFirst _ _ _).trans (like other)
    next => exact like other
  cases owner with
  | none => exact like
  | some o =>
      rw [withBody_some, attachBody_eq, ← t.modifyMembers_id o.moduleId]
      refine like.modifyMembers fun m n members => ?_
      cases o with
      | function o name types =>
          cases o with
          | module id => exact ⟨functions members.functions name types, members.globals, members.classes, members.enums⟩
          | inClass id c =>
              refine ⟨members.functions, members.globals, ?_, members.enums⟩
              refine members.classes.modify_right fun d e related => ⟨related.1, ?_⟩
              exact ⟨related.2.name, related.2.modifiers, related.2.origin, related.2.fields,
                functions related.2.methods name types, related.2.constructor⟩
      | constructor id c =>
          refine ⟨members.functions, members.globals, ?_, members.enums⟩
          refine members.classes.modify_right fun d e related => ⟨related.1, ?_⟩
          refine ⟨related.2.name, related.2.modifiers, related.2.origin, related.2.fields,
            related.2.methods, ?_⟩
          have both := related.2.constructor
          generalize d.constructor = f, e.constructor = g at both ⊢
          cases both with
          | none => exact .none
          | some related => exact .some related

end ModuleTree

-- The variables that have values: the globals, and the fields of the class that is open.
def Environment.Holds (env : Environment) : Owner → String → Prop
  | .module id, name => (env.modules.get id).members.globals.Holds name
  | .inClass _ _, name => env.frame.fields.Holds name

theorem Environment.frame_of_all {env : Environment} {home : Scope} {outer : List Scope}
    (scopes : env.scopes.all = home :: outer) : env.frame = home.frame := by
  obtain ⟨below, all, -⟩ := env.scopes.all_eq_current
  rw [scopes, List.cons.injEq] at all
  rw [Environment.frame, all.1]

section Frames

variable {home extra : Node} {set : Owner → String → Prop} {mine theirs : List Diagnostic}

theorem Frame.fields_withFields_of_marked {f : Frame} {fields : SymbolTable Variable}
    (marked : f.fields.Marked fields) : (f.withFields fields).fields = fields := by
  have untouched (marked : SymbolTable.empty.Marked fields) : SymbolTable.empty = fields := by
    refine SymbolTable.ext_find? fun name => ?_
    rcases marked name with same | ⟨v, found, -⟩
    · exact same.symm
    · cases found
  cases f with
  | «class» => rfl
  | _ => exact untouched marked

theorem Frame.like_withFields {f : Frame} {fields : SymbolTable Variable}
    (more : ∀ id c, f = .class id c →
      SymbolTable.Like (fun name => Variable.MarkedMore (set (.inClass id c.name) name)) c.fields fields) :
    f.Like (.beside home extra set mine theirs) (f.withFields fields) := by
  have reflexive := @Slack.reflexive_beside home extra set mine theirs
  cases f with
  | «class» id c =>
      have same := ClassDeclaration.like_refl reflexive (.inClass id c.name) c
      exact .class ⟨rfl, rfl, rfl, more id c rfl, same.methods, same.constructor⟩
  | _ => exact Frame.like_refl reflexive _

end Frames

theorem ScopeStack.class?_of_all {s : ScopeStack} {home : Scope} {outer : List Scope} {id : ModuleId}
    {c : ClassDeclaration} (scopes : s.all = home :: outer) (frame : home.frame = .class id c) :
    s.class? = some (id, c) := by
  rw [ScopeStack.class?, scopes, List.findSome?_cons, frame]
  rfl

section Holds

variable {home extra : Node} {env one two : Environment} {mine theirs : List Diagnostic}

-- What has a value in both runs.
theorem Environment.Like.holds (like : one.Like (.beside home extra env.Holds mine theirs) two)
    (o : Owner) (name : String) :
    (one.Holds o name → two.Holds o name) ∧ (two.Holds o name → one.Holds o name ∨ env.Holds o name) := by
  cases o with
  | module id => exact ((like.modules.members id).globals.holds name)
  | inClass id d =>
      have frames := like.frame
      unfold Environment.Holds
      generalize one.frame = f, two.frame = g at frames
      cases frames with
      | «class» related => exact related.fields.holds name
      | _ => exact ⟨fun holds => holds, .inl⟩

end Holds

namespace AnalysisState

variable {u v : AnalysisState} {home : Scope} {outer : List Scope} {owner : Option BodyOwner}
  {node : Node}

namespace Adds

theorem frame (adds : Adds home outer owner node u v) :
    ∃ fields, home.frame.fields.Marked fields ∧ v.environment.frame = home.frame.withFields fields ∧
      v.environment.scopes.all =
        { home with frame := home.frame.withFields fields, node := home.node.push node } :: outer := by
  obtain ⟨fields, marked, scopes⟩ := adds.scopes
  exact ⟨fields, marked, Environment.frame_of_all scopes, scopes⟩

theorem titles (adds : Adds home outer owner node u v)
    (scopes : u.environment.scopes.all = home :: outer) :
    v.environment.titles = u.environment.titles := by
  obtain ⟨fields, -, scopes'⟩ := adds.scopes
  have title : (home.frame.withFields fields).title = home.frame.title := by
    cases home.frame <;> rfl
  simp only [Environment.titles, scopes, scopes', List.map_cons, Scope.title, title]

-- No variable loses its value.
theorem holds (adds : Adds home outer owner node u v)
    (scopes : u.environment.scopes.all = home :: outer) {o : Owner} {name : String}
    (holds : u.environment.Holds o name) : v.environment.Holds o name := by
  cases o with
  | module id =>
      obtain ⟨marked, updated, filled⟩ := adds.modules
      obtain ⟨globals, marks, here⟩ := updated.get.2 id
      show ((v.environment.modules.get id).members.globals).Holds name
      rw [filled, ModuleTree.globals_withBody, here]
      exact marks.keeps holds
  | inClass id c =>
      obtain ⟨fields, marks, frame, -⟩ := adds.frame
      have fields' : u.environment.frame.fields.Holds name := holds
      rw [Environment.frame_of_all scopes] at fields'
      show v.environment.frame.fields.Holds name
      rw [frame, Frame.fields_withFields_of_marked marks]
      exact marks.keeps fields'

theorem beside (adds : Adds home outer owner node u v)
    (scopes : u.environment.scopes.all = home :: outer)
    (outside : Title.Outside u.environment.titles) (idle : u.pendingDo = none)
    (pass : u.declaring = false)
    (named : ∀ id name c,
      (u.environment.modules.get id).members.classes.find? name = some c → c.name = name)
    (spares : u.environment.Spares v.environment) (clean : v.Clean) (text : List Token) :
    (u.facing text).Like
      (.beside home.node node v.environment.Holds u.log.entries v.log.entries) (v.facing text) := by
  have reflexive := @Slack.reflexive_beside home.node node v.environment.Holds u.log.entries v.log.entries
  obtain ⟨fields, marks, frame, scopes'⟩ := adds.frame
  obtain ⟨marked, updated, filled⟩ := adds.modules
  have globals (id : ModuleId) : (v.environment.modules.get id).members.globals =
      (marked.get id).members.globals := by rw [filled, ModuleTree.globals_withBody]
  refine AnalysisState.Idle.like ⟨fun declaring => ?_, adds.setting, rfl, ⟨?_, ⟨?_, ?_⟩, adds.inLibrary⟩, idle,
    adds.idle, (adds.log.beside clean).2⟩
  · cases pass.symm.trans declaring
  · show u.environment.modules.Like _ v.environment.modules
    rw [filled]
    refine ModuleTree.Like.withBody ?_ node owner
    refine ModuleTree.Updated.like .refl updated reflexive named fun id => ?_
    obtain ⟨globals', marks, here⟩ := updated.get.2 id
    have spared := spares.globals id
    show SymbolTable.Like (fun name => Variable.MarkedMore
      ((v.environment.modules.get id).members.globals.Holds name)) _ _
    rw [globals, here] at spared ⊢
    exact marks.more spared
  · show List.Forall₂ _ u.environment.scopes.all v.environment.scopes.all
    rw [scopes, scopes']
    refine .cons ⟨Frame.like_withFields fun id c inClass => ?_, rfl⟩
      (List.forall₂_same.mpr fun s _ => s.like_refl reflexive)
    rw [inClass] at marks
    obtain ⟨d, there, spared⟩ := spares.fields id c (ScopeStack.class?_of_all scopes inClass)
    have there' : v.environment.scopes.class? = some (id, { c with fields }) :=
      ScopeStack.class?_of_all scopes' (by
        dsimp only
        rw [inClass]
        rfl)
    rw [there] at there'
    cases there'
    have more : SymbolTable.Like (fun name => Variable.MarkedMore (fields.Holds name)) c.fields fields :=
      SymbolTable.Marked.more marks spared
    have holds (name : String) : v.environment.Holds (.inClass id c.name) name ↔ fields.Holds name := by
      unfold Environment.Holds
      rw [frame, inClass]
      rfl
    simpa only [holds] using more
  · show Apart _ u.environment.scopes.all v.environment.scopes.all
    rw [scopes, scopes']
    refine .here ?_ rfl fun s member b o frame => ?_
    · have here := @Node.Extended.here home.node node []
      rwa [Node.withChildren_nil, Node.withChildren_nil] at here
    · have bare := (Environment.home_of_outside outside scopes).1 s member
      rw [frame] at bare
      cases bare

end Adds

end AnalysisState

end MiLanguage
