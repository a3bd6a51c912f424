import MiLanguage.Proofs.Isolation.Programs
import MiLanguage.Proofs.Ordering.Alongside
import MiLanguage.Proofs.Ordering.Declarations

set_option autoImplicit false

namespace MiLanguage

theorem SymbolTable.eq_of_like {t u : SymbolTable Variable} (like : Like (fun _ v w => w = v) t u) :
    t = u := by
  refine ext_find? fun name => ?_
  have same := like name
  generalize t.find? name = v, u.find? name = w at same
  cases same with
  | none => rfl
  | some same => rw [same]

theorem Frame.withFields_withFields (f : Frame) (one two : SymbolTable Variable) :
    (f.withFields one).withFields two = f.withFields two := by
  cases f <;> rfl

theorem ModuleTree.Like.store {σ : Slack} {t u : ModuleTree} (like : t.Like σ u) (body : Node)
    (owner : Option BodyOwner) : (t.withBody body owner).Like σ (u.withBody body owner) := by
  cases owner with
  | none => exact like
  | some o => exact like.attachBody (.inl rfl)

namespace AnalysisState

variable {home home₁ home₂ : Scope} {outer : List Scope} {F G : Option BodyOwner} {f g f' g' : Node}
  {u a₁ a₂ b₁ b₂ : AnalysisState} {text : List Token}

/-- One pass has read two definitions in turn, another one the same in the other order. Each of them
reads the one definition as it would without the other. -/
structure Square (home : Scope) (outer : List Scope) (F G : Option BodyOwner) (f g f' g' : Node)
    (u a₁ a₂ b₁ b₂ : AnalysisState) : Prop where
  scopes : u.environment.scopes.all = home :: outer
  first : Adds home outer F f u a₁
  second : Adds a₁.environment.scopes.current outer G g' a₁ a₂
  second' : Adds home outer G g u b₁
  first' : Adds b₁.environment.scopes.current outer F f' b₁ b₂
  clean : a₂.Clean
  clean' : b₂.Clean
  across : (a₁.facing b₂.remaining).Like
    (.beside home.node g b₁.environment.Holds u.log.entries b₁.log.entries) b₂
  across' : (b₁.facing a₂.remaining).Like
    (.beside home.node f a₁.environment.Holds u.log.entries a₁.log.entries) a₂
  remaining : b₂.remaining = a₂.remaining

theorem current_of_all {s : ScopeStack} (scopes : s.all = home :: outer) : s.current = home := by
  obtain ⟨below, all, -⟩ := s.all_eq_current
  rw [scopes, List.cons.injEq] at all
  exact all.1.symm

namespace Adds

variable {v : AnalysisState} {owner : Option BodyOwner} {node : Node}

theorem current (adds : Adds home outer owner node u v) :
    v.environment.scopes.all = v.environment.scopes.current :: outer ∧
      v.environment.scopes.current.node = home.node.push node ∧
      ∃ fields, home.frame.fields.Marked fields ∧
        v.environment.scopes.current.frame = home.frame.withFields fields ∧
        v.environment.scopes.current.discard = home.discard := by
  obtain ⟨fields, marked, scopes⟩ := adds.scopes
  rw [current_of_all scopes]
  exact ⟨scopes, rfl, fields, marked, rfl, rfl⟩

end Adds

namespace Square

variable (square : Square home outer F G f g f' g' u a₁ a₂ b₁ b₂)

include square

-- Both runs give values to the same variables.
theorem holds (o : Owner) (name : String) :
    a₂.environment.Holds o name ↔ b₂.environment.Holds o name := by
  obtain ⟨forth, back⟩ := square.across.environment.holds o name
  obtain ⟨forth', back'⟩ := square.across'.environment.holds o name
  have mine : a₁.environment.Holds o name → a₂.environment.Holds o name :=
    square.second.holds square.first.current.1
  have theirs : b₁.environment.Holds o name → b₂.environment.Holds o name :=
    square.first'.holds square.second'.current.1
  constructor
  · intro holds
    rcases back' holds with there | here
    · exact theirs there
    · exact forth here
  · intro holds
    rcases back holds with here | there
    · exact mine here
    · exact forth' there

theorem nodes : f' = f ∧ g' = g := by
  have same {home extra mine theirs : Node} {as bs : List Scope} {a b : Scope}
      {set : Owner → String → Prop} {l k : List Diagnostic}
      (apart : Apart (.beside home extra set l k) (a :: as) (b :: bs)) (left : a.node = home.push mine)
      (right : b.node = (home.push extra).push theirs) : theirs = mine := by
    rcases apart.head with equal | ⟨extended, -⟩
    · have longer := congrArg (·.children.length) (right.symm.trans (equal.trans left))
      simp [Node.push] at longer
    · rw [left, right] at extended
      exact extended.of_push
  have across := square.across.environment.scopes.nodes
  have across' := square.across'.environment.scopes.nodes
  obtain ⟨all₁, node₁, -⟩ := square.first.current
  obtain ⟨all₂, node₂, -⟩ := square.second.current
  obtain ⟨all₃, node₃, -⟩ := square.second'.current
  obtain ⟨all₄, node₄, -⟩ := square.first'.current
  rw [show (a₁.facing b₂.remaining).environment.scopes.all = _ from all₁, all₄] at across
  rw [show (b₁.facing a₂.remaining).environment.scopes.all = _ from all₃, all₂] at across'
  exact ⟨same across node₁ (node₄.trans (by rw [node₃])), same across' node₃ (node₂.trans (by rw [node₁]))⟩

-- The modules are the same but for marks, which are the same in the end.
theorem modules
    (named : ∀ id name c,
      (u.environment.modules.get id).members.classes.find? name = some c → c.name = name)
    (apart : ∀ o p, F = some o → G = some p → o ≠ p) {run others : List Node}
    {mine theirs : List Diagnostic} :
    a₂.environment.modules.Like (.reordered run others mine theirs) b₂.environment.modules := by
  obtain ⟨rfl, rfl⟩ := square.nodes
  obtain ⟨_, updated, stored⟩ := square.first.modules
  obtain ⟨_, updated₁, stored₁⟩ := square.second.modules
  obtain ⟨_, updated', stored'⟩ := square.second'.modules
  obtain ⟨_, updated₂, stored₂⟩ := square.first'.modules
  rw [stored] at updated₁
  rw [stored'] at updated₂
  obtain ⟨A, marked, rfl⟩ := updated₁.of_withBody
  obtain ⟨B, marked', rfl⟩ := updated₂.of_withBody
  have left := updated.trans marked
  have right := updated'.trans marked'
  have globals (id : ModuleId) : SymbolTable.Like (fun _ v w => w = v) (A.get id).members.globals
      (B.get id).members.globals := by
    obtain ⟨as, marksA, hereA⟩ := left.get.2 id
    obtain ⟨bs, marksB, hereB⟩ := right.get.2 id
    have same := square.holds (.module id)
    unfold Environment.Holds at same
    rw [stored₁, stored₂] at same
    simp only [ModuleTree.globals_withBody] at same
    rw [hereA, hereB] at same ⊢
    exact SymbolTable.eq_of_holds marksA marksB same
  have like : A.Like (.reordered run others mine theirs) B :=
    left.like right Slack.reflexive_reordered named globals
  rw [stored₁, stored₂, ModuleTree.withBody_comm B _ _ fun o p one two same =>
    apart p o two one same.symm]
  exact (like.store _ F).store _ G

theorem frames : b₂.environment.scopes.current.frame = a₂.environment.scopes.current.frame := by
  have marks {a b : AnalysisState} {X Y : Option BodyOwner} {x y : Node}
      (one : Adds home outer X x u a) (two : Adds a.environment.scopes.current outer Y y a b) :
      ∃ fields, home.frame.fields.Marked fields ∧
        b.environment.scopes.current.frame = home.frame.withFields fields := by
    obtain ⟨-, -, fields, marked, frame, -⟩ := one.current
    obtain ⟨-, -, fields', marked', frame', -⟩ := two.current
    rw [frame, Frame.fields_withFields_of_marked marked] at marked'
    exact ⟨fields', marked.trans marked', by rw [frame', frame, Frame.withFields_withFields]⟩
  obtain ⟨fields, marked, frame⟩ := marks square.first square.second
  obtain ⟨fields', marked', frame'⟩ := marks square.second' square.first'
  have same (name : String) : fields.Holds name ↔ fields'.Holds name := by
    have holds := square.holds (.inClass ModuleTree.root "") name
    unfold Environment.Holds Environment.frame at holds
    rwa [frame, frame', Frame.fields_withFields_of_marked marked,
      Frame.fields_withFields_of_marked marked'] at holds
  rw [frame, frame', SymbolTable.eq_of_like (SymbolTable.eq_of_holds marked marked' same)]

theorem logs : DiagnosticLog.Beside a₂.log.entries b₂.log.entries a₂.log b₂.log ∧
    b₂.log.entries.Perm a₂.log.entries := by
  obtain ⟨-, maxErrors, failed, suppressed, errorCount, -⟩ :=
    (square.first.log.trans square.second.log).beside square.clean
  obtain ⟨-, maxErrors', failed', suppressed', errorCount', -⟩ :=
    (square.second'.log.trans square.first'.log).beside square.clean'
  obtain ⟨later, mine, theirs⟩ := square.across.log.entries
  obtain ⟨later', theirs', mine'⟩ := square.across'.log.entries
  refine ⟨⟨maxErrors'.trans maxErrors.symm, failed'.trans failed.symm, suppressed'.trans suppressed.symm,
    errorCount'.trans errorCount.symm, [], (List.append_nil _).symm, (List.append_nil _).symm⟩, ?_⟩
  change a₁.log.entries = _ at mine
  change b₁.log.entries = _ at theirs'
  rw [theirs, theirs', mine', mine, List.append_assoc, List.append_assoc]
  exact List.perm_append_comm.append_left _

theorem reordered (outside : Title.Outside u.environment.titles) (pass : u.declaring = false)
    (named : ∀ id name c,
      (u.environment.modules.get id).members.classes.find? name = some c → c.name = name)
    (apart : ∀ o p, F = some o → G = some p → o ≠ p) :
    a₂.Like (.reordered [f, g] [g, f] a₂.log.entries b₂.log.entries) b₂ := by
  obtain ⟨all, node, fields, -, frame, discard⟩ := square.second.current
  obtain ⟨all', node', fields', -, frame', discard'⟩ := square.first'.current
  obtain ⟨-, node₁, fields₁, -, frame₁, discard₁⟩ := square.first.current
  obtain ⟨-, node₁', -, -, -, discard₁'⟩ := square.second'.current
  obtain ⟨same, same'⟩ := square.nodes
  have setting : a₂.setting = u.setting := square.second.setting.trans square.first.setting
  have setting' : b₂.setting = u.setting := square.first'.setting.trans square.second'.setting
  refine AnalysisState.Idle.like ⟨fun declaring => ?_, setting'.trans setting.symm, square.remaining,
    ⟨square.modules named apart, ⟨?_, ?_⟩, ?_⟩, square.second.idle, square.first'.idle, square.logs.1⟩
  · rw [setting] at declaring
    cases declaring.symm.trans pass
  · rw [all, all']
    refine .cons ⟨?_, ?_⟩ (List.forall₂_same.mpr fun s _ => s.like_refl Slack.reflexive_reordered)
    · rw [square.frames]
      exact Frame.like_refl Slack.reflexive_reordered _
    · rw [discard, discard', discard₁, discard₁']
  · rw [all, all']
    refine .here ?_ rfl fun s member b o block => ?_
    · have exchanged := @Node.Exchanged.here [f, g] [g, f] home.node home.node.children []
      rw [node, node', node₁, node₁', same, same']
      simpa [Node.push, Slack.reordered] using exchanged
    · have bare : s.frame.isBlock = false := by
        rcases List.mem_cons.mp member with rfl | member
        · have shown := (Environment.home_of_outside outside square.scopes).1 home List.mem_cons_self
          rw [frame, frame₁]
          cases framed : home.frame with
          | block => rw [framed] at shown; cases shown
          | _ => rfl
        · exact (Environment.home_of_outside outside square.scopes).1 s (List.mem_cons_of_mem _ member)
      rw [block] at bare
      cases bare
  · rw [square.first'.inLibrary, square.second'.inLibrary, square.second.inLibrary,
      square.first.inLibrary]

end Square

theorem Adds.declaring {v : AnalysisState} {owner : Option BodyOwner} {node : Node}
    (adds : Adds home outer owner node u v) : v.declaring = u.declaring := by
  unfold AnalysisState.declaring
  rw [adds.setting]

theorem Adds.outside {v : AnalysisState} {owner : Option BodyOwner} {node : Node}
    (adds : Adds home outer owner node u v) (scopes : u.environment.scopes.all = home :: outer)
    (outside : Title.Outside u.environment.titles) : Title.Outside v.environment.titles := by
  rw [adds.titles scopes]
  exact outside

-- A definition is read without regard to whether another one follows.
theorem downTo_skipping {p : AnalysisState} {item other : FunctionItem} {after : List Token}
    (remaining : p.remaining = item.text ++ (other.text ++ after)) :
    ((p.downTo (other.text ++ after).length).remaining = other.text ++ after ∧
        (p.facing (item.text ++ after)).downTo after.length =
          (p.downTo (other.text ++ after).length).facing after) ∨
      ((p.facing (item.text ++ after)).downTo after.length = p.downTo (other.text ++ after).length ∧
        (p.downTo (other.text ++ after).length).remaining ≠ other.text ++ after) := by
  have ahead : Ahead (other.text ++ after) after p (p.facing (item.text ++ after)) :=
    ⟨item.text, item.whole, remaining, rfl⟩
  have short (depth : Nat) (rest : List Token)
      (skipped : Chunk.skipBlock depth (other.text ++ after) = some rest) : rest.length ≤ after.length := by
    rw [FunctionItem.skipBlock_text] at skipped
    exact Nat.le_of_lt (Chunk.length_skipBlock skipped)
  rcases downTo_ahead (fun depth => FunctionItem.skipBlock_text other depth after) short ahead with
    arrives | ⟨same, few⟩
  · exact .inl arrives
  · refine .inr ⟨same, fun here => ?_⟩
    have positive := List.length_pos_iff.mpr other.ne_nil
    rw [here, List.length_append] at few
    omega

theorem downTo_facing_of_arrives {p q : AnalysisState} {item other : FunctionItem} {after : List Token}
    (remaining : p.remaining = item.text ++ (other.text ++ after))
    (reached : p.downTo (other.text ++ after).length = q) (arrives : q.remaining = other.text ++ after) :
    (p.facing (item.text ++ after)).downTo after.length = q.facing after := by
  subst reached
  rcases downTo_skipping remaining with ⟨-, same⟩ | ⟨-, elsewhere⟩
  · exact same
  · exact absurd arrives elsewhere

end AnalysisState

namespace FunctionPair

open AnalysisState

variable {t : FunctionPair} {u : AnalysisState}

-- Neither of two definitions stores to a global or a field, unless it is `mut`, where the pass
-- comes to them.
def StoresFrom (t : FunctionPair) (u : AnalysisState) : Prop :=
  (u.facing (t.first.text ++ t.after)).StoresToMutable t.after.length ∧
    (u.facing (t.second.text ++ t.after)).StoresToMutable t.after.length

/-- The second pass where it comes to the two. -/
structure Comes (t : FunctionPair) (u : AnalysisState) : Prop where
  remaining : u.remaining = t.text
  pass : u.declaring = false
  placed : u.environment.frame.isBlock = false →
    Title.Outside u.environment.titles ∧ t.first.Apart t.second
  named : ∀ id name c,
    (u.environment.modules.get id).members.classes.find? name = some c → c.name = name
  clean : (u.downTo t.after.length).Clean
  stores : t.StoresFrom u

-- Each of them stores to the same with the other one behind it.
theorem storesToMutable_of_alone {p : AnalysisState} {item other : FunctionItem} {after : List Token}
    (remaining : p.remaining = item.text ++ (other.text ++ after))
    (stores : (p.facing (item.text ++ after)).StoresToMutable after.length) :
    p.StoresToMutable (other.text ++ after).length := by
  have ahead : Ahead (other.text ++ after) after p (p.facing (item.text ++ after)) :=
    ⟨item.text, item.whole, remaining, rfl⟩
  exact ahead.storesToMutable (fun depth => FunctionItem.skipBlock_text other depth after) stores

theorem square (comes : t.Comes u) : Title.Outside u.environment.titles ∧
    ∃ home outer F G f g f' g', Square home outer F G f g f' g' u
      (u.downTo (t.second.text ++ t.after).length) (u.downTo t.after.length)
      ((u.facing t.swap.text).downTo (t.first.text ++ t.after).length)
      ((u.facing t.swap.text).downTo t.after.length) ∧
      ∀ o p, F = some o → G = some p → o ≠ p := by
  obtain ⟨remaining, pass, placed, named, clean, stores, stores'⟩ := comes
  have short : t.after.length ≤ (t.second.text ++ t.after).length := by simp
  have short' : t.after.length ≤ (t.first.text ++ t.after).length := by simp
  rw [← downTo_downTo short] at clean ⊢
  rw [← downTo_downTo (s := u.facing t.swap.text) short']
  generalize at₁ : u.downTo (t.second.text ++ t.after).length = a₁ at clean ⊢
  obtain ⟨home, outer, scopes⟩ := List.exists_cons_of_ne_nil u.environment.scopes.all_ne_nil
  -- The definitions in their order.
  have clean₁ := clean_of_downTo clean
  obtain ⟨outside, idle, arrives, spares, F, f, first, mods, head, tail, h, reads, owner⟩ :=
    t.first.adds remaining pass (fun bare => (placed bare).1) scopes (at₁ ▸ clean₁)
  have spares := spares (storesToMutable_of_alone remaining stores)
  rw [at₁] at arrives first spares
  have outside₁ := first.outside scopes outside
  have pass₁ := first.declaring.trans pass
  obtain ⟨-, -, arrives₂, -, G, g', second, mods', head', tail', h', reads', owner'⟩ :=
    t.second.adds arrives pass₁ (fun _ => outside₁) first.current.1 clean
  -- The second one as the first of the two.
  have across' := (first.beside scopes outside idle pass named spares clean₁
    (t.second.text ++ t.after)).downTo t.after.length
  rw [facing_of_remaining arrives] at across'
  generalize at₂ : a₁.downTo t.after.length = a₂ at clean second arrives₂ across' ⊢
  generalize faced : u.facing t.swap.text = y
  have swapped : y.remaining = t.second.text ++ (t.first.text ++ t.after) := by rw [← faced]; rfl
  have alone : y.facing (t.second.text ++ t.after) = u.facing (t.second.text ++ t.after) := by
    rw [← faced]
    rfl
  have skipping := downTo_skipping swapped
  rw [alone] at skipping
  generalize at₃ : y.downTo (t.first.text ++ t.after).length = b₁ at skipping ⊢
  have clean' : ((u.facing (t.second.text ++ t.after)).downTo t.after.length).Clean :=
    across'.log.failed.symm.trans clean
  have clean₃ : b₁.Clean := by
    rcases skipping with ⟨-, same⟩ | ⟨same, -⟩
    · rw [same] at clean'
      exact clean'
    · rw [same] at clean'
      exact clean'
  obtain ⟨-, -, arrives₃, spares₃, G', g, second', mods₃, head₃, tail₃, h₃, reads₃, owner₃⟩ :=
    t.second.adds swapped (by rw [← faced]; exact pass) (fun _ => by rw [← faced]; exact outside)
      (by rw [← faced]; exact scopes) (at₃ ▸ clean₃)
  have spares₃ := spares₃ (storesToMutable_of_alone swapped (by rw [← faced]; exact stores'))
  rw [at₃] at arrives₃ second' spares₃
  have second' : Adds home outer G' g u b₁ := by
    rw [← faced] at second'
    exact ⟨second'.setting, second'.idle, second'.inLibrary, second'.modules, second'.scopes, second'.log⟩
  have same := downTo_facing_of_arrives swapped at₃ arrives₃
  rw [alone] at same
  rw [same] at across'
  -- The first one behind it.
  have spares₃ : u.environment.Spares b₁.environment := by
    rw [← faced] at spares₃
    exact spares₃
  have across := (second'.beside scopes outside idle pass named spares₃ clean₃
    (t.first.text ++ t.after)).downTo t.after.length
  rw [facing_of_remaining arrives₃] at across
  rw [downTo_facing_of_arrives remaining at₁ arrives] at across
  have outside₃ := second'.outside scopes outside
  have pass₃ := second'.declaring.trans pass
  have clean₄ : (b₁.downTo t.after.length).Clean := across.log.failed.trans clean₁
  obtain ⟨-, -, arrives₄, -, F', f', first', mods₄, head₄, tail₄, h₄, reads₄, owner₄⟩ :=
    t.first.adds arrives₃ pass₃ (fun _ => outside₃) second'.current.1 clean₄
  generalize at₄ : b₁.downTo t.after.length = b₂ at across clean₄ arrives₄ first' ⊢
  -- Each is stored where it is stored in the other run.
  obtain ⟨-, -, -, rfl⟩ := reads.unique reads₄
  obtain ⟨-, -, -, rfl⟩ := reads'.unique reads₃
  have owner_of {v : AnalysisState} (titles : v.environment.titles = u.environment.titles)
      (outside' : Title.Outside v.environment.titles) : v.environment.owner = u.environment.owner := by
    rw [Environment.owner_eq outside', Environment.owner_eq outside, titles]
  rw [owner_of (first.titles scopes) outside₁] at owner'
  rw [owner_of (second'.titles scopes) outside₃] at owner₄
  obtain rfl : F' = F := owner₄.trans owner.symm
  rw [← faced] at owner₃
  obtain rfl : G' = G := owner₃.trans owner'.symm
  refine ⟨outside, home, outer, F', G', f, g, f', g', ⟨scopes, first, second, second', first', clean, clean₄, ?_, ?_,
    ?_⟩, ?_⟩
  · rw [arrives₄]
    exact across
  · rw [arrives₂]
    exact across'
  · rw [arrives₄, arrives₂]
  · have bare := Environment.isBlock_of_outside outside
    rintro o p stored stored' rfl
    rw [owner] at stored
    rw [owner'] at stored'
    split at stored
    · cases stored
    · split at stored'
      · cases stored'
      · cases stored
        injection Option.some.inj stored' with _ names types
        exact (placed bare).2 reads reads' names.symm types.symm

end FunctionPair

end MiLanguage
