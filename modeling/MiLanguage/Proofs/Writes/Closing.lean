import MiLanguage.Proofs.Passes.InStep
import MiLanguage.Proofs.Writes.Statement

set_option autoImplicit false

namespace MiLanguage

-- A class is open in modules only.
def Lone (sketches : List Sketch) : Prop :=
  sketches.Pairwise fun a b => ∀ id name, a.title = .class id name → b.title.isModule = true

theorem Inner.blocks {depth : Nat} {inner : List Sketch} (inside : Inner depth inner) :
    ∀ x ∈ inner, ∃ kind, x.title = .block kind := by
  induction inside with
  | body => simp
  | block _ _ _ ih => simpa using ih
  | loop _ ih => simpa using ih

section Lone

variable {sketches inner outer : List Sketch} {depth : Nat}

theorem Lone.of_outside (kept : ∀ x ∈ sketches, x.discard = false)
    (outside : Title.Outside (sketches.map Sketch.shown)) : Lone sketches := by
  obtain ⟨top, below, titles, _, modules, _⟩ := outside
  obtain ⟨x, rest, rfl, _, rfl⟩ := List.map_eq_cons_iff.mp titles
  have isModule : ∀ y ∈ rest, y.title.isModule = true := by
    intro y member
    have shown : y.shown = y.title := if_neg (by simp [kept y (by simp [member])])
    rw [← shown]
    exact modules _ (List.mem_map_of_mem member)
  exact List.pairwise_cons.mpr ⟨fun y member _ _ _ => isModule y member,
    List.pairwise_of_forall_mem_list fun _ _ y member _ _ _ => isModule y member⟩

theorem Lone.inside (inside : Inner depth inner) (lone : Lone outer) : Lone (inner ++ outer) := by
  have other : ∀ x ∈ inner, ∀ id name, x.title ≠ .class id name := by
    intro x member id name same
    obtain ⟨kind, block⟩ := inside.blocks x member
    rw [block] at same
    cases same
  refine List.pairwise_append.mpr ⟨List.pairwise_of_forall_mem_list ?_, lone, ?_⟩
  · exact fun x member _ _ id name same => absurd same (other x member id name)
  · exact fun x member _ _ id name same => absurd same (other x member id name)

end Lone

theorem AnalysisState.InStep.lone {first last s : AnalysisState} (inStep : InStep first last s)
    (kept : ∀ x ∈ s.environment.sketches, x.discard = false) : Lone s.environment.sketches := by
  obtain ⟨p, _, scouts, abreast⟩ := inStep.place
  have outside := scouts.outer.outside
  cases abreast with
  | outside _ _ titles =>
      rw [← titles, Environment.titles_eq_sketches] at outside
      exact .of_outside kept outside
  | inside sketches inner around =>
      rw [sketches] at kept ⊢
      rw [← around] at outside
      exact .inside inner (.of_outside (fun x member => kept x (List.mem_append_right _ member)) outside)

namespace Environment

variable {env after : Environment} {setting : Setting} {t : ModuleTree} {tokens : List Token}
  {writes : List Write} {scope : Scope} {scopes : ScopeStack} {waiting : Option Node}

theorem class?_of_lone (lone : Lone env.sketches) (popped : env.scopes.pop? = some (scope, scopes))
    (isClass : scope.frame.isClass = true) : scopes.class? = none := by
  rw [sketches_of_pop? popped] at lone
  refine List.findSome?_eq_none_iff.mpr fun outer member => ?_
  cases frame : scope.frame with
  | «class» id c =>
      have module := (List.pairwise_cons.mp lone).1 outer.sketch (List.mem_map_of_mem member) id c.name
        (by rw [Scope.sketch, frame]; rfl)
      cases around : outer.frame <;>
        first | rfl | (rw [Scope.sketch, around] at module; cases module)
  | _ => rw [frame] at isClass; cases isClass

-- The node of an idle `do` block is a part of the tree, which grows by its condition.
def flushed (env : Environment) (setting : Setting) (waiting : Option Node) : Environment :=
  match waiting with
  | some block => env.append setting block
  | none => env

-- Statements may go to each of the nodes that are open.
def Containers (env : Environment) : Prop := ∀ n ∈ env.nodes, n.Container

theorem Containers.append (opens : env.Containers) (pass : setting.declaring = false) (c : Node) :
    (env.append setting c).Containers := by
  obtain ⟨around, nodes, changed⟩ := nodes_append pass env c
  unfold Containers at opens ⊢
  rw [nodes, List.forall_mem_cons] at opens
  rw [changed, List.forall_mem_cons]
  exact ⟨opens.1.push c, opens.2⟩

theorem Containers.current (opens : env.Containers) : env.scopes.current.node.Container := by
  obtain ⟨around, nodes⟩ := env.nodes_eq_current
  exact opens _ (by simp [nodes])

namespace Ledger

theorem pop (ledger : env.Ledger t tokens writes) (pass : setting.declaring = false)
    (opens : env.Containers) (lone : Lone env.sketches) (popped : env.scopes.pop? = some (scope, scopes)) :
    (({ env with scopes } : Environment).append setting scope.node).Ledger t tokens writes ∧
      ({ env with scopes } : Environment).Containers := by
  have all := ScopeStack.all_of_pop? popped
  have nodes : env.nodes = scope.node :: ({ env with scopes } : Environment).nodes := by
    rw [Environment.nodes, all, List.map_cons]
    rfl
  have top : scope.node.Container := opens _ (by simp [nodes])
  have below : ({ env with scopes } : Environment).Containers :=
    fun n member => opens n (by simp [nodes, member])
  have inner := below.current
  obtain ⟨around, inside, changed⟩ := nodes_append pass { env with scopes } scope.node
  obtain ⟨stores, lawful, notes⟩ := ledger
  rw [nodes, inside] at stores notes
  have notes := notes.pop all inner top.definitions (class?_of_lone lone popped)
  refine ⟨⟨?_, lawful, ?_⟩, below⟩
  · rw [changed, travel_close inner top.definitions]
    exact stores
  · rw [changed]
    exact notes.idles (idles_append _ setting scope.node)

end Ledger

theorem idles_attached (env : Environment) (b : Block) (body : Node) :
    env.Idles { env with modules := b.attached body env.modules } := by
  unfold Block.attached
  split
  next owner _ => exact env.idles_attachBody body owner
  next => exact env.idles_refl

theorem Closes.ledger (closes : Closes setting { env with scopes } scope after waiting)
    (pass : setting.declaring = false) (ledger : env.Ledger t tokens writes) (opens : env.Containers)
    (lone : Lone env.sketches) (kept : scope.discard = false)
    (popped : env.scopes.pop? = some (scope, scopes)) :
    (after.flushed setting waiting).Ledger t tokens writes := by
  have declaring : ¬setting.declaring = true := by simp [pass]
  obtain ⟨closed, below⟩ := ledger.pop pass opens lone popped
  cases closes with
  | discarded discard => rw [kept] at discard; cases discard
  | «class» | enum =>
      rw [if_neg declaring]
      exact closed
  | module | bare | block | doLoop => exact closed
  | @function b =>
      have attached : ({ env with modules := b.attached scope.node env.modules } : Environment).Ledger
        t tokens writes := ledger.idles (env.idles_attached b scope.node) rfl
      exact (attached.pop pass opens lone popped).1
  | forLoop _ _ popped' =>
      refine (closed.pop pass (below.append pass _) ?_ popped').1
      rw [sketches_append]
      rw [sketches_of_pop? popped] at lone
      exact (List.pairwise_cons.mp lone).2

end Environment

namespace AnalysisState

variable {s : AnalysisState} {t : ModuleTree} {tokens : List Token} {writes : List Write}
  {block condition : Node}

theorem flushDo_environment (s : AnalysisState) :
    s.flushDo.environment = s.environment.flushed s.setting s.pendingDo := by
  unfold flushDo Environment.flushed
  cases s.pendingDo <;> rfl

end AnalysisState

namespace Environment

variable {env : Environment} {setting : Setting} {t : ModuleTree} {tokens : List Token}
  {writes : List Write} {block condition : Node}

theorem Ledger.completes (ledger : (env.append setting block).Ledger t tokens writes)
    (pass : setting.declaring = false) (opens : env.Containers) (inner : block.Container)
    (still : condition.Still) :
    (env.append setting (block.push condition)).Ledger t tokens writes := by
  obtain ⟨around, nodes, changed⟩ := nodes_append pass env block
  obtain ⟨_, nodes', changed'⟩ := nodes_append pass env (block.push condition)
  cases (List.cons.inj (nodes.symm.trans nodes')).2
  have same : travel (env.scopes.current.node.push (block.push condition) :: around) =
      travel (env.scopes.current.node.push block :: around) := by
    rw [travel_push opens.current, travel_push opens.current, Journey.through_push _ inner still]
  obtain ⟨stores, lawful, notes⟩ := ledger
  rw [changed] at stores notes
  refine ⟨?_, lawful, ?_⟩
  · rw [changed', same]
    exact stores
  · rw [changed']
    have idles := (env.idles_append setting block).symm.trans
      (env.idles_append setting (block.push condition))
    exact (notes.idles idles).grow rfl (by rw [same])

end Environment

end MiLanguage
