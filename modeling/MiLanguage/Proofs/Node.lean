import MiLanguage.Node.Basic

set_option autoImplicit false

namespace MiLanguage

namespace Node

theorem mem_preorderAll {m : Node} {ns : List Node} :
    m ∈ preorderAll ns ↔ ∃ c ∈ ns, m ∈ c.preorder := by
  induction ns with
  | nil => simp
  | cons n ns ih => simp [ih]

theorem mem_preorder_iff {m n : Node} :
    m ∈ n.preorder ↔ m = n ∨ ∃ c ∈ n.children, m ∈ c.preorder := by
  rw [preorder_eq, List.mem_cons, mem_preorderAll]

mutual

theorem parent_of_mem {m : Node} :
    (n : Node) → m ∈ n.preorder → m = n ∨ ∃ p ∈ n.preorder, m ∈ p.children
  | ⟨kind, token, children, line, type⟩, member => by
      rw [preorder, List.mem_cons] at member
      rcases member with same | member
      · exact .inl same
      · right
        rcases parent_of_mem_all children member with child | ⟨p, below, child⟩
        · exact ⟨_, mem_preorder_self _, child⟩
        · exact ⟨p, by rw [preorder]; exact List.mem_cons_of_mem _ below, child⟩

theorem parent_of_mem_all {m : Node} :
    (ns : List Node) → m ∈ preorderAll ns → m ∈ ns ∨ ∃ p ∈ preorderAll ns, m ∈ p.children
  | [], member => by simp at member
  | n :: ns, member => by
      rw [preorderAll_cons, List.mem_append] at member
      rcases member with member | member
      · rcases parent_of_mem n member with rfl | ⟨p, below, child⟩
        · exact .inl List.mem_cons_self
        · exact .inr ⟨p, by simp [below], child⟩
      · rcases parent_of_mem_all ns member with member | ⟨p, below, child⟩
        · exact .inl (List.mem_cons_of_mem _ member)
        · exact .inr ⟨p, by simp [below], child⟩

end

mutual

theorem mem_preorder_trans {m k : Node} (inner : k ∈ m.preorder) :
    (n : Node) → m ∈ n.preorder → k ∈ n.preorder
  | ⟨kind, token, children, line, type⟩, member => by
      rw [preorder, List.mem_cons] at member
      rcases member with rfl | member
      · exact inner
      · rw [preorder]
        exact List.mem_cons_of_mem _ (mem_preorderAll_trans inner children member)

theorem mem_preorderAll_trans {m k : Node} (inner : k ∈ m.preorder) :
    (ns : List Node) → m ∈ preorderAll ns → k ∈ preorderAll ns
  | [], member => by simp at member
  | n :: ns, member => by
      rw [preorderAll_cons, List.mem_append] at member ⊢
      exact member.imp (mem_preorder_trans inner n) (mem_preorderAll_trans inner ns)

end

@[simp] theorem withChildren_nil (n : Node) : n.withChildren [] = n := by
  cases n
  simp [withChildren]

-- `P` holds of the node and of everything below it.
def Every (P : Node → Prop) (n : Node) : Prop := ∀ m ∈ n.preorder, P m

variable {P Q : Node → Prop} {n c : Node}

theorem every_iff : n.Every P ↔ P n ∧ ∀ c ∈ n.children, c.Every P := by
  constructor
  · intro every
    refine ⟨every n n.mem_preorder_self, ?_⟩
    intro c child m below
    exact every m (mem_preorder_iff.mpr (.inr ⟨c, child, below⟩))
  · rintro ⟨top, children⟩ m member
    rcases mem_preorder_iff.mp member with rfl | ⟨c, child, below⟩
    · exact top
    · exact children c child m below

theorem Every.mono (implies : ∀ m, P m → Q m) (every : n.Every P) : n.Every Q :=
  fun m member => implies m (every m member)

theorem Every.top (every : n.Every P) : P n := (every_iff.mp every).1

theorem Every.child (every : n.Every P) (member : c ∈ n.children) : c.Every P :=
  (every_iff.mp every).2 c member

theorem Every.below {m : Node} (every : n.Every P) (member : m ∈ n.preorder) : m.Every P :=
  fun k inner => every k (mem_preorder_trans inner n member)

theorem every_leaf {kind : NodeKind} {token : Token} :
    (leaf kind token).Every P ↔ P (leaf kind token) := by
  rw [every_iff]
  simp [leaf]

theorem every_new {kind : NodeKind} {line : Nat} {children : List Node} :
    (new kind line children).Every P ↔
      P (new kind line children) ∧ ∀ c ∈ children, c.Every P := by
  rw [every_iff]
  rfl

end Node

end MiLanguage
