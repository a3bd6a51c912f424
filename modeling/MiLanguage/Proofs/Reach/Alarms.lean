import Mathlib.Data.List.TakeWhile
import MiLanguage.Proofs.Outline.Building
import MiLanguage.Proofs.Typing.WellTyped

set_option autoImplicit false

namespace MiLanguage

namespace NodeKind

-- What follows such a statement in its block is not reached.
def isExit : NodeKind → Bool
  | returnValue | breakStatement | continueStatement => true
  | _ => false

-- The blocks of statements. The head of a loop is none, the loop behind it is.
def isBody : NodeKind → Bool
  | functionDefinition | createConstructor | ifStatement | whileStatement | doStatement
  | forStatement => true
  | _ => false

theorem not_isExit_of_isHost {kind : NodeKind} (host : kind.isHost = true) :
    kind.isExit = false := by
  cases kind <;> first | rfl | cases host

theorem isHost_of_isBody {kind : NodeKind} (body : kind.isBody = true) : kind.isHost = true := by
  cases kind <;> first | rfl | cases body

end NodeKind

-- In the block, some statement follows one that ends it. The condition of a `do` block is no
-- statement.
def Node.hasDeadCode (n : Node) : Bool :=
  (n.children.dropWhile (!·.kind.isExit)).tail.any (·.kind ≠ .condition)

namespace Outline

def exits (tokens : List Token) : Bool := (nodeKind false tokens).any NodeKind.isExit

def opensBlock (header : List Token) : Bool := (nodeKind false header).any NodeKind.isBlock

def opensDo (header : List Token) : Bool := (nodeKind false header).any (· = .doStatement)

-- The first token of the statement behind the first one that ends the block. `terminated` tells
-- that one has ended it before, `waiting` that the condition of a `do` block comes first.
def dead? (waiting terminated : Bool) : Outline → Option Token
  | nil => none
  | statement tokens rest =>
      if waiting then rest.dead? false terminated
      else if terminated then tokens.head?
      else rest.dead? false (exits tokens)
  | block header _ _ rest =>
      if terminated then header.head? else rest.dead? (opensDo header) false

-- Where a pass warns on its way through a text: before a statement if the block has ended and no
-- warning of it has been given.
def alarms (waiting terminated warned : Bool) : Outline → List Token
  | nil => []
  | statement tokens rest =>
      if waiting then rest.alarms false terminated warned
      else (if terminated && !warned then tokens.head?.toList else []) ++
        rest.alarms false (terminated || exits tokens) (warned || terminated)
  | block header inner _ rest =>
      (if terminated && !warned then header.head?.toList else []) ++
        (inner.alarms false false false ++
          rest.alarms (opensDo header) terminated (warned || terminated))

-- The texts of the blocks of statements, in the order of their headers.
def bodies : Outline → List Outline
  | nil => []
  | statement _ rest => rest.bodies
  | block header inner _ rest =>
      (if opensBlock header then [inner] else []) ++ (inner.bodies ++ rest.bodies)

-- Headers open scopes and other statements do not, and only in a block does one end it.
def Whole (inBlock waiting : Bool) : Outline → Prop
  | nil => True
  | statement tokens rest =>
      (waiting = false → (nodeKind false tokens).any NodeKind.isHost = false ∧
        (exits tokens = true → inBlock = true)) ∧ rest.Whole inBlock false
  | block header inner _ rest =>
      (nodeKind false header).any NodeKind.isHost = true ∧
        inner.Whole (opensBlock header) false ∧ rest.Whole inBlock (opensDo header)

theorem Whole.dead?_eq_none {o : Outline} {waiting : Bool} (whole : o.Whole false waiting) :
    o.dead? waiting false = none := by
  induction o generalizing waiting with
  | nil => rfl
  | statement tokens rest ih =>
      obtain ⟨here, behind⟩ := whole
      cases waiting with
      | true => exact ih behind
      | false =>
          have goesOn : exits tokens = false := by simpa using (here rfl).2
          simp only [dead?, goesOn, Bool.false_eq_true, if_false]
          exact ih behind
  | block header inner brace rest _ ih =>
      simp only [dead?, Bool.false_eq_true, if_false]
      exact ih whole.2.2

theorem Whole.alarms_perm {o : Outline} {inBlock waiting terminated warned : Bool}
    (whole : o.Whole inBlock waiting) (within : terminated = true → inBlock = true)
    (once : warned = true → terminated = true) :
    (o.alarms waiting terminated warned).Perm
      ((if warned then [] else (o.dead? waiting terminated).toList) ++
        o.bodies.filterMap (dead? false false)) := by
  induction o generalizing inBlock waiting terminated warned with
  | nil => cases warned <;> exact .nil
  | statement tokens rest ih =>
      obtain ⟨here, behind⟩ := whole
      cases waiting with
      | true => exact ih behind within once
      | false =>
          cases terminated with
          | false =>
              obtain rfl : warned = false := by simpa using once
              exact ih behind (here rfl).2 nofun
          | true =>
              have silent : (rest.alarms false true true).Perm
                  (rest.bodies.filterMap (dead? false false)) := ih behind within fun _ => rfl
              cases warned with
              | true => exact silent
              | false => exact silent.append_left tokens.head?.toList
  | block header inner brace rest ihInner ih =>
      obtain ⟨_, inside, behind⟩ := whole
      have body : (inner.alarms false false false).Perm
          ((if opensBlock header then [inner] else []).filterMap (dead? false false) ++
            inner.bodies.filterMap (dead? false false)) := by
        have own : (inner.alarms false false false).Perm ((inner.dead? false false).toList ++
            inner.bodies.filterMap (dead? false false)) := ihInner inside nofun nofun
        refine own.trans (.append_right _ ?_)
        cases opens : opensBlock header with
        | false =>
            rw [opens] at inside
            rw [inside.dead?_eq_none]
            exact .nil
        | true => cases dead : inner.dead? false false <;> simp [dead]
      cases terminated with
      | false =>
          obtain rfl : warned = false := by simpa using once
          have later : (rest.alarms (opensDo header) false false).Perm
              ((rest.dead? (opensDo header) false).toList ++
                rest.bodies.filterMap (dead? false false)) := ih behind nofun nofun
          simp only [alarms, dead?, bodies, Bool.false_and, Bool.or_self, Bool.false_eq_true,
            if_false, List.nil_append, List.filterMap_append] at later ⊢
          refine (body.append later).trans ?_
          simp only [← List.append_assoc]
          refine .append_right _ ?_
          exact List.perm_append_comm.trans (by simp [List.append_assoc])
      | true =>
          have silent : (rest.alarms (opensDo header) true true).Perm
              (rest.bodies.filterMap (dead? false false)) := ih behind within fun _ => rfl
          have both := body.append silent
          cases warned with
          | true => simpa [alarms, bodies] using both
          | false => simpa [alarms, dead?, bodies] using both.append_left header.head?.toList

section Shown

variable {inEnum : Bool} {tokens : List Token} {kind : NodeKind} {o inner : Outline} {n : Node}
  {ns back : List Node}

theorem leadKind_inEnum (head : Token) (tail : List Token) :
    leadKind true head tail = leadKind false head tail ∨
      leadKind true head tail = .enumValues ∧ leadKind false head tail ∈
        [.varDefinition, .varDefAndSetValue, .functionCall, .varSetValue] := by
  unfold leadKind
  split
  case h_15 =>
    right
    refine ⟨rfl, ?_⟩
    simp only [Bool.false_eq_true, if_false, variableKind]
    split <;> (try split) <;> simp
  all_goals exact .inl rfl

theorem any_nodeKind {p : NodeKind → Bool}
    (plain : ∀ kind ∈ [NodeKind.enumValues, .varDefinition, .varDefAndSetValue, .functionCall,
      .varSetValue], p kind = false)
    (shown : nodeKind inEnum tokens = some kind) : (nodeKind false tokens).any p = p kind := by
  cases inEnum with
  | false => simp [shown]
  | true =>
      unfold nodeKind at shown ⊢
      split at shown
      next => cases shown
      next head tail _ =>
        cases shown
        rcases leadKind_inEnum head tail with same | ⟨members, other⟩
        · simp [same]
        · rw [members, plain .enumValues (by simp)]
          exact plain _ (List.mem_cons_of_mem _ other)

theorem leadKind_statement (inEnum : Bool) (head : Token) (tail : List Token) :
    leadKind inEnum head tail ≠ .condition ∧ leadKind inEnum head tail ≠ .forStatement := by
  unfold leadKind variableKind
  split <;> (try split) <;> (try split) <;> (try split) <;> simp

theorem nodeKind_statement (shown : nodeKind inEnum tokens = some kind) :
    kind ≠ .condition ∧ kind ≠ .forStatement := by
  unfold nodeKind at shown
  split at shown
  next => cases shown
  next head tail _ =>
    cases shown
    exact leadKind_statement inEnum head tail

theorem exits_eq (shown : nodeKind inEnum tokens = some kind) : exits tokens = kind.isExit :=
  any_nodeKind (by decide) shown

theorem opensBlock_eq (shown : nodeKind inEnum tokens = some kind) :
    opensBlock tokens = kind.isBlock :=
  any_nodeKind (by decide) shown

theorem opensDo_eq (shown : nodeKind inEnum tokens = some kind) :
    opensDo tokens = decide (kind = .doStatement) :=
  any_nodeKind (by decide) shown

theorem any_isHost_eq (shown : nodeKind inEnum tokens = some kind) :
    (nodeKind false tokens).any NodeKind.isHost = kind.isHost :=
  any_nodeKind (by decide) shown

theorem head?_of_nodeKind (shown : nodeKind inEnum tokens = some kind) :
    tokens.head?.isSome = true := by
  cases tokens with
  | nil => cases shown
  | cons => rfl

theorem Shown.dead_behind (shown : Shown inEnum o ns) :
    ns.any (·.kind ≠ .condition) = (o.dead? false true).isSome := by
  cases shown with
  | nil => rfl
  | statement kind | block kind | forLoop kind | doLoop kind =>
      simp [dead?, (nodeKind_statement kind).1, head?_of_nodeKind kind]

theorem Shown.dead (shown : Shown inEnum o ns) {inBlock : Bool} (whole : o.Whole inBlock false)
    (trailer : ∀ c ∈ back, c.kind = .condition) :
    ((ns ++ back).dropWhile (!·.kind.isExit)).tail.any (·.kind ≠ .condition) =
      (o.dead? false false).isSome := by
  have conditions : back.any (·.kind ≠ .condition) = false := by simpa using trailer
  have passed : ∀ {n : Node} {ns : List Node}, n.kind.isExit = false →
      (n :: ns ++ back).dropWhile (!·.kind.isExit) = (ns ++ back).dropWhile (!·.kind.isExit) := by
    intro n ns goesOn
    simp [goesOn]
  induction shown with
  | nil =>
      have exitless : back.dropWhile (!·.kind.isExit) = [] := by
        rw [List.dropWhile_eq_nil_iff]
        intro c member
        rw [trailer c member]
        rfl
      simp [exitless, dead?]
  | @statement _ tokens n rest ns kind _ behind ih =>
      obtain ⟨_, whole⟩ := whole
      simp only [dead?, exits_eq kind, Bool.false_eq_true, if_false]
      cases ends : n.kind.isExit with
      | false => rw [passed ends, ih whole]
      | true =>
          have stops : (n :: ns ++ back).dropWhile (!·.kind.isExit) = n :: (ns ++ back) := by
            simp [ends]
          rw [stops, List.tail_cons, List.any_append, conditions, Bool.or_false]
          exact behind.dead_behind
  | @block _ header inner brace n _ _ rest ns kind notFor notDo _ _ _ _ _ _ ih =>
      obtain ⟨host, _, behind⟩ := whole
      rw [any_isHost_eq kind] at host
      have goesOn := NodeKind.not_isExit_of_isHost host
      simp only [opensDo_eq kind, notDo, decide_false] at behind
      simp only [dead?, opensDo_eq kind, notDo, decide_false, Bool.false_eq_true, if_false]
      rw [passed goesOn, ih behind]
  | forLoop kind isFor _ _ _ _ _ _ _ _ ih =>
      obtain ⟨_, _, behind⟩ := whole
      simp only [opensDo_eq kind, isFor, reduceCtorEq, decide_false] at behind
      simp only [dead?, opensDo_eq kind, isFor, reduceCtorEq, decide_false, Bool.false_eq_true,
        if_false]
      rw [passed (by rw [isFor]; rfl), ih behind]
  | doLoop kind isDo _ _ _ _ _ _ _ ih =>
      obtain ⟨_, _, _, behind⟩ := whole
      simp only [dead?, opensDo_eq kind, isDo, decide_true, if_true, Bool.false_eq_true, if_false]
      rw [passed (by rw [isDo]; rfl), ih behind]

theorem headerKinds_plain (kind : NodeKind) :
    ∀ part ∈ headerKinds kind, part.isHost = false ∧ part.isExit = false := by
  unfold headerKinds
  split <;> decide

end Shown

end Outline

/-- The block that `n` stands for has that text: behind what the header shows come the nodes of its
statements, and last in a `do` block the condition. There is dead code in the one as in the other. -/
structure Node.HasText (n : Node) (text : Outline) : Prop where
  shown : ∃ front body back, n.children = front ++ (body ++ back) ∧
    front.map Node.kind = Outline.headerKinds n.kind ∧
    back.map Node.kind = (if n.kind = .doStatement then [.condition] else []) ∧
    Outline.Shown false text body
  dead : n.hasDeadCode = (text.dead? false false).isSome

theorem Node.hasText_of_shown {n : Node} {text : Outline} {body : List Node} {inBlock : Bool}
    (front back : List Node) (children : n.children = front ++ (body ++ back))
    (header : front.map Node.kind = Outline.headerKinds n.kind)
    (trailer : back.map Node.kind = if n.kind = .doStatement then [.condition] else [])
    (shown : Outline.Shown false text body) (whole : text.Whole inBlock false) :
    n.HasText text := by
  refine ⟨⟨front, body, back, children, header, trailer, shown⟩, ?_⟩
  have plain : ∀ c ∈ front, (!c.kind.isExit) = true := by
    intro c member
    have listed : c.kind ∈ Outline.headerKinds n.kind := by
      rw [← header]
      exact List.mem_map_of_mem member
    simp [(Outline.headerKinds_plain n.kind _ listed).2]
  have conditions : ∀ c ∈ back, c.kind = .condition := by
    intro c member
    have listed : c.kind ∈ back.map Node.kind := List.mem_map_of_mem member
    rw [trailer] at listed
    split at listed
    · exact List.mem_singleton.mp listed
    · cases listed
  unfold hasDeadCode
  rw [children, List.dropWhile_append_of_pos plain, shown.dead whole conditions]

end MiLanguage
