import Mathlib.Data.List.Infix
import MiLanguage.Proofs.Naming.Sight
import MiLanguage.Proofs.Outline.Blocks
import MiLanguage.Proofs.Visibility.Expression

set_option autoImplicit false

namespace MiLanguage

-- What stands in front of the brace that closes a block, given the text after the one that opens it.
def Chunk.block (depth : Nat) : List Token → List Token
  | [] => []
  | t :: rest =>
      match t.kind, depth with
      | .leftBrace, depth => t :: Chunk.block (depth + 1) rest
      | .rightBrace, 0 => []
      | .rightBrace, depth + 1 => t :: Chunk.block depth rest
      | _, depth => t :: Chunk.block depth rest

-- The name of a class that a text starts with, and what is in its braces.
def Chunk.classBody? : List Token → Option (Token × List Token)
  | word :: name :: brace :: rest =>
      if word.kind = .keyword .«class» ∧ brace.kind = .leftBrace then
        some (name, Chunk.block 0 rest)
      else none
  | _ => none

-- All that is in the braces of a class is in the file that its name is in.
def ClassesInOneFile (tokens : List Token) : Prop :=
  ∀ text ∈ tokens.tails, ∀ found ∈ Chunk.classBody? text,
    ∀ t ∈ found.2, t.span.fileId = found.1.span.fileId

-- All that is in the braces of a class is in one file, perhaps not that of its name.
def ClassBodiesInOneFile (tokens : List Token) : Prop :=
  ∀ text ∈ tokens.tails, ∀ found ∈ Chunk.classBody? text,
    ∀ t ∈ found.2, ∀ u ∈ found.2, t.span.fileId = u.span.fileId

instance (tokens : List Token) : Decidable (ClassesInOneFile tokens) :=
  inferInstanceAs (Decidable (∀ text ∈ tokens.tails, ∀ found ∈ Chunk.classBody? text,
    ∀ t ∈ found.2, t.span.fileId = found.1.span.fileId))

instance (tokens : List Token) : Decidable (ClassBodiesInOneFile tokens) :=
  inferInstanceAs (Decidable (∀ text ∈ tokens.tails, ∀ found ∈ Chunk.classBody? text,
    ∀ t ∈ found.2, ∀ u ∈ found.2, t.span.fileId = u.span.fileId))

theorem ClassesInOneFile.body {tokens rest : List Token} {word name brace : Token}
    (classes : ClassesInOneFile tokens) (suffix : word :: name :: brace :: rest <:+ tokens)
    (kind : word.kind = .keyword .«class») (left : brace.kind = .leftBrace) :
    Tokens.In (· = name.span.fileId) (Chunk.block 0 rest) :=
  classes _ ((List.mem_tails _ _).mpr suffix) (name, Chunk.block 0 rest)
    (by simp [Chunk.classBody?, kind, left])

-- Whatever is in a class names types only in the file of the class's own name.
def Node.OneFile (n : Node) : Prop :=
  n.kind = .createClass → ∀ name, n.title? = some name →
    ∀ c ∈ n.children, c.Every (Node.NamedIn (· = name.span.fileId))

-- A part of the tree that is written in these files, and each class in it in one of them.
def Node.Placed (files : FileId → Prop) (n : Node) : Prop :=
  n.Every fun m => m.NamedIn files ∧ m.OneFile

variable {files : FileId → Prop} {n : Node} {depth : Nat} {t : Token} {tokens rest : List Token}
  {scope scope' : Scope} {outer scopes scopes' : List Scope} {nodes : List Node}

namespace Chunk

theorem block_leftBrace (kind : t.kind = .leftBrace) :
    block depth (t :: rest) = t :: block (depth + 1) rest := by
  simp [block, kind]

theorem block_rightBrace (kind : t.kind = .rightBrace) :
    block (depth + 1) (t :: rest) = t :: block depth rest := by
  simp [block, kind]

theorem block_plain (left : t.kind ≠ .leftBrace) (right : t.kind ≠ .rightBrace) :
    block depth (t :: rest) = t :: block depth rest := by
  rw [block.eq_def]
  split <;> simp_all

theorem block_append {front : List Token} (plain : Outline.Plain front) :
    block depth (front ++ rest) = front ++ block depth rest := by
  induction front with
  | nil => rfl
  | cons t front ih =>
      obtain ⟨left, right⟩ := not_terminator (plain t (by simp))
      rw [List.cons_append, block_plain left right, ih fun u member => plain u (by simp [member])]
      rfl

-- What follows an inner block is in the outer one, too.
theorem block_beyond {inner : Nat} {beyond : List Token}
    (skipped : skipBlock inner tokens = some beyond) :
    block depth beyond ⊆ block (depth + (inner + 1)) tokens := by
  induction tokens generalizing inner with
  | nil => cases skipped
  | cons t rest ih =>
      by_cases left : t.kind = .leftBrace
      · rw [skipBlock_leftBrace left] at skipped
        rw [block_leftBrace left]
        exact fun u member => List.mem_cons_of_mem t (ih skipped member)
      · by_cases right : t.kind = .rightBrace
        · rw [← Nat.add_assoc, block_rightBrace right]
          cases inner with
          | zero =>
              simp only [skipBlock, right, Option.some.injEq] at skipped
              rw [skipped]
              exact List.subset_cons_self _ _
          | succ inner =>
              rw [skipBlock_rightBrace right] at skipped
              exact fun u member => List.mem_cons_of_mem t (ih skipped member)
        · rw [skipBlock_plain left right] at skipped
          rw [block_plain left right]
          exact fun u member => List.mem_cons_of_mem t (ih skipped member)

end Chunk

section Statements

variable {s : AnalysisState} {first : Token} {later : List Token}

theorem AnalysisState.Takes.block (takes : s.Takes first rest later) (depth : Nat) :
    (Ends first rest .semicolon →
      Chunk.block depth s.remaining = first :: rest ++ Chunk.block depth later) ∧
    (Ends first rest .leftBrace →
      Chunk.block depth s.remaining = first :: rest ++ Chunk.block (depth + 1) later) := by
  obtain ⟨remaining, ⟨terminator, rfl⟩ | ⟨plain, front, final, rfl, kind, inner⟩⟩ := takes.split
  · rw [remaining, List.nil_append]
    refine ⟨fun semicolon => ?_, fun left => Chunk.block_leftBrace left⟩
    have kind : first.kind = .semicolon := semicolon
    exact Chunk.block_plain (by simp [kind]) (by simp [kind])
  · have plainFront : Outline.Plain (first :: front) := Outline.Plain.cons plain inner
    have whole : s.remaining = (first :: front) ++ final :: later := by simp [remaining]
    have last : ∀ {kind}, Ends first (front ++ [final]) kind → final.kind = kind := by
      intro kind ends
      simpa [Ends] using ends
    rw [whole, Chunk.block_append plainFront]
    refine ⟨fun semicolon => ?_, fun left => ?_⟩
    · have kind := last semicolon
      rw [Chunk.block_plain (by simp [kind]) (by simp [kind])]
      simp
    · rw [Chunk.block_leftBrace (last left)]
      simp

end Statements

-- The file that a class is in, given the scope of the class.
def Scope.file? (s : Scope) : Option FileId :=
  if s.node.kind = .createClass then s.node.title?.map fun name => name.span.fileId else none

-- The files that something may be in, given the scopes around it.
def filesOf (scopes : List Scope) (file : FileId) : Prop :=
  ∀ scope ∈ scopes, ∀ found, scope.file? = some found → file = found

/-- What a scope is to the tokens left, its own children aside. -/
structure Scope.Alike (old new : Scope) : Prop where
  kind : new.frame.blockKind? = old.frame.blockKind?
  discard : new.discard = old.discard
  file : new.file? = old.file?

theorem Scope.Kept.alike (kept : scope.Kept scope') : scope.Alike scope' where
  kind := kept.frame.blockKind?
  discard := kept.discard
  file := by rw [file?, file?, kept.node]

theorem filesOf_alike (alike : List.Forall₂ Scope.Alike scopes scopes') {file : FileId} :
    filesOf scopes' file ↔ filesOf scopes file := by
  induction alike with
  | nil => rfl
  | cons head _ ih =>
      simp only [filesOf, List.forall_mem_cons] at ih ⊢
      rw [head.file, ih]

theorem kept_of_alike (alike : List.Forall₂ Scope.Alike scopes scopes')
    (kept : ∀ scope ∈ scopes', scope.discard = false) : ∀ scope ∈ scopes, scope.discard = false := by
  induction alike with
  | nil => simp
  | cons head _ ih =>
      rw [List.forall_mem_cons] at kept ⊢
      exact ⟨head.discard.symm.trans kept.1, ih kept.2⟩

/-- The tokens left in each class that is open are in the file of the class. The innermost of these
scopes closes with the brace that closes `depth` blocks and the one around them. -/
inductive Fits (tokens : List Token) : Nat → List Scope → Prop
  | base {depth : Nat} {scope : Scope} :
      scope.frame.blockKind? = none → scope.file? = none → Fits tokens depth [scope]
  | scope {depth : Nat} {scope : Scope} {outer : List Scope} :
      scope.frame.blockKind? ≠ some .loopHead →
      (scope.frame.blockKind?, scope.discard) ≠ (some .forLoop, false) →
      (∀ found, scope.file? = some found → Tokens.In (· = found) (Chunk.block depth tokens)) →
      Fits tokens (depth + 1) outer → Fits tokens depth (scope :: outer)
  | loop {depth : Nat} {loop head : Scope} {outer : List Scope} :
      loop.frame.blockKind? = some .forLoop → loop.discard = false →
      head.frame.blockKind? = some .loopHead → head.discard = false →
      loop.file? = none → head.file? = none →
      Fits tokens (depth + 1) outer → Fits tokens depth (loop :: head :: outer)

namespace Fits

theorem alike (alike : List.Forall₂ Scope.Alike scopes scopes') (fits : Fits tokens depth scopes) :
    Fits tokens depth scopes' := by
  induction fits generalizing scopes' with
  | base kind file =>
      cases alike with
      | cons same none =>
          cases none
          exact .base (same.kind.trans kind) (same.file.trans file)
  | scope head loop inside _ ih =>
      cases alike with
      | cons same rest =>
          refine .scope ?_ ?_ ?_ (ih rest)
          · rw [same.kind]; exact head
          · rw [same.kind, same.discard]; exact loop
          · rw [same.file]; exact inside
  | loop loop kept head kept' none none' _ ih =>
      cases alike with
      | cons same rest =>
          cases rest with
          | cons same' rest =>
              exact .loop (same.kind.trans loop) (same.discard.trans kept) (same'.kind.trans head)
                (same'.discard.trans kept') (same.file.trans none) (same'.file.trans none') (ih rest)

theorem shift {tokens' : List Token} {deeper : Nat}
    (fewer : ∀ more, Chunk.block (deeper + more) tokens' ⊆ Chunk.block (depth + more) tokens)
    (fits : Fits tokens depth scopes) : Fits tokens' deeper scopes := by
  have next : ∀ more, Chunk.block (deeper + 1 + more) tokens' ⊆
      Chunk.block (depth + 1 + more) tokens := by
    intro more
    simpa only [Nat.add_assoc] using fewer (1 + more)
  induction fits generalizing deeper with
  | base kind file => exact .base kind file
  | scope head loop inside _ ih =>
      refine .scope head loop ?_ (ih next fun more => ?_)
      · intro found same t member
        exact inside found same t (fewer 0 member)
      · simpa only [Nat.add_assoc] using next (1 + more)
  | loop loop kept head kept' none none' _ ih =>
      refine .loop loop kept head kept' none none' (ih next fun more => ?_)
      simpa only [Nat.add_assoc] using next (1 + more)

theorem fewer (fewer : ∀ depth, Chunk.block depth rest ⊆ Chunk.block depth tokens)
    (fits : Fits tokens depth scopes) : Fits rest depth scopes :=
  fits.shift fun more => fewer (depth + more)

theorem within {front : List Token} (fits : Fits tokens depth scopes)
    (inside : ∀ more, front ⊆ Chunk.block (depth + more) tokens) :
    Tokens.In (filesOf scopes) front := by
  have next : ∀ more, front ⊆ Chunk.block (depth + 1 + more) tokens := by
    intro more
    simpa only [Nat.add_assoc] using inside (1 + more)
  have unfiled : ∀ {scope : Scope} {file : FileId}, scope.file? = .none →
      ∀ found, scope.file? = some found → file = found := by
    intro scope file unfiled found same
    rw [unfiled] at same
    cases same
  induction fits with
  | base _ file =>
      intro t _ scope member
      rw [List.mem_singleton.mp member]
      exact unfiled file
  | scope _ _ here _ ih =>
      have around := ih next fun more => by simpa only [Nat.add_assoc] using next (1 + more)
      exact fun t member => List.forall_mem_cons.mpr
        ⟨fun found same => here found same t (inside 0 member), around t member⟩
  | loop _ _ _ _ file file' _ ih =>
      have around := ih next fun more => by simpa only [Nat.add_assoc] using next (1 + more)
      exact fun t member => List.forall_mem_cons.mpr
        ⟨unfiled file, List.forall_mem_cons.mpr ⟨unfiled file', around t member⟩⟩

end Fits

theorem Fits.ne_nil (fits : Fits tokens depth scopes) : scopes ≠ [] := by
  cases fits <;> exact List.cons_ne_nil _ _

-- The lowest scope does not close.
theorem Fits.single {tokens' : List Token} {depth' : Nat} (fits : Fits tokens depth [scope]) :
    Fits tokens' depth' [scope] := by
  cases fits with
  | base kind file => exact .base kind file
  | scope _ _ _ around => exact absurd rfl around.ne_nil

theorem Fits.around (fits : Fits tokens depth (scope :: outer)) (deep : outer ≠ []) :
    ((scope.frame.blockKind?, scope.discard) ≠ (some .forLoop, false) ∧
      Fits tokens (depth + 1) outer) ∨
    (scope.frame.blockKind? = some .forLoop ∧ scope.discard = false ∧ ∃ head below,
      outer = head :: below ∧ head.discard = false ∧ Fits tokens (depth + 1) below) := by
  cases fits with
  | base => exact absurd rfl deep
  | scope _ loop _ around => exact .inl ⟨loop, around⟩
  | loop loop kept _ kept' _ _ around => exact .inr ⟨loop, kept, _, _, rfl, kept', around⟩

/-- The node of an open scope, as far as it is built. Nothing is asked of it if it is dropped in
the end. -/
structure Scope.Holds (outer : List Scope) (scope : Scope) : Prop where
  plain : scope.node.kind.namesType = false
  titled : scope.node.kind = .createClass → scope.node.title?.isSome = true
  placed : (∀ around ∈ scope :: outer, around.discard = false) →
    ∀ c ∈ scope.node.children, c.Placed (filesOf (scope :: outer))

section New

variable {kind : NodeKind} {line : Nat} (node : scope.node = .new kind line)
  (other : kind ≠ .createClass)

include node other

theorem Scope.holds_new (plain : kind.namesType = false) : scope.Holds outer := by
  refine ⟨?_, ?_, ?_⟩
  · rw [node]
    exact plain
  · intro isClass
    rw [node] at isClass
    exact absurd isClass other
  · simp [node, Node.new]

theorem Scope.file?_new : scope.file? = none := by
  rw [file?, node]
  exact if_neg other

end New

inductive Filed : List Scope → Prop
  | base {scope : Scope} : scope.discard = false → scope.Holds [] → Filed [scope]
  | inner {scope : Scope} {outer : List Scope} :
      Filed outer → scope.Holds outer → Filed (scope :: outer)

theorem Node.Within.placed (within : n.Within files) : n.Placed files :=
  within.mono fun _ both => ⟨both.2, fun same => absurd same both.1⟩

theorem Node.Placed.mono {weaker : FileId → Prop} (weakens : ∀ file, files file → weaker file)
    (placed : n.Placed files) : n.Placed weaker :=
  Node.Every.mono (fun _ both =>
    ⟨fun names place token => weakens _ (both.1 names place token), both.2⟩) placed

theorem Node.Placed.push {c : Node} (placed : n.Placed files) (plain : n.kind ≠ .createClass)
    (last : c.Placed files) : (n.push c).Placed files := by
  refine Node.every_iff.mpr ⟨⟨placed.top.1, fun kind => absurd kind plain⟩, ?_⟩
  intro child member
  rcases List.mem_append.mp member with member | member
  · exact placed.child member
  · rw [List.mem_singleton.mp member]
    exact last

namespace Scope

theorem file?_withChildren (titled : scope.node.kind = .createClass → scope.node.title?.isSome = true)
    (node : scope'.node = scope.node.withChildren nodes) : scope'.file? = scope.file? := by
  unfold file?
  rw [node]
  by_cases kind : scope.node.kind = .createClass
  · rw [Node.title_withChildren (titled kind)]
    rfl
  · rw [if_neg kind, if_neg (by exact kind)]

namespace Holds

theorem alike (holds : scope.Holds outer) (frame : scope.frame.Kept scope'.frame)
    (discard : scope'.discard = scope.discard)
    (node : scope'.node = scope.node.withChildren nodes) : scope.Alike scope' :=
  ⟨frame.blockKind?, discard, file?_withChildren holds.titled node⟩

theorem grow {outer' : List Scope} (holds : scope.Holds outer) (frame : scope.frame.Kept scope'.frame)
    (discard : scope'.discard = scope.discard)
    (around : List.Forall₂ Scope.Alike outer outer')
    (node : scope'.node = scope.node.withChildren nodes)
    (placed : (∀ around ∈ scope :: outer, around.discard = false) →
      ∀ c ∈ nodes, c.Placed (filesOf (scope :: outer))) : scope'.Holds outer' := by
  have alike := List.Forall₂.cons (holds.alike frame discard node) around
  have kind : scope'.node.kind = scope.node.kind := by rw [node]; rfl
  refine ⟨by rw [kind]; exact holds.plain, ?_, ?_⟩
  · intro same
    have titled := holds.titled (kind ▸ same)
    rw [node, Node.title_withChildren titled]
    exact titled
  · intro shown c member
    have shown := kept_of_alike alike shown
    have children : scope'.node.children = scope.node.children ++ nodes := by rw [node]; rfl
    rw [children, List.mem_append] at member
    refine Node.Placed.mono (fun file => (filesOf_alike alike).mpr) ?_
    exact member.elim (holds.placed shown c) (placed shown c)

theorem node_placed (holds : scope.Holds outer)
    (shown : ∀ around ∈ scope :: outer, around.discard = false) :
    scope.node.Placed (filesOf outer) := by
  have children := holds.placed shown
  have around : ∀ file, filesOf (scope :: outer) file → filesOf outer file :=
    fun file all => (List.forall_mem_cons.mp all).2
  refine Node.every_iff.mpr ⟨⟨?_, ?_⟩, fun c member => (children c member).mono around⟩
  · intro names
    rw [holds.plain] at names
    cases names
  · intro kind name title c member
    refine Node.Every.mono ?_ (children c member)
    intro m both names place token
    refine (List.forall_mem_cons.mp (both.1 names place token)).1 _ ?_
    rw [file?, if_pos kind, title]
    rfl

end Holds

end Scope

namespace Filed

theorem ne_nil (filed : Filed scopes) : scopes ≠ [] := by
  cases filed <;> exact List.cons_ne_nil _ _

theorem holds (filed : Filed (scope :: outer)) : scope.Holds outer := by
  cases filed with
  | base _ holds => exact holds
  | inner _ holds => exact holds

theorem around (filed : Filed (scope :: outer)) (deep : outer ≠ []) : Filed outer := by
  cases filed with
  | base => exact absurd rfl deep
  | inner around => exact around

theorem kept (filed : Filed scopes) (kept : List.Forall₂ Scope.Kept scopes scopes') :
    Filed scopes' := by
  have stays : ∀ {scope scope' : Scope} {outer outer' : List Scope}, scope.Holds outer →
      scope.Kept scope' → List.Forall₂ Scope.Kept outer outer' → scope'.Holds outer' := by
    intro scope scope' outer outer' holds kept around
    have same : scope'.node = scope.node.withChildren [] := by rw [kept.node, Node.withChildren_nil]
    exact holds.grow kept.frame kept.discard (around.imp fun _ _ => Scope.Kept.alike) same
      (by simp)
  induction filed generalizing scopes' with
  | base discard holds =>
      cases kept with
      | cons head none =>
          cases none
          exact .base (head.discard.trans discard) (stays holds head .nil)
  | inner _ holds ih =>
      cases kept with
      | cons head rest => exact .inner (ih rest) (stays holds head rest)

theorem grow (filed : Filed (scope :: outer))
    (placed : (∀ around ∈ scope :: outer, around.discard = false) →
      ∀ c ∈ nodes, c.Placed (filesOf (scope :: outer))) :
    Filed ({ scope with node := scope.node.withChildren nodes } :: outer) := by
  have same : List.Forall₂ Scope.Alike outer outer :=
    List.forall₂_same.mpr fun _ _ => ⟨rfl, rfl, rfl⟩
  have grown : Scope.Holds outer { scope with node := scope.node.withChildren nodes } :=
    filed.holds.grow (.refl _) rfl same rfl placed
  cases filed with
  | base discard => exact .base discard grown
  | inner around => exact .inner around grown

theorem closeAll {opened : List Scope} {base : Scope} {inner : List Node}
    (filed : Filed (opened ++ [base]))
    (placed : (∀ scope ∈ opened ++ [base], scope.discard = false) →
      ∀ c ∈ inner, c.Placed (filesOf (opened ++ [base]))) :
    (base.node.withChildren (opened.foldl
      (fun inner scope => if scope.discard then [] else [scope.node.withChildren inner])
        inner)).Every Node.OneFile := by
  induction opened generalizing inner with
  | nil =>
      have grown := filed.grow placed
      have shown : base.discard = false := by
        cases filed with
        | base discard => exact discard
        | inner around => exact absurd rfl around.ne_nil
      exact Node.Every.mono (fun _ both => both.2) (grown.holds.node_placed (by simpa using shown))
  | cons scope opened ih =>
      have deep : opened ++ [base] ≠ [] := by simp
      rw [List.foldl_cons]
      refine ih (filed.around deep) ?_
      intro shown c member
      cases kept : scope.discard with
      | true => simp [kept] at member
      | false =>
          rw [kept] at member
          rw [List.mem_singleton.mp member]
          exact (filed.grow placed).holds.node_placed (List.forall_mem_cons.mpr ⟨kept, shown⟩)

end Filed

end MiLanguage
