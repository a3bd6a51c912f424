import MiLanguage.Analysis.Run
import MiLanguage.Proofs.Checked

set_option autoImplicit false

namespace MiLanguage

/-- Where a token stands in the text of its unit. -/
structure Site where
  line : Nat
  column : Nat
  start : Nat
  stop : Nat
  deriving DecidableEq

def Token.site (t : Token) : Site := ⟨t.line, t.column, t.span.start, t.span.stop⟩

/-- Other places for all tokens, each in the file that it was in. -/
structure Relocation where
  site : FileId → Site → Site
  streamLine : Nat → Nat
  streamLine_zero : streamLine 0 = 0

/-- What is made of tokens can be had from the same tokens in other places. -/
class Movable (α : Type) where
  move : Relocation → α → α

export Movable (move)

variable {m : Relocation} {α β γ : Type} [Movable α] [Movable β] [Movable γ]

section Plain

instance : Movable Unit := ⟨fun _ a => a⟩
instance : Movable Bool := ⟨fun _ a => a⟩
instance : Movable String := ⟨fun _ a => a⟩
instance : Movable Datatype := ⟨fun _ a => a⟩
instance : Movable FunctionParameter := ⟨fun _ a => a⟩
instance : Movable EnumDeclaration := ⟨fun _ a => a⟩
instance : Movable ModuleId := ⟨fun _ a => a⟩
instance : Movable Placement := ⟨fun _ a => a⟩
instance : Movable ResolvedVariable := ⟨fun _ a => a⟩
instance : Movable ResolvedCall := ⟨fun _ a => a⟩
instance : Movable ResolutionFault := ⟨fun _ a => a⟩
instance : Movable LookupFailure := ⟨fun _ a => a⟩
instance : Movable NativeBinding := ⟨fun _ a => a⟩

@[simp] theorem move_unit (a : Unit) : move m a = a := rfl
@[simp] theorem move_bool (a : Bool) : move m a = a := rfl
@[simp] theorem move_string (a : String) : move m a = a := rfl
@[simp] theorem move_datatype (a : Datatype) : move m a = a := rfl
@[simp] theorem move_parameter (a : FunctionParameter) : move m a = a := rfl
@[simp] theorem move_enum (a : EnumDeclaration) : move m a = a := rfl
@[simp] theorem move_moduleId (a : ModuleId) : move m a = a := rfl
@[simp] theorem move_placement (a : Placement) : move m a = a := rfl
@[simp] theorem move_resolvedVariable (a : ResolvedVariable) : move m a = a := rfl
@[simp] theorem move_resolvedCall (a : ResolvedCall) : move m a = a := rfl
@[simp] theorem move_resolutionFault (a : ResolutionFault) : move m a = a := rfl
@[simp] theorem move_lookupFailure (a : LookupFailure) : move m a = a := rfl

end Plain

section Containers

instance : Movable (List α) := ⟨fun m => List.map (move m)⟩
instance : Movable (Option α) := ⟨fun m => Option.map (move m)⟩
instance : Movable (α × β) := ⟨fun m p => (move m p.1, move m p.2)⟩

@[simp] theorem move_nil : move m ([] : List α) = [] := rfl
@[simp] theorem move_cons (a : α) (as : List α) : move m (a :: as) = move m a :: move m as := rfl
@[simp] theorem move_none : move m (none : Option α) = none := rfl
@[simp] theorem move_some (a : α) : move m (some a) = some (move m a) := rfl
@[simp] theorem move_pair (a : α) (b : β) : move m (a, b) = (move m a, move m b) := rfl
@[simp] theorem fst_move (p : α × β) : (move m p).1 = move m p.1 := rfl
@[simp] theorem snd_move (p : α × β) : (move m p).2 = move m p.2 := rfl

theorem move_list (as : List α) : move m as = as.map (move m) := rfl

variable {as bs : List α} {o : Option α}

@[simp] theorem move_append (as bs : List α) : move m (as ++ bs) = move m as ++ move m bs :=
  List.map_append

@[simp] theorem length_move (as : List α) : (move m as).length = as.length := List.length_map ..

@[simp] theorem isEmpty_move (as : List α) : (move m as).isEmpty = as.isEmpty := by
  cases as <;> rfl

@[simp] theorem head?_move (as : List α) : (move m as).head? = move m as.head? := List.head?_map

@[simp] theorem tail_move (as : List α) : (move m as).tail = move m as.tail := List.map_tail.symm

@[simp] theorem getLast?_move (as : List α) : (move m as).getLast? = move m as.getLast? :=
  List.getLast?_map

@[simp] theorem dropLast_move (as : List α) : (move m as).dropLast = move m as.dropLast :=
  List.map_dropLast.symm

@[simp] theorem headD_move (as : List α) (a : α) :
    (move m as).headD (move m a) = move m (as.headD a) := by
  cases as <;> rfl

@[simp] theorem getD_move (o : Option α) (a : α) :
    (move m o).getD (move m a) = move m (o.getD a) := by
  cases o <;> rfl

@[simp] theorem isSome_move (o : Option α) : (move m o).isSome = o.isSome := by
  cases o <;> rfl

@[simp] theorem isNone_move (o : Option α) : (move m o).isNone = o.isNone := by
  cases o <;> rfl

-- What is asked of the parts is asked of them wherever they stand.
theorem any_move {p : α → Bool} (same : ∀ a, p (move m a) = p a) (as : List α) :
    (move m as).any p = as.any p := by
  rw [move_list, List.any_map]
  exact congrArg as.any (funext same)

theorem find?_move {p : α → Bool} (same : ∀ a, p (move m a) = p a) (as : List α) :
    (move m as).find? p = move m (as.find? p) := by
  rw [move_list, List.find?_map]
  exact congrArg (move m <| as.find? ·) (funext same)

theorem filter_move {p : α → Bool} (same : ∀ a, p (move m a) = p a) (as : List α) :
    (move m as).filter p = move m (as.filter p) := by
  rw [move_list, List.filter_map]
  exact congrArg (fun p => move m (as.filter p)) (funext same)

theorem option_any_move {p : α → Bool} (same : ∀ a, p (move m a) = p a) (o : Option α) :
    (move m o).any p = o.any p := by
  cases o with
  | none => rfl
  | some a => exact same a

theorem map_move {f g : α → β} (same : ∀ a, f (move m a) = move m (g a)) (as : List α) :
    (move m as).map f = move m (as.map g) := by
  simp only [move_list, List.map_map]
  exact congrArg (as.map ·) (funext same)

theorem option_map_move {f g : α → β} (same : ∀ a, f (move m a) = move m (g a)) (o : Option α) :
    (move m o).map f = move m (o.map g) := by
  cases o with
  | none => rfl
  | some a => exact congrArg some (same a)

theorem option_bind_move {f g : α → Option β} (same : ∀ a, f (move m a) = move m (g a))
    (o : Option α) : (move m o).bind f = move m (o.bind g) := by
  cases o with
  | none => rfl
  | some a => exact same a

theorem findSome?_move {f g : α → Option β} (same : ∀ a, f (move m a) = move m (g a))
    (as : List α) : (move m as).findSome? f = move m (as.findSome? g) := by
  induction as with
  | nil => rfl
  | cons a as ih =>
      rw [move_cons, List.findSome?_cons, List.findSome?_cons, same, ih]
      cases g a <;> rfl

theorem foldl_move {f g : β → α → β} (same : ∀ b a, f (move m b) (move m a) = move m (g b a))
    (as : List α) (b : β) : (move m as).foldl f (move m b) = move m (as.foldl g b) := by
  induction as generalizing b with
  | nil => rfl
  | cons a as ih => rw [move_cons, List.foldl_cons, List.foldl_cons, same, ih]

end Containers

@[simp] theorem move_strings (as : List String) : move m as = as := List.map_id as

section Tokens

instance : Movable Token where
  move m t :=
    let site := m.site t.span.fileId t.site
    { t with
      line := site.line
      column := site.column
      streamLine := m.streamLine t.streamLine
      span := ⟨site.start, site.stop, t.span.fileId⟩ }

@[simp] theorem kind_move (t : Token) : (move m t).kind = t.kind := rfl
@[simp] theorem lexeme_move (t : Token) : (move m t).lexeme = t.lexeme := rfl
@[simp] theorem fileId_move (t : Token) : (move m t).span.fileId = t.span.fileId := rfl
@[simp] theorem isLibrary_move (t : Token) : (move m t).span.isLibrary = t.span.isLibrary := rfl
@[simp] theorem streamLine_move (t : Token) :
    (move m t).streamLine = m.streamLine t.streamLine := rfl
@[simp] theorem is_move (t : Token) (kind : TokenKind) : (move m t).is kind = t.is kind := rfl

@[simp] theorem synthetic_move (kind : TokenKind) (lexeme : String) (t : Token) :
    Token.synthetic kind lexeme (move m t) = move m (Token.synthetic kind lexeme t) := rfl

end Tokens

section Nodes

mutual
def Node.relocate (m : Relocation) : Node → Node
  | ⟨kind, token, children, line, type⟩ =>
      ⟨kind, move m token, Node.relocateAll m children, m.streamLine line, type⟩
def Node.relocateAll (m : Relocation) : List Node → List Node
  | [] => []
  | n :: ns => Node.relocate m n :: Node.relocateAll m ns
end

instance : Movable Node := ⟨Node.relocate⟩

theorem Node.relocateAll_eq (ns : List Node) : Node.relocateAll m ns = move m ns := by
  induction ns with
  | nil => rfl
  | cons n ns ih => rw [relocateAll, ih]; rfl

theorem move_node (n : Node) : move m n =
    ⟨n.kind, move m n.token, move m n.children, m.streamLine n.line, n.type⟩ := by
  obtain ⟨kind, token, children, line, type⟩ := n
  exact congrArg (fun below => (⟨kind, move m token, below, m.streamLine line, type⟩ : Node))
    (Node.relocateAll_eq children)

@[simp] theorem node_kind_move (n : Node) : (move m n).kind = n.kind := by rw [move_node]
@[simp] theorem node_type_move (n : Node) : (move m n).type = n.type := by rw [move_node]
@[simp] theorem children_move (n : Node) : (move m n).children = move m n.children := by
  rw [move_node]

theorem move_new (kind : NodeKind) (line : Nat) (children : List Node) :
    move m (Node.new kind line children) = .new kind (m.streamLine line) (move m children) := by
  rw [move_node]; rfl

@[simp] theorem node_new_move (kind : NodeKind) (line : Nat) (children : List Node) :
    Node.new kind (m.streamLine line) (move m children) = move m (Node.new kind line children) :=
  (move_new kind line children).symm

@[simp] theorem node_empty_move (kind : NodeKind) (line : Nat) :
    Node.new kind (m.streamLine line) = move m (Node.new kind line) :=
  (move_new kind line []).symm

@[simp] theorem leaf_move (kind : NodeKind) (t : Token) :
    Node.leaf kind (move m t) = move m (Node.leaf kind t) := by
  rw [move_node]; rfl

@[simp] theorem push_move (n child : Node) : (move m n).push (move m child) = move m (n.push child) := by
  simp only [move_node, Node.push, move_append, move_cons, move_nil]

@[simp] theorem withChildren_move (n : Node) (children : List Node) :
    (move m n).withChildren (move m children) = move m (n.withChildren children) := by
  simp only [move_node, Node.withChildren, move_append]

@[simp] theorem typed_move (n : Node) (type : Datatype) :
    (move m n).typed type = move m (n.typed type) := by
  simp only [move_node, Node.typed]

instance : Movable Typed := ⟨fun m e => ⟨move m e.node, e.type⟩⟩

@[simp] theorem typed_node_move (e : Typed) : (move m e).node = move m e.node := rfl
@[simp] theorem typed_type_move (e : Typed) : (move m e).type = e.type := rfl

@[simp] theorem typed_of_move (n : Node) (type : Datatype) :
    Typed.of (move m n) type = move m (Typed.of n type) := by
  simp only [Typed.of, typed_move]; rfl

theorem of_new_move (kind : NodeKind) (line : Nat) {children moved : List Node}
    (below : moved = move m children) (type : Datatype) :
    Typed.of (.new kind (m.streamLine line) moved) type =
      move m (Typed.of (.new kind line children) type) := by
  rw [below, node_new_move, typed_of_move]

end Nodes

section Checks

instance : Movable Report := ⟨fun m r => ⟨r.fault, move m r.place⟩⟩

instance : Movable (Checked α) where
  move m
    | .ok a => .ok (move m a)
    | .error r => .error (move m r)

@[simp] theorem move_ok (a : α) : move m (.ok a : Checked α) = .ok (move m a) := rfl
@[simp] theorem move_error (r : Report) :
    move m (.error r : Checked α) = .error (move m r) := rfl
@[simp] theorem move_pure (a : α) : move m (pure a : Checked α) = pure (move m a) := rfl

@[simp] theorem blame_move (fault : Fault) (place : Token) :
    (blame fault (move m place) : Checked α) = move m (blame fault place) := rfl

@[simp] theorem require_move (holds : Bool) (fault : Fault) (place : Token) :
    require holds fault (move m place) = move m (require holds fault place) := by
  cases holds <;> rfl

theorem bind_move {x y : Checked α} {f g : α → Checked β} (first : y = move m x)
    (rest : ∀ a, g (move m a) = move m (f a)) : (y >>= g) = move m (x >>= f) := by
  subst first
  cases x with
  | ok a => exact rest a
  | error r => rfl

-- A choice that does not hang on places.
theorem ite_move {c : Prop} [Decidable c] {a b x y : α} (yes : x = move m a) (no : y = move m b) :
    (if c then x else y) = move m (if c then a else b) := by
  subst yes no
  exact (apply_ite (move m) c a b).symm

end Checks

end MiLanguage
