import MiLanguage.Proofs.Naming.Calls
import MiLanguage.Proofs.Typing.Shape
import MiLanguage.Proofs.Typing.Ternary

set_option autoImplicit false

namespace MiLanguage

namespace Node

-- What an expression without a value may be in: a block or the step of a loop, where it is called
-- for its own sake, a `ret`, a cast, an arm of a ternary, or a comparison with another of its kind.
def Spares (n c : Node) : Prop :=
  match n.kind with
  | .functionDefinition | .createConstructor | .ifStatement | .whileStatement | .doStatement
  | .forFakeScope | .forStatement | .forInstruct => c.kind = .functionCall
  | .returnValue | .castValue | .ternaryIf | .ternaryElse => True
  | .binary op => op.operatorClass = .equality ∧ ∃ left right a b, n.children = [left, right] ∧
      left.HasType a ∧ right.HasType b ∧ a.sameBase b = true
  | _ => False

/-- Nothing makes use of a value that is not there. -/
structure VoidUnused (n : Node) : Prop where
  spared : ∀ c ∈ n.children, c.IsVoid → n.Spares c
  chosen : n.kind = .ternaryOperator → ∀ arm ∈ n.children,
    arm.kind = .ternaryIf ∨ arm.kind = .ternaryElse → ∀ c ∈ arm.children, c.IsVoid → n.IsVoid
  returned : n.kind = .functionDefinition → ∀ m ∈ n.preorder, m.kind = .returnValue →
    ∀ c ∈ m.children, c.IsVoid → ∃ wanted, n.declaredType? = some wanted ∧ wanted.isVoid = true

variable {n c : Node} {a : Datatype}

theorem IsVoid.of_type (void : n.IsVoid) (type : n.HasType a) : a.isVoid = true := by
  obtain ⟨_, found, same, void⟩ := void
  rw [show n.type = some a from type] at same
  cases same
  exact void

theorem WellTyped.chosen (typed : n.WellTyped) (kind : n.kind = .ternaryOperator) {arm : Node}
    (member : arm ∈ n.children) (shown : arm.kind = .ternaryIf ∨ arm.kind = .ternaryElse)
    (inside : c ∈ arm.children) (void : c.IsVoid) : n.IsVoid := by
  have fits := typed.top.fits
  unfold Fits at fits
  rw [kind] at fits
  obtain ⟨condition, thenArm, elseArm, yes, no, a, b, children, thenKind, thenValue, elseKind,
    elseValue, bool, yesType, noType, related, type⟩ := fits
  have expression : n.kind.isExpression = true := by rw [kind]; rfl
  refine ⟨expression, _, type, ?_⟩
  rw [children] at member
  simp only [List.mem_cons, List.not_mem_nil, or_false] at member
  rcases member with rfl | rfl | rfl
  · have inner : arm ∈ n.children := by simp [children]
    have condition := (typed.child inner).top.typed.mp (by rw [bool]; rfl)
    rcases shown with same | same <;> simp [same, NodeKind.isExpression] at condition
  · rw [thenValue] at inside
    rw [List.mem_singleton.mp inside] at void
    have found := void.of_type yesType
    cases a with
    | null => cases found
    | of => exact found
  · rw [elseValue] at inside
    rw [List.mem_singleton.mp inside] at void
    have found := void.of_type noType
    split
    next => exact found
    next value =>
      cases a with
      | null => exact absurd rfl value
      | of x m =>
          cases b with
          | null => cases found
          | of y k =>
              have same : x = y := by simpa [Datatype.sameBase] using related
              rw [same]
              cases y <;> exact found

theorem LocallyTyped.condition (typed : n.LocallyTyped) (kind : n.kind = .condition)
    (member : c ∈ n.children) : ¬c.IsVoid := by
  have fits := typed.fits
  unfold Fits at fits
  rw [kind] at fits
  obtain ⟨e, children, bool⟩ := fits
  rw [children] at member
  rw [List.mem_singleton.mp member]
  intro void
  cases void.of_type bool

theorem LocallyTyped.unary (typed : n.LocallyTyped) {op : UnaryOperator} (kind : n.kind = .unary op)
    (member : c ∈ n.children) : ¬c.IsVoid := by
  have fits := typed.fits
  unfold Fits at fits
  rw [kind] at fits
  obtain ⟨operand, type, children, found, takes, _⟩ := fits
  rw [children] at member
  rw [List.mem_singleton.mp member]
  intro void
  have nothing : type.primitive? = some .void := by simpa [Datatype.isVoid] using void.of_type found
  cases op <;>
    simp [UnaryOperator.takes, Datatype.isSigned, Datatype.isBool, Datatype.isIntegral, nothing] at takes

theorem LocallyTyped.binary (typed : n.LocallyTyped) {op : BinaryOperator}
    (kind : n.kind = .binary op) (member : c ∈ n.children) (void : c.IsVoid) : n.Spares c := by
  have fits := typed.fits
  unfold Fits at fits
  rw [kind] at fits
  obtain ⟨left, right, a, b, type, children, leftType, rightType, _, result⟩ := fits
  have nothing : a.isVoid = true ∨ b.isVoid = true := by
    rw [children] at member
    simp only [List.mem_cons, List.not_mem_nil, or_false] at member
    rcases member with rfl | rfl
    · exact .inl (void.of_type leftType)
    · exact .inr (void.of_type rightType)
  obtain ⟨equality, same⟩ := Datatype.binaryResult_void result nothing
  unfold Spares
  rw [kind]
  exact ⟨equality, left, right, a, b, children, leftType, rightType, same⟩

theorem LocallyTyped.ternary (typed : n.LocallyTyped) (kind : n.kind = .ternaryOperator)
    (member : c ∈ n.children) : ¬c.IsVoid := by
  have fits := typed.fits
  unfold Fits at fits
  rw [kind] at fits
  obtain ⟨condition, thenArm, elseArm, yes, no, a, b, children, thenKind, _, elseKind, _, bool, _⟩ :=
    fits
  rw [children] at member
  simp only [List.mem_cons, List.not_mem_nil, or_false] at member
  rintro ⟨expression, type, found, void⟩
  rcases member with rfl | rfl | rfl
  · have calls : c.IsVoid := ⟨expression, type, found, void⟩
    cases calls.of_type bool
  · rw [thenKind] at expression
    cases expression
  · rw [elseKind] at expression
    cases expression

end Node

namespace ModuleTree

variable {t : ModuleTree} {s : Sight} {n c : Node}

theorem WellFormed.functionsOf (wellFormed : t.WellFormed) (owner : Owner) :
    (t.functionsOf owner).WellFormed owner := by
  cases owner with
  | module id => exact (wellFormed.members id).functions
  | inClass id name =>
      show ((t.class? id name).map ClassDeclaration.methods |>.getD .empty).WellFormed _
      cases found : t.class? id name with
      | none => exact FunctionTable.wellFormed_empty _
      | some c => exact ((wellFormed.members id).classes name c found).methods

theorem Finds.argument (finds : t.Finds s n) (wellFormed : t.WellFormed) (kind : n.kind = .functionCall)
    (shaped : n.Shaped) {args : Node} (member : args ∈ n.children) (list : args.kind = .parameters)
    (inside : c ∈ args.children) : ¬c.IsVoid := by
  obtain ⟨f, candidates, ⟨⟨name, second, _, types, children, _, _, given, selected, _, taken⟩, _⟩,
    initial, _⟩ := finds.chosen kind
  have same : args = second := by
    have kinds := shaped.call kind
    rw [children] at kinds member
    simp only [List.map_cons, List.map_nil, List.cons.injEq, and_true] at kinds
    simp only [List.mem_cons, List.not_mem_nil, or_false] at member
    rcases member with rfl | rfl
    · rw [kinds.1] at list
      cases list
    · rfl
  subst same
  have header := (wellFormed.functionsOf f.owner).each f.name f
    (initial.subset (Overload.mem_of_select selected))
  rintro ⟨_, type, found, void⟩
  have given : some type ∈ types.map some := by
    rw [← given, ← found]
    exact List.mem_map_of_mem inside
  obtain ⟨_, argument, same⟩ := List.mem_map.mp given
  cases same
  obtain ⟨i, bound, rfl⟩ := List.getElem_of_mem argument
  have each : List.Forall₂ (fun a p => a.assignable p = true) types f.paramTypes := taken
  have within : i < f.paramTypes.length := by
    rw [← each.length_eq]
    exact bound
  obtain ⟨p, parameter, same⟩ := List.mem_map.mp (List.getElem_mem within)
  have stored := (header.parameters p parameter).stored
  rw [same] at stored
  have value : types[i].isVoid = false := stored.of_assignable (each.get bound within)
  rw [value] at void
  cases void

end ModuleTree

namespace Node

variable {root n : Node} {t : ModuleTree}

theorem isExpression_of_takes {outer inner : NodeKind} (expression : inner.isExpression = true)
    (stands : inner.standsIn outer = true) (call : inner ≠ .functionCall) :
    outer.takesValue = true := by
  unfold NodeKind.standsIn at stands
  split at stands <;> simp_all [NodeKind.isExpression]

theorem every_voidUnused (start : root.kind.isLoose = true) (typed : root.WellTyped)
    (shaped : root.Every Shaped) (sound : root.Sound) (wellFormed : t.WellFormed)
    (finds : root.Every fun n => ∃ s, t.Finds s n) : root.Every VoidUnused := by
  intro n member
  have isLocal : n.LocallyTyped := typed n member
  have below : n.WellTyped := fun m inner => typed m (mem_preorder_trans inner root member)
  refine ⟨?_, fun kind _ inner shown _ inside void => below.chosen kind inner shown inside void, ?_⟩
  · intro c child void
    have expression := void.1
    have stands := (shaped n member).places c child
    -- A node other than the root is looked at together with its parent.
    have around : n.kind.isLoose ≠ true → ∃ p ∈ root.preorder, n ∈ p.children := by
      intro other
      rcases parent_of_mem root member with rfl | parent
      · exact absurd start other
      · exact parent
    cases kind : n.kind with
    | binary op => exact isLocal.binary kind child void
    | unary op => exact absurd void (isLocal.unary kind child)
    | ternaryOperator => exact absurd void (isLocal.ternary kind child)
    | condition => exact absurd void (isLocal.condition kind child)
    | value =>
        obtain ⟨p, inner, holds⟩ := around (by rw [kind]; nofun)
        exact absurd void ((shaped p inner).stored n holds kind c child)
    | parameters =>
        obtain ⟨p, inner, holds⟩ := around (by rw [kind]; nofun)
        by_cases call : p.kind = .functionCall
        · obtain ⟨s, found⟩ := finds p inner
          exact absurd void (found.argument wellFormed call (shaped p inner) holds kind child)
        · rw [(shaped p inner).listed call n holds kind c child] at expression
          cases expression
    | returnValue | castValue | ternaryIf | ternaryElse => simp [Spares, kind]
    | _ =>
        have call : c.kind = .functionCall := by
          by_contra other
          have takes := isExpression_of_takes expression stands other
          rw [kind] at takes
          cases takes
        rw [call, kind] at stands
        first
          | simpa [Spares, kind] using call
          | cases stands
  · intro kind m inner returns c child void
    obtain ⟨wanted, declared, control⟩ := (sound n member).function kind
    refine ⟨wanted, declared, ?_⟩
    by_contra storable
    have gives := control.gives m inner returns
    rw [Gives, if_neg storable] at gives
    obtain ⟨value, type, only, found, valued, _⟩ := gives
    rw [only] at child
    rw [List.mem_singleton.mp child] at void
    rw [void.of_type found] at valued
    cases valued

end Node

namespace Analysis

/-- In an accepted program an expression that gives no value is called for its own sake, returned
where nothing is to be returned, converted, chosen by a ternary that gives none either, or compared
with another one. -/
theorem root_voidUnused {host : Host} {maxErrors : Nat} {tokens : List Token}
    (accepted : (ofTokens host maxErrors tokens).isOk = true) :
    (ofTokens host maxErrors tokens).root.Every Node.VoidUnused := by
  obtain ⟨firstClean, secondClean⟩ := isOk_iff.mp accepted
  have typed := (runPass_wellTyped ⟨.declarations, host⟩ ModuleTree.wellTyped_empty { maxErrors }
    tokens).environment.modules
  have formed := (runPass_wellFormed ⟨.declarations, host⟩ ModuleTree.wellFormed_empty { maxErrors }
    tokens).modules
  obtain ⟨_, finds, _⟩ := finds_secondPass firstClean
  rw [ofTokens_eq firstClean]
  obtain ⟨loose, shaped⟩ := runPass_shaped typed formed secondClean
  exact Node.every_voidUnused loose (runPass_wellTyped _ typed _ _).root shaped
    (runPass_controlSound typed secondClean) (runPass_wellFormed _ formed _ _).modules finds.every

-- The program `module m { fn f { } fn g { f(); bool b = f() == f(); } }`.
def comparedCallsProgram : List Token :=
  let call := [Token.alone .identifier "f", .alone .leftParen "(", .alone .rightParen ")"]
  [Token.alone (.keyword .module) "module", .alone .identifier "m", .alone .leftBrace "\x7b",
    .alone (.keyword .fn) "fn", .alone .identifier "f", .alone .leftBrace "\x7b",
    .alone .rightBrace "\x7d", .alone (.keyword .fn) "fn", .alone .identifier "g",
    .alone .leftBrace "\x7b"] ++ call ++
  [.alone .semicolon ";", .alone (.datatype .bool) "bool", .alone .identifier "b",
    .alone .assign "="] ++ call ++ [.alone (.binary .equal) "=="] ++ call ++
  [.alone .semicolon ";", .alone .rightBrace "\x7d", .alone .rightBrace "\x7d"]

theorem comparedCallsProgram_voidUnused :
    (ofTokens {} 100 comparedCallsProgram).isOk = true ∧
      ((ofTokens {} 100 comparedCallsProgram).root.findAll .functionCall).map Node.type =
        [some .void, some .void, some .void] ∧
      (ofTokens {} 100 comparedCallsProgram).root.Every Node.VoidUnused := by
  have accepted : (ofTokens {} 100 comparedCallsProgram).isOk = true := by decide +kernel
  exact ⟨accepted, by decide +kernel, root_voidUnused accepted⟩

/-- Of all operators only `==` and `!=` take what gives no value, and then on both sides. -/
theorem comparedCalls_accepted :
    let a := ofTokens {} 100 comparedCallsProgram
    a.isOk = true ∧
      (a.root.findAll (.binary .equal)).map (fun n => (n.type, n.children.map Node.type)) =
        [(some .bool, [some .void, some .void])] ∧
      BinaryOperator.all.filter (fun op => (Datatype.binaryResult op .void .void).isSome) =
        [.equal, .notEqual] := by
  decide +kernel

end Analysis

end MiLanguage
