import MiLanguage.Proofs.Naming.Run
import MiLanguage.Proofs.Overload

set_option autoImplicit false

namespace MiLanguage

namespace Overload

variable {candidates : List FunctionDefinition} {args : List Datatype} {f : FunctionDefinition}

theorem select_of_bare (selected : select (candidates.map FunctionDefinition.bare) args = .ok f) :
    ∃ d, select candidates args = .ok d ∧ d.bare = f := by
  have tier := single_eq_ok_iff.mp selected
  rw [decidingTier_bare, List.map_eq_singleton_iff] at tier
  obtain ⟨d, tier, same⟩ := tier
  exact ⟨d, single_eq_ok_iff.mpr tier, same⟩

end Overload

section Elaborates

variable {env : Environment} {P : Node → Prop}

theorem Typed.calls_of {node : Node} {type : Datatype} (plain : node.kind ≠ .functionCall)
    (children : ∀ c ∈ node.children, c.Every fun n => n.kind = .functionCall → P n) :
    (Typed.of node type).node.Every fun n => n.kind = .functionCall → P n :=
  Node.every_iff.mpr ⟨fun same => absurd same plain, children⟩

mutual

theorem Elaborates.every_call
    (each : ∀ (name : TokenOf .identifier) (args : List Typed) (callee : ResolvedCall),
      (∀ e ∈ args, e.Correct) → env.resolveCall name (args.map Typed.type) = .ok callee →
      P (Typed.of (.new .functionCall name.val.streamLine
        [.leaf .identifier (.synthetic .identifier callee.qualified name),
          .new .parameters name.val.streamLine (args.map Typed.node)]) callee.returnType).node) :
    {surface : Surface} → {e : Typed} → Elaborates env surface e →
      e.node.Every fun n => n.kind = .functionCall → P n
  | _, _, .integer _ _ => Typed.calls_of nofun nofun
  | _, _, .long _ _ => Typed.calls_of nofun nofun
  | _, _, .constant _ => Typed.calls_of nofun nofun
  | _, _, .reference _ => Typed.calls_of nofun nofun
  | _, _, .member _ _ => Typed.calls_of nofun (by simpa [Node.new] using
      ⟨Node.every_leaf.mpr nofun, Node.every_leaf.mpr nofun⟩)
  | _, _, @Elaborates.call _ _ _ typed _ arguments resolved => Node.every_iff.mpr
      ⟨fun _ => each _ _ _ (ElaboratesAll.correct arguments) resolved, by
        have inner : ∀ c ∈ typed.map Typed.node, c.Every fun n => n.kind = .functionCall → P n := by
          intro c member
          obtain ⟨e, inside, rfl⟩ := List.mem_map.mp member
          exact ElaboratesAll.every_call each arguments e inside
        intro c member
        rcases List.mem_cons.mp member with rfl | member
        · exact Node.every_leaf.mpr nofun
        · rw [List.mem_singleton.mp member]
          exact Node.every_new.mpr ⟨nofun, inner⟩⟩
  | _, _, .construct _ => Typed.calls_of nofun nofun
  | _, _, .cast _ operand => Typed.calls_of nofun (by
      simpa [Node.push, Node.leaf] using operand.every_call each)
  | _, _, @Elaborates.negative _ _ text _ _ _ => Typed.calls_of nofun (by
      have inner : (Typed.integer text).node.Every fun n => n.kind = .functionCall → P n :=
        Typed.calls_of nofun nofun
      simpa [Node.new] using inner)
  | _, _, .unary operand _ => Typed.calls_of nofun (by
      simpa [Node.new] using operand.every_call each)
  | _, _, .binary left right _ => Typed.calls_of nofun (by
      simpa [Node.new] using ⟨left.every_call each, right.every_call each⟩)
  | _, _, .ternary condition yes no _ _ => Typed.calls_of nofun (by
      have arm {kind : NodeKind} {line : Nat} {e : Typed} (plain : kind ≠ .functionCall)
          (every : e.node.Every fun n => n.kind = .functionCall → P n) :
          (Node.new kind line [e.node]).Every fun n => n.kind = .functionCall → P n :=
        Node.every_new.mpr ⟨fun same => absurd same plain, by simpa using every⟩
      intro c member
      simp only [Node.new, List.mem_cons, List.not_mem_nil, or_false] at member
      rcases member with rfl | rfl | rfl
      · exact condition.every_call each
      · exact arm nofun (yes.every_call each)
      · exact arm nofun (no.every_call each))

theorem ElaboratesAll.every_call
    (each : ∀ (name : TokenOf .identifier) (args : List Typed) (callee : ResolvedCall),
      (∀ e ∈ args, e.Correct) → env.resolveCall name (args.map Typed.type) = .ok callee →
      P (Typed.of (.new .functionCall name.val.streamLine
        [.leaf .identifier (.synthetic .identifier callee.qualified name),
          .new .parameters name.val.streamLine (args.map Typed.node)]) callee.returnType).node) :
    {surfaces : List Surface} → {args : List Typed} → ElaboratesAll env surfaces args →
      ∀ e ∈ args, e.node.Every fun n => n.kind = .functionCall → P n
  | _, _, .nil => nofun
  | _, _, .cons first others => by
      intro e member
      rcases List.mem_cons.mp member with rfl | member
      · exact first.every_call each
      · exact ElaboratesAll.every_call each others e member

end

end Elaborates

namespace ModuleTree

variable {t old new : ModuleTree} {s : Sight} {n : Node} {place : Token} {args : List Datatype}
  {type : Datatype} {candidates : List FunctionDefinition} {f : FunctionDefinition}

/-- A call whose node is `n` means `f`: choosing again between the candidates by the types of the
arguments in the tree comes to `f`, and the node has the full name and the type that follow. -/
structure Means (t : ModuleTree) (n : Node) (candidates : List FunctionDefinition)
    (f : FunctionDefinition) : Prop where
  chosen : ∃ (name args : Node) (place : Token) (types : List Datatype),
    n.children = [name, args] ∧ name.token = some place ∧ place.lexeme = t.qualifyFunction f ∧
      args.children.map Node.type = types.map some ∧ Overload.select candidates types = .ok f ∧
      f.parameters.length = types.length ∧ Overload.Takes Datatype.assignable types f
  type : n.type = some f.returnType

theorem means_of_select {name arguments : Node} {types : List Datatype}
    (children : n.children = [name, arguments]) (token : name.token = some place)
    (named : place.lexeme = t.qualifyFunction f) (argTypes : arguments.children.map Node.type = types.map some)
    (selected : Overload.select candidates types = .ok f) (same : n.type = some f.returnType) :
    t.Means n candidates f := by
  have decided : f ∈ Overload.decidingTier candidates types := by
    rw [Overload.single_eq_ok_iff.mp selected]
    exact List.mem_singleton_self f
  have taken := (Overload.mem_decidingTier decided).2
  exact ⟨⟨name, arguments, place, types, children, token, named, argTypes, selected,
    Overload.length_eq_of_takes taken, taken⟩, same⟩

theorem Means.offers (means : old.Means n (old.overloadsOf f) f) (offers : old.Offers new) :
    ∃ g, new.Means n ((new.overloadsOf g).take (old.overloadsOf g).length) g := by
  obtain ⟨⟨name, arguments, place, types, children, token, named, argTypes, selected, -, -⟩, same⟩ := means
  have inside := inside_of_function (Overload.mem_of_select selected)
  have first : (old.overloadsOf f).map FunctionDefinition.bare =
      ((new.overloadsOf f).take (old.overloadsOf f).length).map FunctionDefinition.bare := by
    have all := List.prefix_iff_eq_take.mp (offers.functionsOf f.owner f.name)
    rw [List.length_map] at all
    rw [List.map_take]
    exact all
  have chosen := Overload.select_bare selected
  rw [first] at chosen
  obtain ⟨g, selected, bare⟩ := Overload.select_of_bare chosen
  have owner : g.bare.owner = f.bare.owner := by rw [bare]
  have called : g.bare.name = f.bare.name := by rw [bare]
  have returned : g.bare.returnType = f.bare.returnType := by rw [bare]
  have here (t : ModuleTree) : t.overloadsOf g = t.overloadsOf f := by
    show (t.functionsOf g.bare.owner).overloads g.bare.name = _
    rw [owner, called]
    rfl
  have spelled : new.qualifyFunction g = old.qualifyFunction f := by
    rw [show new.qualifyFunction g = new.qualifyFunction g.bare from rfl, bare]
    exact offers.qualifyFunction inside
  refine ⟨g, means_of_select children token (named.trans spelled.symm) argTypes ?_ ?_⟩
  · rw [here, here]
    exact selected
  · exact same.trans (congrArg some returned.symm)

-- An initial value, or a call in one. The first pass has read its definition `d` at `p`, in the
-- same module or class. Each call there means a choice between the overloads that have been
-- declared by then, which are the first ones of all.
def Initial (t : ModuleTree) (start : AnalysisState) (s : Sight) (n : Node) : Prop :=
  ∃ p d, start.Leads p ∧ p.Defines d ∧ p.environment.sight = s ∧ n ∈ d.preorder ∧
    (n.kind = .varDefAndSetValue → n = d) ∧
    d.Every fun c => c.kind = .functionCall → ∃ f,
      t.Means c ((t.overloadsOf f).take (p.environment.declared.overloadsOf f).length) f

/-- Which overloads a call means a choice between: in a body all of the callee's name, where it is
declared, outside of bodies those in front of the definition that the call gives a value to. -/
structure Calls (t : ModuleTree) (start : AnalysisState) (s : Sight) (n : Node) : Prop where
  inBody : n.kind = .functionCall → s.body = true → ∃ f, t.Means n (t.overloadsOf f) f
  outside : n.kind = .functionCall ∨ n.kind = .varDefAndSetValue → s.body = false →
    t.Initial start s n

theorem Finds.chosen (finds : t.Finds s n) (call : n.kind = .functionCall) :
    ∃ f candidates, t.Means n candidates f ∧ candidates <+: t.overloadsOf f ∧
      (s.body = true → candidates = t.overloadsOf f) := by
  obtain ⟨place, types, type, name, args, children, token, argTypes, same, selects⟩ := finds.call call
  obtain @⟨g, shown, initial, all, selected, named, rfl, -⟩ := selects
  have cut : shown = ((t.overloadsOf g).take shown.length).map FunctionDefinition.bare := by
    rw [List.map_take]
    exact List.prefix_iff_eq_take.mp initial
  rw [cut] at selected
  obtain ⟨f, selected, rfl⟩ := Overload.select_of_bare selected
  refine ⟨f, _, means_of_select children token named argTypes selected same, List.take_prefix _ _,
    fun body => ?_⟩
  have length := congrArg List.length (all body)
  rw [List.length_map] at length
  rw [length]
  exact List.take_length

end ModuleTree

theorem every_variableNode {P : Node → Prop} {typeToken name : Token} {mods : LeadingModifiers}
    {type : Datatype} {value : Option Node} (own : P (variableNode typeToken name mods type value))
    (parts : ∀ m : Node, m.kind.initial = false → P m) (inner : ∀ n, value = some n → n.Every P) :
    (variableNode typeToken name mods type value).Every P := by
  have leading : (mods.node typeToken.streamLine).Every P := by
    refine Node.every_new.mpr ⟨parts _ rfl, ?_⟩
    intro c member
    obtain ⟨token, -, rfl⟩ := List.mem_map.mp member
    exact Node.every_leaf.mpr (parts _ rfl)
  have front : (Node.leaf .identifier name).Every P ∧
      (typeNode (some typeToken) type typeToken.streamLine).Every P :=
    ⟨Node.every_leaf.mpr (parts _ rfl), Node.every_iff.mpr ⟨parts _ rfl, nofun⟩⟩
  refine Node.every_iff.mpr ⟨own, ?_⟩
  cases value with
  | none => simpa [variableNode, Node.new] using ⟨leading, front⟩
  | some n =>
      have last : (Node.new .value typeToken.streamLine [n]).Every P :=
        Node.every_new.mpr ⟨parts _ rfl, by simpa using inner n rfl⟩
      simpa [variableNode, Node.new] using ⟨leading, front.1, front.2, last⟩

namespace Environment

variable {env : Environment} {e : Typed}

theorem Coherent.calls (coherent : env.Coherent) (outer : env.Outer) (means : env.Means e) :
    e.node.Every fun c => c.kind = .functionCall → ∃ f,
      env.declared.Means c (env.declared.overloadsOf f) f := by
  obtain ⟨surface, elaborates⟩ := means
  refine elaborates.every_call fun name args callee correct read => ?_
  obtain ⟨owner, functions, last, f, lists, selected, -, rfl⟩ := resolveCall_eq_ok read
  obtain ⟨rfl, known⟩ := coherent.lists outer lists
  have member := Overload.mem_of_select selected
  obtain rfl := known.owner last f member
  obtain rfl := known.name last f member
  have types : (args.map Typed.node).map Node.type = (args.map Typed.type).map some := by
    rw [List.map_map, List.map_map]
    exact List.map_congr_left fun e member => (correct e member).type
  have inside : f.owner.moduleId.index < env.modules.size := by
    rw [← env.size_declared]
    exact ModuleTree.inside_of_function member
  exact ⟨f, ModuleTree.means_of_select rfl rfl (coherent.offers.qualifyFunction inside).symm types
    selected rfl⟩

end Environment

theorem AnalysisState.Coherent.answers {start p : AnalysisState} {t : ModuleTree} (leads : start.Leads p)
    (coherent : p.Coherent) (offers : p.environment.declared.Offers t) :
    p.Answers (t.Initial start) := by
  intro typeToken name mods v introduces defines outside
  have inner : (variableNode typeToken name mods v.type v.value).Every fun c =>
      (c.kind = .varDefAndSetValue → c = variableNode typeToken name mods v.type v.value) ∧
        (c.kind = .functionCall → ∃ f, t.Means c
          ((t.overloadsOf f).take (p.environment.declared.overloadsOf f).length) f) := by
    refine every_variableNode ⟨fun _ => rfl, fun call => ?_⟩ (fun m plain => ⟨fun kind => ?_, fun kind => ?_⟩) ?_
    · have kind : (variableNode typeToken name mods v.type v.value).kind ≠ .functionCall := by
        unfold variableNode
        cases v.value <;> exact nofun
      exact absurd call kind
    · have asked := congrArg NodeKind.initial kind
      rw [plain] at asked
      cases asked
    · have asked := congrArg NodeKind.initial kind
      rw [plain] at asked
      cases asked
    · intro n value
      obtain ⟨e, means, rfl, -⟩ := introduces.initializes n value
      intro c member
      refine ⟨fun kind => ?_, fun call => ?_⟩
      · have expression : c.kind.inExpression = true := means.correct.inside c member
        rw [kind] at expression
        cases expression
      · obtain ⟨f, means⟩ := coherent.environment.calls coherent.outer means c member call
        exact means.offers offers
  exact fun c member _ => ⟨p, _, leads, defines, rfl, member, (inner c member).1,
    inner.mono fun _ both => both.2⟩

namespace Analysis

/-- In an accepted program every call can be resolved again from its node: the types of the
arguments leave one choice between the overloads of the callee's name, it takes as many arguments as
the call has, each of a type that its parameter may have assigned, and returns the type of the node.
In a body the choice is between all overloads that there are, in the initial value of a global or a
field between those that are declared before the global or field is. -/
theorem calls_reselected (host : Host) (maxErrors : Nat) (tokens : List Token)
    (ok : (ofTokens host maxErrors tokens).isOk = true) :
    Throughout ((ofTokens host maxErrors tokens).modules.Calls
      (declarationsStart host maxErrors tokens)) {} (ofTokens host maxErrors tokens).root := by
  obtain ⟨first, _⟩ := isOk_iff.mp ok
  have coherent := coherent_start host maxErrors tokens
  have inStep := (inStep_start first).reaches (runPass_reaches rfl _ _ _)
  rw [ofTokens_eq first]
  obtain ⟨_, throughout, _⟩ := sound_secondPass (fun p leads toward => by
    have here := (coherent.leads leads).1
    exact here.answers leads ((here.leads toward).2.trans inStep.built.agrees.offers)) first
  refine throughout.mono fun s n sound => ⟨fun call body => ?_, fun kind outside => ?_⟩
  · obtain ⟨f, _, means, -, all⟩ := sound.finds.chosen call
    rw [all body] at means
    exact ⟨f, means⟩
  · refine sound.initial ?_ outside
    rcases kind with kind | kind <;> rw [kind] <;> rfl

-- The program `module m { fn f :: int (long a) { ret 1; } ? x = f(1); fn f :: bool (int a) { ret
-- true; } fn g :: bool () { ret f(1); } }`.
def overloadsProgram : List Token :=
  [Token.alone (.keyword .module) "module", .alone .identifier "m", .alone .leftBrace "\x7b",
    .alone (.keyword .fn) "fn", .alone .identifier "f", .alone .doubleColon "::",
    .alone (.datatype .int) "int", .alone .leftParen "(", .alone (.datatype .long) "long",
    .alone .identifier "a", .alone .rightParen ")", .alone .leftBrace "\x7b",
    .alone (.keyword .ret) "ret", .alone (.literal .int) "1", .alone .semicolon ";",
    .alone .rightBrace "\x7d",
    .alone .question "?", .alone .identifier "x", .alone .assign "=", .alone .identifier "f",
    .alone .leftParen "(", .alone (.literal .int) "1", .alone .rightParen ")", .alone .semicolon ";",
    .alone (.keyword .fn) "fn", .alone .identifier "f", .alone .doubleColon "::",
    .alone (.datatype .bool) "bool", .alone .leftParen "(", .alone (.datatype .int) "int",
    .alone .identifier "a", .alone .rightParen ")", .alone .leftBrace "\x7b",
    .alone (.keyword .ret) "ret", .alone (.literal .yes) "true", .alone .semicolon ";",
    .alone .rightBrace "\x7d",
    .alone (.keyword .fn) "fn", .alone .identifier "g", .alone .doubleColon "::",
    .alone (.datatype .bool) "bool", .alone .leftParen "(", .alone .rightParen ")",
    .alone .leftBrace "\x7b", .alone (.keyword .ret) "ret", .alone .identifier "f",
    .alone .leftParen "(", .alone (.literal .int) "1", .alone .rightParen ")", .alone .semicolon ";",
    .alone .rightBrace "\x7d", .alone .rightBrace "\x7d"]

theorem overloadsProgram_reselected :
    (ofTokens {} 100 overloadsProgram).isOk = true ∧
      ((ofTokens {} 100 overloadsProgram).root.findAll .functionCall).map Node.type =
        [some .int, some .bool] ∧
      Throughout ((ofTokens {} 100 overloadsProgram).modules.Calls
        (declarationsStart {} 100 overloadsProgram)) {} (ofTokens {} 100 overloadsProgram).root := by
  have accepted : (ofTokens {} 100 overloadsProgram).isOk = true := by decide +kernel
  exact ⟨accepted, by decide +kernel, calls_reselected {} 100 _ accepted⟩

/-- The first call of `m.f` with an `int`, in the initial value of a global, has the type `int`. Of
all overloads of `f` in the end another one is the only choice, and it returns `bool`. -/
theorem overloadsProgram_initialValue :
    let a := ofTokens {} 100 overloadsProgram
    let overloads := (a.modules.functionsOf (.module ⟨1⟩)).overloads "f"
    a.isOk = true ∧
      (((a.root.findAll .functionCall).head?.map fun call =>
          (call.type, call.children.map fun part => (part.token.map Token.lexeme,
            part.children.map Node.type))) =
        some (some .int, [(some "m.f", []), (none, [some .int])])) ∧
      overloads.map a.modules.qualifyFunction = ["m.f", "m.f"] ∧
      (Overload.select overloads [.int]).toOption.map FunctionDefinition.returnType = some .bool := by
  decide +kernel

end Analysis

end MiLanguage
