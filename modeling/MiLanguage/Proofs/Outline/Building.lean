import MiLanguage.Node.Basic
import MiLanguage.Proofs.Outline.Declarations
import MiLanguage.Proofs.Outline.Entries
import MiLanguage.Proofs.Outline.Keeping

set_option autoImplicit false

namespace MiLanguage

namespace Outline

-- The kind of the node of a variable's definition. `tail` follows the word that stands for the
-- type.
def variableKind (tail : List Token) : NodeKind :=
  if tail.tail.head?.any (·.is .assign) then .varDefAndSetValue else .varDefinition

-- The kind of the node that stands for a statement, by the token that it leads with. Where that is
-- a name, the next token shows what it is. `inEnum` tells whether the body of an enum is around.
def leadKind (inEnum : Bool) (head : Token) (tail : List Token) : NodeKind :=
  match head.kind with
  | .keyword .module => .createModule
  | .keyword .«class» => .createClass
  | .keyword .enum => .createEnum
  | .keyword .new => .createConstructor
  | .keyword .fn =>
      if (tail.getLast?.getD head).is .leftBrace then .functionDefinition
      else .nativeFunctionDefinition
  | .keyword .«if» => .ifStatement
  | .keyword .«while» => .whileStatement
  | .keyword .«do» => .doStatement
  | .keyword .«for» => .forFakeScope
  | .keyword .ret => .returnValue
  | .keyword .«break» => .breakStatement
  | .keyword .«continue» => .continueStatement
  | .keyword .use => .useStatement
  | .keyword .libraryEnd => .stdlibFinish
  | .identifier =>
      if inEnum then .enumValues
      else match tail.head?.map Token.kind with
        | some .identifier => variableKind tail
        | some .leftParen => .functionCall
        | _ => .varSetValue
  | _ => variableKind tail

def nodeKind (inEnum : Bool) (tokens : List Token) : Option NodeKind :=
  match lead tokens with
  | [] => none
  | head :: tail => some (leadKind inEnum head tail)

theorem nodeKind_of_read {first head : Token} {tail rest : List Token} {mods : LeadingModifiers}
    (inEnum : Bool) (read : LeadingModifiers.read (first :: tail) = .ok (mods, head :: rest)) :
    nodeKind inEnum (first :: tail) = some (leadKind inEnum head rest) := by
  rw [nodeKind, lead_of_read read]

theorem leadKind_variable {head : Token} {tail : List Token} (starts : startsVariable head = true)
    (second : head.kind = .identifier → tail.head?.map Token.kind = some .identifier) :
    leadKind false head tail = variableKind tail := by
  simp only [startsVariable, Bool.or_eq_true, decide_eq_true_eq] at starts
  rcases starts with (kind | kind) | kind
  · simp [leadKind, kind]
  · simp [leadKind, kind, second kind]
  · unfold leadKind
    split <;> simp_all [TokenKind.isDatatype]

-- The nodes that stand in front of those of a block's statements.
def headerKinds : NodeKind → List NodeKind
  | .createModule => [.identifier]
  | .createClass | .createEnum => [.identifier, .modifiers]
  | .functionDefinition => [.identifier, .type, .modifiers, .parameters]
  | .createConstructor => [.modifiers, .parameters]
  | .ifStatement | .whileStatement => [.condition]
  | _ => []

-- The kinds of the nodes that declare something by name.
def declaringKinds : List NodeKind :=
  [.createModule, .createClass, .createEnum, .functionDefinition, .nativeFunctionDefinition,
    .varDefinition, .varDefAndSetValue]

/-- A node that declares something shows its name, the token behind the word that the text leads
with. -/
def Named (tokens : List Token) (n : Node) : Prop :=
  n.kind ∈ declaringKinds → ∃ name, (lead tokens).tail.head? = some name ∧
    .leaf .identifier name ∈ n.children

theorem named_of_other {tokens : List Token} {n : Node}
    (other : declaringKinds.contains n.kind = false) : Named tokens n := by
  intro declares
  rw [List.contains_iff_mem.mpr declares] at other
  cases other

theorem named_of_read {first head name : Token} {tail rest : List Token} {mods : LeadingModifiers}
    {n : Node} (read : LeadingModifiers.read (first :: tail) = .ok (mods, head :: rest))
    (second : rest.head? = some name) (shows : .leaf .identifier name ∈ n.children) :
    Named (first :: tail) n := by
  intro _
  refine ⟨name, ?_, shows⟩
  rw [lead_of_read read]
  exact second

theorem Named.withChildren {tokens : List Token} {n : Node} (named : Named tokens n)
    (ns : List Node) : Named tokens (n.withChildren ns) := by
  intro declares
  obtain ⟨name, second, shows⟩ := named declares
  exact ⟨name, second, List.mem_append_left ns shows⟩

/-- The nodes are those of the statements and blocks of a text, one for each, in the same order and
nested in the same way, and what they declare has its name from the text. The condition behind a
`do` block is the last node in that block. -/
inductive Shown : Bool → Outline → List Node → Prop
  | nil {inEnum : Bool} : Shown inEnum nil []
  | statement {inEnum : Bool} {tokens : List Token} {n : Node} {rest : Outline} {ns : List Node} :
      nodeKind inEnum tokens = some n.kind → Named tokens n → Shown inEnum rest ns →
      Shown inEnum (statement tokens rest) (n :: ns)
  | block {inEnum : Bool} {header : List Token} {inner : Outline} {brace : Token} {n : Node}
      {front body : List Node} {rest : Outline} {ns : List Node} :
      nodeKind inEnum header = some n.kind → n.kind ≠ .forFakeScope → n.kind ≠ .doStatement →
      Named header n → n.children = front ++ body → front.map Node.kind = headerKinds n.kind →
      Shown (n.kind = .createEnum) inner body → Shown inEnum rest ns →
      Shown inEnum (block header inner brace rest) (n :: ns)
  | forLoop {inEnum : Bool} {header : List Token} {inner : Outline} {brace : Token}
      {n start condition step loop : Node} {rest : Outline} {ns : List Node} :
      nodeKind inEnum header = some n.kind → n.kind = .forFakeScope →
      n.children = [start, condition, step, loop] → start.kind = .varDefAndSetValue →
      condition.kind = .condition → step.kind = .forInstruct → loop.kind = .forStatement →
      Shown false inner loop.children → Shown inEnum rest ns →
      Shown inEnum (block header inner brace rest) (n :: ns)
  | doLoop {inEnum : Bool} {header trailer : List Token} {inner : Outline} {brace : Token}
      {n condition : Node} {body : List Node} {rest : Outline} {ns : List Node} :
      nodeKind inEnum header = some n.kind → n.kind = .doStatement →
      trailer.head?.any (·.is (.keyword .«while»)) = true →
      trailer.getLast?.any (·.is .semicolon) = true →
      n.children = body ++ [condition] → condition.kind = .condition →
      Shown false inner body → Shown inEnum rest ns →
      Shown inEnum (block header inner brace (statement trailer rest)) (n :: ns)

/-- As `Shown`, where a `do` block may wait for its condition at first: it is the first of the nodes
then, and the statement in front is its condition's. -/
inductive ShownAfter (inEnum : Bool) : Option Node → Outline → List Node → Prop
  | idle {o : Outline} {ns : List Node} : Shown inEnum o ns → ShownAfter inEnum none o ns
  | waiting {block condition : Node} {trailer : List Token} {rest : Outline} {ns : List Node} :
      trailer.head?.any (·.is (.keyword .«while»)) = true →
      trailer.getLast?.any (·.is .semicolon) = true → condition.kind = .condition →
      Shown inEnum rest ns →
      ShownAfter inEnum (some block) (statement trailer rest) (block.push condition :: ns)

end Outline

def Frame.isEnum : Frame → Bool
  | enum _ _ => true
  | _ => false

theorem Frame.Kept.isEnum {old new : Frame} (kept : old.Kept new) : new.isEnum = old.isEnum := by
  cases kept <;> rfl

theorem ModuleTree.Keeps.mem {old new : ModuleTree} (keeps : old.Keeps new) {path : List String}
    {entry : Entry} (member : entry ∈ old.entriesAt path) : entry ∈ new.entriesAt path := by
  rw [← List.count_pos_iff] at member ⊢
  rw [keeps.entries]
  exact member

namespace Environment

variable {env new : Environment} {setting : Setting} {first head : Token} {tail rest : List Token}
  {mods : LeadingModifiers} {accepted : Accepted} {o after inner : Outline} {brace : Token}

/-- Where the second pass stands: in a body, in an enum, or in a class or a module that has what the
text ahead declares in it. -/
inductive Ready (env : Environment) (o : Outline) : Prop
  | block : env.frame.isBlock = true → Ready env o
  | enum {id : ModuleId} {e : EnumDeclaration} :
      env.frame = .enum id e → env.scopes.depth ≠ 1 → Ready env o
  | «class» {id : ModuleId} {c : ClassDeclaration} {owner : String} :
      env.frame = .class id c → env.scopes.depth ≠ 1 → o.Complete →
      (∀ name valued, .variable (some owner) name valued ∈ o.classEntries owner →
        ∃ v, c.fields.find? name = some v ∧ v.value.isSome = valued) → Ready env o
  | module {path : List String} :
      env.InModule path → o.Complete →
      (∀ sought entry, (sought, entry) ∈ o.declared path → entry ∈ env.modules.entriesAt sought) →
      Ready env o

theorem InModule.of_kept {path : List String} (inModule : env.InModule path) (kept : env.Kept new) :
    new.InModule path where
  isModule := by rw [kept.frame.isModule]; exact inModule.isModule
  arena := kept.modules.arena inModule.arena
  place := by rw [kept.modules.found, kept.currentModule]; exact inModule.place

theorem Ready.of_kept (ready : env.Ready o) (kept : env.Kept new)
    (complete : o.Complete → after.Complete)
    (fields : ∀ owner, after.classEntries owner ⊆ o.classEntries owner)
    (declared : ∀ path, after.declared path ⊆ o.declared path) : new.Ready after := by
  have top := kept.frame
  cases ready with
  | block block => exact .block (by rw [top.isBlock]; exact block)
  | enum frame deep =>
      rw [frame] at top
      generalize same : new.frame = f at top
      cases top with
      | refl => exact .enum same (by rw [kept.depth]; exact deep)
  | @«class» id c owner frame deep whole known =>
      have deep : new.scopes.depth ≠ 1 := by rw [kept.depth]; exact deep
      rw [frame] at top
      generalize same : new.frame = f at top
      cases top with
      | refl =>
          exact .class same deep (complete whole) fun name valued member =>
            known name valued (fields owner member)
      | fields marked =>
          refine .class same deep (complete whole) fun name valued (member :
            .variable (some owner) name valued ∈ after.classEntries owner) => ?_
          obtain ⟨v, found, value⟩ := known name valued (fields owner member)
          rcases marked name with same | ⟨w, old, marks⟩
          · exact ⟨v, same.trans found, value⟩
          · rw [old] at found
            cases found
            exact ⟨_, marks, value⟩
  | module inModule whole known =>
      exact .module (inModule.of_kept kept) (complete whole) fun sought entry member =>
        kept.modules.mem (known sought entry (declared _ member))

theorem Ready.statement {tokens : List Token} (ready : env.Ready (.statement tokens after))
    (kept : env.Kept new) : new.Ready after := by
  refine ready.of_kept kept (fun complete => complete.2) (fun owner => ?_) (fun path => ?_)
  · exact List.subset_append_right _ _
  · exact List.subset_append_right _ _

theorem Ready.behind {header : List Token} (ready : env.Ready (.block header inner brace after))
    (kept : env.Kept new) : new.Ready after := by
  refine ready.of_kept kept (fun complete => complete.2) (fun owner => ?_) (fun path => ?_)
  · exact List.subset_append_right _ _
  · exact List.subset_append_right _ _

theorem placement_of_isModule (isModule : env.frame.isModule = true) :
    env.placement head ≠ .ok .field := by
  intro placed
  unfold Environment.placement at placed
  cases frame : env.frame <;> simp_all [Frame.isModule, Checked.bind_eq_ok]

theorem knownVariable_of_ready {placement : Placement}
    (ready : env.Ready (.statement (first :: tail) after))
    (modifiers : LeadingModifiers.read (first :: tail) = .ok (mods, head :: rest))
    (starts : startsVariable head = true) (placed : env.placement head = .ok placement)
    (outside : placement ≠ .inBlock) :
    ∃ (v : Variable) (name : Token), env.knownVariable placement mods head rest.dropLast =
        some (variableNode head name mods v.type v.value) ∧ rest.head? = some name ∧
      v.value.isSome = rest.tail.head?.any (·.is .assign) := by
  have shape : (Outline.statement (first :: tail) after).Complete →
      ∃ name t later, rest = name :: t :: later := by
    intro complete
    have length := complete.1 _ _ (Outline.lead_of_read modifiers) starts
    match rest with
    | [] => simp at length
    | [_] => simp at length
    | name :: t :: later => exact ⟨name, t, later, rfl⟩
  cases ready with
  | block block =>
      unfold Environment.placement at placed
      cases frame : env.frame <;> simp_all [Frame.isBlock, Frame.block?]
  | enum frame =>
      simp [Environment.placement, frame] at placed
  | @«class» id c owner frame deep complete known =>
      obtain ⟨name, t, later, rfl⟩ := shape complete
      have field : placement = .field := by simpa [Environment.placement, frame, eq_comm] using placed
      obtain ⟨v, found, value⟩ := known name.lexeme (t.is .assign) (by
        simp [Outline.classEntries, entries_of_starts (some owner) modifiers starts])
      refine ⟨v, name, ?_, rfl, value⟩
      simp [knownVariable, field, findMember?, class?_of_frame frame, found]
  | @module path inModule complete known =>
      obtain ⟨name, t, later, rfl⟩ := shape complete
      have here := known path (.variable none name.lexeme (t.is .assign)) (by
        simp [Outline.declared, entries_of_starts none modifiers starts])
      unfold ModuleTree.entriesAt at here
      rw [inModule.place] at here
      obtain ⟨v, found, value⟩ := Members.mem_variable here
      have global : placement ≠ .field := by
        rintro rfl
        exact placement_of_isModule inModule.isModule placed
      refine ⟨v, name, ?_, rfl, value⟩
      cases placement <;> first | contradiction | simp [knownVariable, findMember?, found]

theorem kind_variableNode (typeToken name : Token) (mods : LeadingModifiers) (type : Datatype)
    (value : Option Node) : (variableNode typeToken name mods type value).kind =
      if value.isSome then .varDefAndSetValue else .varDefinition := by
  cases value <;> rfl

theorem named_variableNode (typeToken name : Token) (mods : LeadingModifiers) (type : Datatype)
    (value : Option Node) :
    .leaf .identifier name ∈ (variableNode typeToken name mods type value).children := by
  cases value <;> simp [variableNode, Node.new]

theorem callStatement_eq_ok (read : env.callStatement mods head rest = .ok accepted) :
    ∃ n, accepted = ⟨env, some n⟩ ∧ n.kind = .functionCall := by
  simp only [callStatement, Checked.bind_eq_ok, Checked.require_eq_ok, decide_eq_true_eq] at read
  obtain ⟨_, _, _, _, _, _, e, _, _, call, same⟩ := read
  cases same
  exact ⟨_, rfl, call⟩

theorem assignment_eq_ok {op : Token} (read : env.assignment mods head op rest = .ok accepted) :
    ∃ n, accepted.node = some n ∧ n.kind = .varSetValue ∧ env.Kept accepted.environment := by
  simp only [assignment, Checked.bind_eq_ok] at read
  obtain ⟨_, _, _, _, _, _, ⟨assigned, n⟩, found, same⟩ := read
  cases same
  have assigns := assign_assigns found
  refine ⟨n, rfl, ?_, assigns.updated.kept⟩
  cases assigns
  rfl

-- A statement that starts with a name or a type leaves a node of the kind that this shows.
theorem shown_of_starts (pass : setting.declaring = false)
    (ready : env.Ready (.statement (first :: tail) after))
    (modifiers : LeadingModifiers.read (first :: tail) = .ok (mods, head :: rest))
    (starts : startsVariable head = true)
    (read : env.read setting mods head rest = .ok accepted) :
    ∃ n, accepted.node = some n ∧ Outline.leadKind false head rest = n.kind ∧
      Outline.Named (first :: tail) n ∧ env.Kept accepted.environment := by
  cases read_starts starts read with
  | defines second read =>
      rw [Outline.leadKind_variable starts second]
      obtain ⟨placement, placed, ⟨reads, v, name, declared, names, _, added, rfl⟩ | ⟨_, outside, _, rfl⟩⟩ :=
        variableStatement_eq_ok read
      · obtain rfl : placement = .inBlock := by simpa [pass] using reads
        refine ⟨_, rfl, ?_, Outline.named_of_read modifiers names.1 (named_variableNode ..),
          (updated_declareLocal added).kept⟩
        rw [kind_variableNode, names.2.2.2]
        rfl
      · obtain ⟨v, name, known, second, valued⟩ :=
          knownVariable_of_ready ready modifiers starts placed outside
        refine ⟨_, known, ?_, Outline.named_of_read modifiers second (named_variableNode ..),
          env.kept_refl⟩
        rw [kind_variableNode, valued]
        rfl
  | calls kind second read =>
      obtain ⟨n, rfl, call⟩ := callStatement_eq_ok read
      exact ⟨n, rfl, by simp [Outline.leadKind, kind, second, call],
        Outline.named_of_other (by rw [call]; rfl), env.kept_refl⟩
  | @assigns op later kind second assignment reads =>
      subst second
      obtain ⟨n, same, set, kept⟩ := assignment_eq_ok reads
      refine ⟨n, same, ?_, Outline.named_of_other (by rw [set]; rfl), kept⟩
      unfold Outline.leadKind
      simp only [kind, set]
      cases same : op.kind <;> simp_all [TokenKind.isAssignment]

theorem frame_of_isEnum (inEnum : env.frame.isEnum = true) : ∃ id e, env.frame = .enum id e := by
  cases frame : env.frame with
  | enum id e => exact ⟨id, e, rfl⟩
  | _ => simp [frame, Frame.isEnum] at inEnum

theorem shown_of_statement (pass : setting.declaring = false)
    (ready : env.Ready (.statement (first :: tail) after))
    (read : env.statement setting first tail = ⟨accepted.environment, .ok accepted.node⟩)
    (semicolon : Ends first tail .semicolon) :
    ∃ n, accepted.node = some n ∧
      Outline.nodeKind env.frame.isEnum (first :: tail) = some n.kind ∧
      Outline.Named (first :: tail) n ∧ env.Kept accepted.environment := by
  obtain ⟨mods, head, rest, modifiers, accepts⟩ := statement_accepts read
  have noBrace : ¬Ends head rest .leftBrace := not_ends_of_read semicolon modifiers (by simp)
  rw [Outline.nodeKind_of_read _ modifiers]
  by_cases plain : startsVariable head = true ∧ env.frame.isEnum = false
  · have dispatched := statement_read read modifiers (.inr (by
      intro id e frame
      simp [frame, Frame.isEnum] at plain))
    obtain ⟨n, same, kind, named, kept⟩ := shown_of_starts pass ready modifiers plain.1 dispatched
    exact ⟨n, same, by rw [plain.2, kind], named, kept⟩
  · have misplaced : startsVariable head = true → ∀ place placement,
        env.placement place ≠ .ok placement := by
      intro starts place placement placed
      obtain ⟨id, e, frame⟩ := frame_of_isEnum (by simpa [starts] using plain)
      simp [Environment.placement, frame] at placed
    have unblocked : head.kind = .identifier → ¬env.frame.isBlock = true := by
      intro kind block
      obtain ⟨id, e, frame⟩ := frame_of_isEnum (by simpa [startsVariable, kind] using plain)
      simp [frame, Frame.isBlock, Frame.block?] at block
    generalize same : (⟨accepted.environment, accepted.node⟩ : Accepted) = found at accepts
    have environment : accepted.environment = found.environment := congrArg Accepted.environment same
    have node : accepted.node = found.node := congrArg Accepted.node same
    rw [environment, node]
    have one : ∀ {n : Node} {later : Environment},
        Outline.leadKind env.frame.isEnum head rest = n.kind → Outline.Named (first :: tail) n →
        env.Kept later →
        ∃ m, some n = some m ∧ some (Outline.leadKind env.frame.isEnum head rest) = some m.kind ∧
          Outline.Named (first :: tail) m ∧ env.Kept later :=
      fun kind named kept => ⟨_, rfl, by rw [kind], named, kept⟩
    cases accepts with
    | membersKept kind _ frame =>
        refine one ?_ (Outline.named_of_other rfl) env.kept_refl
        simp only [Outline.leadKind, kind, frame, Frame.isEnum, if_true]
        rfl
    | nativeKept kind ends _ _ header =>
        refine one ?_ (Outline.named_of_read modifiers (Header.read_eq_ok header).1
          (by simp [Node.new, Header.parts])) env.kept_refl
        have last : (rest.getLast?.getD head).is .leftBrace = false := by
          rw [Token.is, decide_eq_false_iff_not]
          exact noBrace
        simp only [Outline.leadKind, kind, last, Bool.false_eq_true, if_false]
        rfl
    | returned kind =>
        refine one ?_ (Outline.named_of_other rfl) (env.kept_modifyBlock _)
        simp only [Outline.leadKind, kind]
        rfl
    | exited exits =>
        rcases exitKind_eq_some exits with ⟨kind, rfl⟩ | ⟨kind, rfl⟩
        all_goals
          refine one ?_ (Outline.named_of_other rfl) (env.kept_modifyBlock _)
          simp only [Outline.leadKind, kind]
          rfl
    | used kind =>
        refine one ?_ (Outline.named_of_other rfl) (env.updated_use _).kept
        simp only [Outline.leadKind, kind]
        rfl
    | libraryEnded kind =>
        refine one ?_ (Outline.named_of_other rfl)
          ⟨env.kept_refl.scopes, env.modules.keeps_refl⟩
        simp only [Outline.leadKind, kind]
        rfl
    | variableDefined starts _ placed => exact absurd placed (misplaced starts _ _)
    | variableKept starts _ placed => exact absurd placed (misplaced starts _ _)
    | called kind _ block => exact absurd block (unblocked kind)
    | assigned kind _ block => exact absurd block (unblocked kind)
    | _ => first | exact absurd ‹_› noBrace | exact absurd ‹Titled _ _›.ends noBrace | simp_all

end Environment

end MiLanguage
