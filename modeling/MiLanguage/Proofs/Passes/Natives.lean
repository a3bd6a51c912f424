import MiLanguage.Proofs.Host.Binding
import MiLanguage.Proofs.Outline.Run
import MiLanguage.Proofs.Passes.Abreast
import MiLanguage.Proofs.Passes.Agreement

set_option autoImplicit false

namespace MiLanguage

section Types

variable {env other : Environment} {tokens rest rest' : List Token}

-- A primitive type is spelled by a word of the language, wherever it stands.
theorem resolveDatatype_primitive {place : Token} {nullable : Bool} {type type' : Datatype}
    (read : env.resolveDatatype place nullable = .ok type)
    (read' : other.resolveDatatype place nullable = .ok type')
    (primitive : ∃ p, type'.primitive? = some p) : type = type' := by
  obtain ⟨p, primitive⟩ := primitive
  have spelled : other.Spells place type' := ⟨nullable, read'⟩
  obtain ⟨base, marked, rfl, spells⟩ := spelled.cases
  cases base with
  | named => cases primitive
  | primitive q =>
      simp only [Environment.resolveDatatype, spells q rfl] at read read'
      cases read
      cases read'
      rfl

namespace Parameter

theorem read_primitive {others others' : List ReadParameter} {place : Token} {part : List Token}
    {p p' : ReadParameter} (found : read env others place part = .ok p)
    (found' : read other others' place part = .ok p')
    (primitive : ∃ q, p'.parameter.type.primitive? = some q) :
    p.parameter.type = p'.parameter.type := by
  cases part with
  | nil => simp [read] at found
  | cons first tail =>
      simp only [read, Checked.bind_eq_ok] at found found'
      obtain ⟨_, _, ⟨mods, rest⟩, modifiers, found⟩ := found
      obtain ⟨_, _, ⟨mods', rest'⟩, modifiers', found'⟩ := found'
      rw [modifiers] at modifiers'
      cases modifiers'
      cases rest with
      | nil => simp at found
      | cons typeToken later =>
          simp only [Checked.bind_eq_ok] at found found'
          obtain ⟨⟨_, _⟩, same, _, _, type, resolved, _, _, found⟩ := found
          obtain ⟨⟨_, _⟩, same', _, _, type', resolved', _, _, found'⟩ := found'
          cases same
          cases same'
          have types : p.parameter.type = type ∧ p'.parameter.type = type' := by
            constructor
            · split at found
              next => simp at found
              next =>
                simp only [Checked.bind_eq_ok] at found
                obtain ⟨_, _, same⟩ := found
                cases same
                rfl
            · split at found'
              next => simp at found'
              next =>
                simp only [Checked.bind_eq_ok] at found'
                obtain ⟨_, _, same⟩ := found'
                cases same
                rfl
          rw [types.2] at primitive
          rw [types.1, types.2]
          exact resolveDatatype_primitive resolved resolved' primitive

theorem readAll_keeps {place : Token} {before all : List ReadParameter}
    {parts : List (List Token)} (found : readAll env place before parts = .ok all) :
    before <+: all := by
  induction parts generalizing before with
  | nil =>
      cases found
      exact List.prefix_rfl
  | cons part parts ih =>
      simp only [readAll, Checked.bind_eq_ok] at found
      obtain ⟨p, _, found⟩ := found
      exact (List.prefix_append _ _).trans (ih found)

theorem readAll_primitive {place : Token} {before before' all all' : List ReadParameter}
    {parts : List (List Token)} (found : readAll env place before parts = .ok all)
    (found' : readAll other place before' parts = .ok all')
    (primitive : ∀ p ∈ all', ∃ q, p.parameter.type.primitive? = some q)
    (same : before.map (·.parameter.type) = before'.map (·.parameter.type)) :
    all.map (·.parameter.type) = all'.map (·.parameter.type) := by
  induction parts generalizing before before' with
  | nil =>
      cases found
      cases found'
      exact same
  | cons part parts ih =>
      simp only [readAll, Checked.bind_eq_ok] at found found'
      obtain ⟨p, here, found⟩ := found
      obtain ⟨p', here', found'⟩ := found'
      have inside : p' ∈ all' := (readAll_keeps found').subset (by simp)
      refine ih found found' ?_
      simp [same, read_primitive here here' (primitive p' inside)]

theorem readList_primitive {parameters parameters' : List ReadParameter}
    (found : readList env tokens = .ok (parameters, rest))
    (found' : readList other tokens = .ok (parameters', rest'))
    (primitive : ∀ p ∈ parameters', ∃ q, p.parameter.type.primitive? = some q) :
    parameters.map (·.parameter.type) = parameters'.map (·.parameter.type) := by
  unfold readList at found found'
  split at found
  next => cases found; cases found'; rfl
  next opening later =>
    dsimp only at found'
    split at found
    next opens =>
      rw [if_pos opens] at found'
      split at found
      next => simp at found
      next closing =>
        simp only [closing] at found'
        cases found
        cases found'
        rfl
      next closing =>
        simp only [closing, Checked.bind_eq_ok] at found found'
        obtain ⟨all, readAll, same⟩ := found
        obtain ⟨all', readAll', same'⟩ := found'
        cases same
        cases same'
        exact readAll_primitive readAll readAll' primitive rfl
    next opens =>
      rw [if_neg opens] at found'
      cases found
      cases found'
      rfl

end Parameter

namespace Header

-- What is left of a header behind the return type.
def behindReturn : List Token → List Token
  | [] => []
  | t :: rest =>
      match t.kind with
      | .tilde => rest
      | .doubleColon => rest.tail
      | _ => t :: rest

theorem readReturn_rest {mods : LeadingModifiers} {last : Token} {type : Datatype}
    {token : Option Token} (found : readReturn env mods tokens last = .ok (type, token, rest)) :
    rest = behindReturn tokens := by
  unfold readReturn at found
  split at found
  next => simp at found
  next t later =>
    unfold behindReturn
    split at found
    next kind => cases found; simp [kind]
    next kind =>
      split at found
      next => simp at found
      next name after =>
        split at found
        all_goals
          simp only [Checked.bind_eq_ok] at found
          obtain ⟨_, _, same⟩ := found
          cases same
          simp [kind]
    next kind => cases found; simp [kind]
    next kind => cases found; simp [kind]
    next kind => cases found; simp [kind]
    next => simp at found

-- A header whose parameters are primitive here declares the same parameters everywhere.
theorem read_primitive {mods : LeadingModifiers} {keyword : Token} {h h' : Header}
    (found : Header.read env mods keyword tokens = .ok h)
    (found' : Header.read other mods keyword tokens = .ok h')
    (primitive : ∀ t ∈ h'.paramTypes, ∃ q, t.primitive? = some q) :
    h.paramTypes = h'.paramTypes := by
  simp only [Header.read, Checked.bind_eq_ok] at found found'
  obtain ⟨_, _, ⟨_, _, later⟩, returned, ⟨parameters, _⟩, list, _, _, _, _, _, _, same⟩ := found
  obtain ⟨_, _, ⟨_, _, later'⟩, returned', ⟨parameters', _⟩, list', _, _, _, _, _, _, same'⟩ :=
    found'
  cases same
  cases same'
  cases readReturn_rest returned
  cases readReturn_rest returned'
  have types := Parameter.readList_primitive list list' (fun p member =>
    primitive p.parameter.type (by
      simp only [paramTypes, params, List.map_map]
      exact List.mem_map.mpr ⟨p, member, rfl⟩))
  simpa [paramTypes, params, Function.comp_def] using types

theorem readTail_native {last : Token} {hostClass : Token}
    (found : readTail tokens last = .ok (some hostClass)) :
    ∃ arrow quoted stop, tokens = [arrow, quoted, stop] ∧ arrow.kind = .arrow ∧
      quoted.kind = .literal .string ∧ last.kind = .semicolon ∧
      hostClass.lexeme = trimQuotes quoted.lexeme := by
  cases tokens with
  | nil => simp [readTail] at found
  | cons t rest =>
      simp only [readTail] at found
      split at found
      next => cases found
      next arrow =>
        split at found
        next => simp at found
        next quoted rest =>
          simp only [Checked.bind_eq_ok, Checked.require_eq_ok, Bool.and_eq_true, Token.is_iff,
            decide_eq_true_eq] at found
          obtain ⟨_, literal, _, ⟨one, ends⟩, same⟩ := found
          obtain ⟨stop, rfl⟩ := List.length_eq_one_iff.mp one
          cases same
          exact ⟨t, quoted, stop, rfl, arrow, literal, ends, rfl⟩
      next => simp at found

-- The class that a native function is bound to is named at the end of its header.
theorem read_native {mods : LeadingModifiers} {keyword : Token} {h : Header}
    (found : Header.read env mods keyword tokens = .ok h) :
    mods.set.isNative = h.hostClass.isSome ∧ ∀ hostClass, h.hostClass = some hostClass →
      ∃ front arrow quoted stop, tokens = front ++ [arrow, quoted, stop] ∧ arrow.kind = .arrow ∧
        quoted.kind = .literal .string ∧ stop.kind = .semicolon ∧
        hostClass.lexeme = trimQuotes quoted.lexeme := by
  simp only [Header.read, Checked.bind_eq_ok, Checked.require_eq_ok] at found
  obtain ⟨_, _, ⟨_, _, later⟩, returned, ⟨parameters, remaining⟩, list, hostClass, tail, _, bodied,
    _, bound, same⟩ := found
  cases same
  refine ⟨by cases native : mods.set.isNative <;> cases hostClass <;> simp_all, ?_⟩
  rintro hostClass rfl
  obtain ⟨arrow, quoted, stop, rfl, isArrow, literal, ends, lexeme⟩ := readTail_native tail
  obtain ⟨front, split⟩ := (Parameter.readList_shown list).2.trans
    ((readReturn_suffix returned).trans (List.tail_suffix tokens))
  refine ⟨front, arrow, quoted, stop, split.symm, isArrow, literal, ?_, lexeme⟩
  simpa [← split] using ends

end Header

end Types

namespace Environment

variable {env : Environment} {setting : Setting} {mods : LeadingModifiers} {head : Token}
  {tail : List Token} {accepted : Accepted}

/-- What a function declares in the first pass: a native one what it is bound to. -/
inductive DeclaresFunction (env : Environment) (host : Host) (mods : LeadingModifiers)
    (tail : List Token) : FunctionDefinition → Prop
  | native {h : Header} {front : List Token} {arrow quoted stop : Token}
      {binding : NativeBinding} :
      mods.set.isNative = true → tail = front ++ [arrow, quoted, stop] → arrow.kind = .arrow →
      quoted.kind = .literal .string → stop.kind = .semicolon →
      NativeRequest.bind ⟨Header.trimQuotes quoted.lexeme, h.name.lexeme, h.paramTypes, h.returnType⟩
        host = .ok binding →
      DeclaresFunction env host mods tail (env.definition mods h (.native binding))
  | bodied {h : Header} :
      mods.set.isNative = false → DeclaresFunction env host mods tail (env.definition mods h .pending)

theorem function_declares (pass : setting.declaring = true)
    (read : env.function setting mods head tail = .ok accepted) :
    (env.frame.isModule || env.frame.isClass) = true ∧
      ∃ d, env.DeclaresFunction setting.host mods tail d ∧ d.owner = env.owner ∧
        env.addFunction? d = some accepted.environment := by
  simp only [function, Checked.bind_eq_ok] at read
  obtain ⟨_, _, _, place, h, header, read⟩ := read
  refine ⟨functionPlace place, ?_⟩
  obtain ⟨isNative, named⟩ := Header.read_native header
  cases hostClass : h.hostClass with
  | some host =>
      simp only [hostClass, pass, if_true] at read
      rw [hostClass, Option.isSome_some] at isNative
      obtain ⟨front, arrow, quoted, stop, split, isArrow, literal, ends, lexeme⟩ := named host hostClass
      split at read
      next binding bound =>
        rw [lexeme] at bound
        exact ⟨_, .native isNative split isArrow literal ends bound, rfl,
          (declareFunction_eq_ok read).1⟩
      next => simp at read
  | none =>
      simp only [hostClass, pass, if_true] at read
      rw [hostClass, Option.isSome_none] at isNative
      exact ⟨_, .bodied isNative, rfl, (declareFunction_eq_ok read).1⟩

end Environment

namespace AnalysisState

-- The statement at `site` ends in the name of `hostClass`.
def NamesHost (site : List Token) (hostClass : String) : Prop :=
  ∃ head tail first rest later front arrow quoted stop, site = head :: tail ∧
    Chunk.next head tail = (.statement first rest, later) ∧
    first :: rest = front ++ [arrow, quoted, stop] ∧ arrow.kind = .arrow ∧
    quoted.kind = .literal .string ∧ stop.kind = .semicolon ∧
    hostClass = Header.trimQuotes quoted.lexeme

/-- How the statement at `site` enters a function: a native one with its binding, all others without
a body. -/
inductive Enrolled (host : Host) (site : List Token) : BodyOwner → FunctionDefinition → Prop
  | native {owner : Owner} {d : FunctionDefinition} {hostClass : String} {binding : NativeBinding} :
      d.modifiers.isNative = true → NamesHost site hostClass →
      NativeRequest.bind ⟨hostClass, d.name, d.paramTypes, d.returnType⟩ host = .ok binding →
      d.body = .native binding → Enrolled host site (.function owner d.name d.paramTypes) d
  | bodied {owner : Owner} {d : FunctionDefinition} :
      d.modifiers.isNative = false → d.body = .pending →
      Enrolled host site (.function owner d.name d.paramTypes) d
  | constructor {id : ModuleId} {className : String} {d : FunctionDefinition} :
      d.body = .pending → Enrolled host site (.constructor id className) d

variable {s t : AnalysisState} {o : BodyOwner} {d : FunctionDefinition}

theorem kind_of_native {head : Token} {tail : List Token}
    (sort : statementSort head tail = .native) : head.kind = .keyword .fn := by
  unfold statementSort at sort
  split at sort
  case h_5 kind => exact kind
  all_goals cases sort

theorem enrolled_of_step (step : CleanStep s t) (pass : s.declaring = true)
    (idle : s.pendingDo = none) (outer : s.environment.Outer)
    (found : t.environment.declared.definition? o = some d)
    (fresh : s.environment.declared.definition? o = none) :
    Enrolled s.setting.host s.remaining o d := by
  obtain ⟨turn, _⟩ := step.moves.declaringTurn pass idle outer
  have nothing : ¬s.environment.declared.Declares t.environment.declared none := by
    intro declares
    rcases declares.cases_some found with ⟨same, _⟩ | same
    · cases same
    · rw [fresh] at same
      cases same
  have enters : ∀ {o' d'}, s.environment.declared.Declares t.environment.declared (some (o', d')) →
      o' = o ∧ d' = d := by
    intro o' d' declares
    rcases declares.cases_some found with ⟨same, _⟩ | same
    · cases same
      exact ⟨rfl, rfl⟩
    · rw [fresh] at same
      cases same
  have reads : ∀ {first rest later}, s.Takes first rest later → first.kind ≠ .rightBrace →
      Enrolled s.setting.host s.remaining o d := by
    intro first rest later takes notClosing
    obtain ⟨mods, head, tail, accepted, declares⟩ := step.moves.declares pass idle outer takes notClosing
    by_cases kind : head.kind = .keyword .fn
    · have read := Environment.statement_read declares.read declares.modifiers
        (.inl (by rw [kind]; nofun))
      simp only [Environment.read, kind] at read
      obtain ⟨place, d', function, owner, added⟩ := Environment.function_declares pass read
      have entered := (outer.addFunction? place owner added).2
      rw [← declares.environment] at entered
      obtain ⟨rfl, rfl⟩ := enters entered
      cases function with
      | @native _ front _ _ _ _ isNative split arrow quoted stop bound =>
          obtain ⟨first', tail', start, next⟩ := takes
          refine .native isNative ⟨first', tail', first, rest, later, mods.tokens ++ head :: front, _,
            _, _, start, next, ?_, arrow, quoted, stop, rfl⟩ bound rfl
          rw [(LeadingModifiers.read_append declares.modifiers).1, split]
          simp
      | bodied notNative => exact .bodied notNative rfl
    · have declaring := declares.declaring
      generalize sort : statementSort head tail = kinds at declaring
      cases declaring with
      | module _ _ _ _ none | «class» _ _ _ _ none | enum _ _ _ _ none | other _ _ none =>
          exact absurd none nothing
      | native =>
          exact absurd (kind_of_native sort) kind
      | body heads _ pending _ _ _ added =>
          obtain ⟨rfl, rfl⟩ := enters added
          cases heads with
          | function isFunction => exact absurd isFunction kind
          | constructor => exact .constructor pending
  cases turn with
  | closes _ _ _ same =>
      rw [same, fresh] at found
      cases found
  | reads takes notClosing => exact reads takes notClosing
  | skips takes notClosing => exact reads takes notClosing

-- What the first pass has declared from `s` on.
theorem Leads.enrolled (leads : s.Leads t) (pass : s.declaring = true) (idle : s.pendingDo = none)
    (outer : s.environment.Outer) (undefined : s.environment.declared.definition? o = none)
    (found : t.environment.declared.definition? o = some d) :
    ∃ site, s.DeclaredAt site o d ∧ Enrolled s.setting.host site o d := by
  induction leads with
  | refl =>
      rw [undefined] at found
      cases found
  | @tail u v leads step ih =>
      obtain ⟨idle, outer, _⟩ := Leads.extends leads pass idle outer
      have pass' : u.declaring = true := (Leads.declaring leads).trans pass
      cases before : u.environment.declared.definition? o with
      | some d' =>
          obtain ⟨turn, _⟩ := step.moves.declaringTurn pass' idle outer
          obtain ⟨_, _, declares⟩ := turn.declares outer
          have kept := declares.extends.definitions o d' before
          rw [found] at kept
          cases kept
          exact ih before
      | none =>
          have enrolled := enrolled_of_step step pass' idle outer found before
          rw [Leads.setting leads] at enrolled
          exact ⟨u.remaining, ⟨u, v, leads, step, rfl, before, found⟩, enrolled⟩

-- The types that a native function takes are primitive.
theorem Enrolled.primitive {host : Host} {site : List Token} (enrolled : Enrolled host site o d)
    (isNative : d.isNative = true) : ∃ owner name, o = .function owner name d.paramTypes ∧
      ∀ t ∈ d.paramTypes, ∃ p, t.primitive? = some p := by
  cases enrolled with
  | native _ _ bound =>
      refine ⟨_, _, rfl, fun t member => ?_⟩
      obtain ⟨met, _⟩ := NativeRequest.bind_eq_iff.mp bound
      obtain ⟨p, primitive, _⟩ := met .parameters (by simp [NativeRequest.Condition.inOrder]) t member
      exact ⟨p, primitive⟩
  | bodied _ pending | constructor pending =>
      rw [FunctionDefinition.isNative, pending] at isNative
      cases isNative

-- A header with primitive parameters means the same in both passes.
theorem Bodies.owner_of_primitive {u v s' : AnalysisState} {owner : BodyOwner} {home : Owner}
    {name : String} {types : List Datatype} {sig sig' : Signature} {body : Node}
    (bodies : Bodies s s' t u v owner (.function home name types) sig sig' d body)
    (mirror : s.Mirror t) (primitive : ∀ t ∈ types, ∃ p, t.primitive? = some p) :
    .function home name types = owner := by
  obtain ⟨_, _, _, mods, head, tail, _, _, heads, heads'⟩ := bodies.heads
  refine heads.owner_eq heads' ?_ mirror.outer.outside mirror.titles
  cases heads' with
  | function kind header =>
      cases heads with
      | function _ header' => exact (Header.read_primitive header' header primitive).symm
      | constructor kind' =>
          rw [kind] at kind'
          cases kind'

namespace Passed

variable {first last second final : AnalysisState} (passed : Passed first last second final)

include passed

-- The second pass gives no body to a native function.
theorem keeps_natives (declared : last.environment.declared.definition? o = some d)
    (isNative : d.isNative = true) : final.environment.modules.definition? o = some d := by
  obtain ⟨_, _, enrolled⟩ := Leads.enrolled passed.declares passed.starts.declaring
    passed.starts.idle.1 passed.starts.outer (passed.fresh o) declared
  obtain ⟨home, name, rfl, primitive⟩ := enrolled.primitive isNative
  have kept : ∀ {s}, first.Leads s → s.Leads last → ∃ t, second.Leads t ∧ s.Mirror t ∧
      last.environment.declared.Fills t.environment.modules ∧
      t.environment.modules.definition? (.function home name d.paramTypes) = some d := by
    intro s leads toward
    induction leads with
    | refl =>
        refine ⟨second, .refl, passed.starts, ?_, ?_⟩
        · rw [passed.given]
          exact ModuleTree.fills_refl _
        · rw [passed.given]
          exact declared
    | @tail b c leads step ih =>
        obtain ⟨t, toT, mirror, fills, same⟩ := ih (.head step toward)
        obtain ⟨v, follows, mirror'⟩ := passed.follow mirror step toward toT fills
        refine ⟨v, Relation.ReflTransGen.trans toT follows.leads, mirror', follows.fills fills, ?_⟩
        cases follows with
        | step _ _ unchanged => rwa [unchanged]
        | @body u owner owner' sig sig' d' body bodies =>
            obtain ⟨before, updated, attached⟩ := bodies.attached
            rw [attached, ModuleTree.definition?_attachBody, updated.fills.2]
            have other : BodyOwner.function home name d.paramTypes ≠ owner' := by
              rintro rfl
              cases bodies.owner_of_primitive mirror primitive
              -- The function that the header declares has no binding.
              obtain ⟨declaring, idle, outer⟩ := step.moves.mirror mirror
              have added := bodies.declares.definitions (.function home name d.paramTypes)
              simp only [ModuleTree.afterAdding, if_true] at added
              have inLast := (Leads.extends toward declaring idle outer).2.2.definitions _ _ added
              rw [declared] at inLast
              cases inLast
              rw [FunctionDefinition.isNative, bodies.pending] at isNative
              cases isNative
            rw [if_neg other]
            exact same
  obtain ⟨t, toT, mirror, _, same⟩ := kept passed.declares .refl
  have empty : final.remaining = t.remaining := by
    rw [passed.ended.2, mirror.remaining, passed.ended.1]
  cases Leads.unique toT passed.enters empty
  exact same

end Passed

end AnalysisState

namespace Analysis

open AnalysisState NativeRequest

-- Every `nat` function has the binding that its signature gets from the class named behind it, and
-- nothing else has one.
def NativesBound (host : Host) (first : AnalysisState) (modules : ModuleTree) : Prop :=
  ∀ o d, modules.Holds o d →
    match o with
    | .constructor _ _ => d.isNative = false
    | .function _ name types =>
        if d.modifiers.isNative then
          ∃ site hostClass binding, first.DeclaredAt site o d ∧ NamesHost site hostClass ∧
            NativeBinding.bind host hostClass name types d.returnType = .ok binding ∧
            d.body = .native binding
        else d.isNative = false

theorem nativesBound_of_accepted {host : Host} {maxErrors : Nat} {tokens : List Token}
    (accepted : (ofTokens host maxErrors tokens).isOk = true) :
    NativesBound host (declarationsStart host maxErrors tokens)
      (ofTokens host maxErrors tokens).modules := by
  obtain ⟨last, final, passed, modules⟩ := passed_of_accepted accepted
  rw [modules]
  have fills := passed.tour_end.1
  intro o d holds
  have found := holds.definition? (fills.proper passed.proper)
  -- What is declared has at most got a tree for its body since.
  obtain ⟨d₀, declared, same⟩ : ∃ d₀, last.environment.declared.definition? o = some d₀ ∧
      (d = d₀ ∨ ∃ body, d = { d₀ with body := .tree body }) := by
    rcases fills.definitions o with same | ⟨body, same⟩
    · exact ⟨d, same ▸ found, .inl rfl⟩
    · rw [same] at found
      obtain ⟨d₀, declared, rfl⟩ := Option.map_eq_some_iff.mp found
      exact ⟨d₀, declared, .inr ⟨body, rfl⟩⟩
  have unbound : d₀.body = .pending → d.isNative = false := by
    intro pending
    rcases same with rfl | ⟨body, rfl⟩
    · rw [FunctionDefinition.isNative, pending]
    · rfl
  obtain ⟨site, declaredAt, enrolled⟩ := Leads.enrolled passed.declares passed.starts.declaring
    passed.starts.idle.1 passed.starts.outer (passed.fresh o) declared
  cases enrolled with
  | @native _ _ hostClass binding isNative names bound body =>
      have kept := passed.keeps_natives declared (by rw [FunctionDefinition.isNative, body])
      rw [kept] at found
      cases found
      dsimp only
      rw [if_pos isNative]
      exact ⟨site, hostClass, binding, declaredAt, names, bound, body⟩
  | bodied notNative pending =>
      have modifiers : d.modifiers = d₀.modifiers := by
        rcases same with rfl | ⟨body, rfl⟩ <;> rfl
      dsimp only
      rw [modifiers, notNative]
      exact unbound pending
  | constructor pending => exact unbound pending

/-- A native function is bound to the first method of its class that fits, or else blamed for the
first condition that is violated; the functions of an accepted program are bound so, and stay so. -/
theorem natives_bound :
    (∀ (host : Host) (r : NativeRequest),
      (∀ binding,
        NativeBinding.bind host r.className r.function r.params r.returns = .ok binding ↔
          (∀ c ∈ Condition.inOrder, c.Holds r host) ∧
            ∃ m, r.Picks host m ∧ binding = ⟨r.className, m⟩) ∧
      (∀ e, NativeBinding.bind host r.className r.function r.params r.returns = .error e ↔
        ∃ earlier c, FirstIn (¬·.Holds r host) Condition.inOrder earlier c ∧
          c.Reports r host e) ∧
      ((∃ className method boxed, NativeBinding.bind host r.className r.function r.params r.returns =
          .error (.unboxedParameter className method boxed)) ↔
        (∀ t ∈ r.params, t.Passes) ∧ (∃ p, r.returns.primitive? = some p) ∧
          ∃ c, host.find? r.className = some c ∧
            (∀ m ∈ c.methods, ¬m.Takes r.function r.params) ∧
            ∃ m ∈ c.methods, m.TakesUnboxed r.function r.params)) ∧
    ∀ (host : Host) (maxErrors : Nat) (tokens : List Token),
      (ofTokens host maxErrors tokens).isOk = true →
      NativesBound host (declarationsStart host maxErrors tokens)
        (ofTokens host maxErrors tokens).modules :=
  ⟨fun _ _ => ⟨fun _ => bind_eq_iff, fun _ => bind_eq_iff, bind_unboxed_iff⟩,
    fun _ _ _ accepted => nativesBound_of_accepted accepted⟩

-- A class with two methods of one name, of which the first takes an unboxed parameter.
def clockHost : Host := Host.ofClasses
  [{ name := "Clock"
     methods :=
      [{ name := "tick", params := [⟨.unboxed .int, false⟩], returns := .void },
        { name := "tick", params := [⟨.boxed .int, true⟩], returns := .void }] }]

-- The program `module m { nat fn tick (int x) -> "Clock"; fn f { tick(1); } }`.
def clockProgram : List Token :=
  [.alone (.keyword .module) "module", .alone .identifier "m", .alone .leftBrace "\x7b",
    .alone (.modifier .nat) "nat", .alone (.keyword .fn) "fn", .alone .identifier "tick",
    .alone .leftParen "(", .alone (.datatype .int) "int", .alone .identifier "x",
    .alone .rightParen ")", .alone .arrow "->", .alone (.literal .string) "\"Clock\"",
    .alone .semicolon ";", .alone (.keyword .fn) "fn", .alone .identifier "f",
    .alone .leftBrace "\x7b", .alone .identifier "tick", .alone .leftParen "(",
    .alone (.literal .int) "1", .alone .rightParen ")", .alone .semicolon ";",
    .alone .rightBrace "\x7d", .alone .rightBrace "\x7d"]

theorem clockProgram_bound :
    (ofTokens clockHost 100 clockProgram).isOk = true ∧
      NativesBound clockHost (declarationsStart clockHost 100 clockProgram)
        (ofTokens clockHost 100 clockProgram).modules := by
  have accepted : (ofTokens clockHost 100 clockProgram).isOk = true := by decide +kernel
  exact ⟨accepted, natives_bound.2 clockHost 100 clockProgram accepted⟩

end Analysis

end MiLanguage
