import MiLanguage.Proofs.Passes.Abreast

set_option autoImplicit false

namespace MiLanguage

/-- What the second pass makes of the declarations: it notes which variables have values, and hands
bodies to functions. -/
inductive ModuleTree.Built (old : ModuleTree) : ModuleTree → Prop
  | refl : Built old old
  | marked (id : ModuleId) (name : String) {new : ModuleTree} :
      Built old new → Built old (new.modifyVariable id name ({ · with initialized := true }))
  | attached (body : Node) (owner : BodyOwner) {new : ModuleTree} :
      Built old new → Built old (AnalysisState.attachBody new body owner)

namespace ModuleTree

variable {old new t : ModuleTree}

theorem Built.trans (first : old.Built new) (second : new.Built t) : old.Built t := by
  induction second with
  | refl => exact first
  | marked id name _ ih => exact .marked id name ih
  | attached body owner _ ih => exact .attached body owner ih

theorem Updated.built (updated : old.Updated new) : old.Built new := by
  induction updated with
  | refl => exact .refl
  | marked id name _ ih => exact .marked id name ih

theorem Built.fills (built : old.Built new) : old.Fills new := by
  induction built with
  | refl => exact old.fills_refl
  | marked id name _ ih => exact ih.trans (fills_modifyVariable _ id name _)
  | attached body owner _ ih => exact ih.trans (fills_attachBody _ body owner)

end ModuleTree

theorem Rooted.suffix {old new : List Sketch} (rooted : Rooted old) (suffix : new <:+ old)
    (nonempty : new ≠ []) : Rooted new := by
  obtain ⟨front, rfl⟩ := suffix
  induction front with
  | nil => exact rooted
  | cons s front ih => exact ih (rooted.tail (by simp [nonempty]))

namespace Environment

variable {env after : Environment} {setting : Setting}

theorem Closes.suffix {scope : Scope} {waiting : Option Node}
    (closes : Closes setting env scope after waiting) : after.sketches <:+ env.sketches := by
  cases closes with
  | discarded | doLoop => exact List.suffix_rfl
  | «class» | enum | module | function | bare | block =>
      exact (@sketches_append _ setting _).symm ▸ List.suffix_rfl
  | forLoop _ _ popped =>
      have whole := sketches_of_pop? popped
      rw [sketches_append] at whole
      rw [sketches_append, whole]
      exact List.suffix_cons _ _

theorem sketches_ne_nil (env : Environment) : env.sketches ≠ [] := by
  simp [sketches, ScopeStack.all_ne_nil]

theorem Closes.built {scope : Scope} {waiting : Option Node} (pass : setting.declaring = false)
    (closes : Closes setting env scope after waiting) : env.modules.Built after.modules := by
  cases closes with
  | discarded | doLoop => exact .refl
  | «class» | enum =>
      rw [modules_append]
      simp only [pass, Bool.false_eq_true, if_false]
      exact .refl
  | module | bare | block =>
      rw [modules_append]
      exact .refl
  | forLoop =>
      rw [modules_append]
      show env.modules.Built (env.append setting scope.node).modules
      rw [modules_append]
      exact .refl
  | function =>
      rw [modules_append]
      unfold Block.attached
      split
      next owner _ => exact .attached _ owner .refl
      next => exact .refl

end Environment

theorem Accepts.built {env : Environment} {setting : Setting} {mods : LeadingModifiers}
    {head : Token} {tail : List Token} {accepted : Accepted} (pass : setting.declaring = false)
    (accepts : Accepts env setting mods head tail accepted) :
    env.modules.Built (accepted.settled setting).modules := by
  have declaring : ¬setting.declaring = true := by simp [pass]
  rw [(accepted.settled_kept setting).2]
  cases accepts with
  | moduleDeclared _ _ _ first | classDeclared _ _ _ first | enumDeclared _ _ _ first
  | membersDeclared _ _ _ first | functionDeclared _ _ _ first | nativeDeclared _ _ _ first
  | constructorDeclared _ _ _ first => exact absurd first declaring
  | functionOpened | constructorOpened =>
      exact (Environment.updated_openBody env _ _ _ _ _).modules.built
  | forLoop _ _ _ defines _ advances =>
      simp only [List.foldl_cons, List.foldl_nil, Environment.push, modules_append]
      exact (defines.updated.trans advances.updated).modules.built
  | variableDefined _ _ _ inBlock defines =>
      rcases inBlock with first | rfl
      · exact absurd first declaring
      · exact defines.updated.modules.built
  | assigned _ _ _ assigns => exact assigns.updated.modules.built
  | _ => exact .refl

namespace AnalysisState

variable {first last p p' s t : AnalysisState}

theorem Turns.rooted (turns : s.Turns t) (rooted : Rooted s.environment.sketches) :
    Rooted t.environment.sketches := by
  cases turns with
  | reports | breaksOff | stray | rejects | skips | runsOff => exact rooted
  | flushes | completes | fails =>
      rw [Environment.sketches_append]
      exact rooted
  | closes _ _ _ _ popped closes =>
      refine rooted.suffix ?_ (Environment.sketches_ne_nil _)
      rw [Environment.sketches_of_pop? popped]
      exact closes.suffix.trans (List.suffix_cons _ _)
  | warns _ _ warns =>
      rw [warns.updated.sketches]
      exact rooted
  | accepts _ _ _ _ accepts =>
      rcases accepts.leaves.scopes with same | ⟨_, new, opens, same⟩
      · rwa [same]
      · rw [same]
        exact rooted.append opens.isParent
  | @recovers first rest later _ log =>
      rw [sketches_pushRecovery]
      refine rooted.append (show ∀ x ∈ [(_ : Sketch)], _ from ?_)
      intro x member
      rw [List.mem_singleton.mp member]
      dsimp only
      unfold recoveryFrame
      split <;> first | rfl | (split <;> rfl)

theorem Turns.built (turns : s.Turns t) (pass : s.declaring = false) :
    s.environment.modules.Built t.environment.modules := by
  cases turns with
  | reports | breaksOff | stray | rejects | skips | runsOff | recovers => exact .refl
  | flushes | completes | fails =>
      rw [modules_append]
      exact .refl
  | closes _ _ _ _ _ closes =>
      have built := closes.built pass
      exact built
  | warns _ _ warns => exact warns.updated.modules.built
  | accepts _ _ _ _ accepts => exact accepts.built pass

/-- The second pass, which has come to `s`, keeps in step with the first one, whatever is wrong in
the bodies between. -/
structure InStep (first last s : AnalysisState) : Prop where
  pass : s.declaring = false
  rooted : Rooted s.environment.sketches
  built : last.environment.declared.Built s.environment.modules
  place : ∃ p, first.Leads p ∧ Scouts last p ∧ Abreast p s

theorem InStep.meets (inStep : InStep first last s) (scouts : Scouts last p)
    (remaining : s.remaining = p.remaining) (idle : s.pendingDo = none)
    (titles : s.environment.titles = p.environment.titles)
    (inLibrary : s.environment.inLibrary = p.environment.inLibrary) : Meets last p s :=
  ⟨scouts, inStep.pass, idle, remaining, ⟨titles, inLibrary, scouts.rooted, inStep.rooted⟩,
    inStep.built.fills⟩

theorem InStep.outside (inStep : InStep first last s) (bare : s.environment.frame.isBlock = false) :
    ∃ p, first.Leads p ∧ Meets last p s := by
  obtain ⟨p, leads, scouts, abreast⟩ := inStep.place
  cases abreast with
  | outside remaining idle titles inLibrary =>
      exact ⟨p, leads, inStep.meets scouts remaining idle titles inLibrary⟩
  | inside sketches inner => rw [isBlock_of_inner sketches inner] at bare; cases bare

theorem InStep.turns (inStep : InStep first last s) (turns : s.Turns t) : InStep first last t := by
  have pass : t.declaring = false := by
    rw [AnalysisState.declaring, turns.setting]
    exact inStep.pass
  refine ⟨pass, turns.rooted inStep.rooted, inStep.built.trans (turns.built inStep.pass), ?_⟩
  obtain ⟨p, leads, scouts, abreast⟩ := inStep.place
  cases abreast with
  | outside remaining idle titles inLibrary =>
      have meets := inStep.meets scouts remaining idle titles inLibrary
      rcases meets.abreast turns with abreast | ⟨p', step, scouts', abreast⟩
      · exact ⟨p, leads, scouts, abreast⟩
      · exact ⟨p', leads.tail step, scouts', abreast⟩
  | inside sketches inner around skips inLibrary =>
      exact ⟨p, leads, scouts, abreast_inside sketches inner around skips inLibrary turns⟩

theorem InStep.reaches (inStep : InStep first last s) (reaches : s.Reaches t) :
    InStep first last t := by
  induction reaches with
  | refl => exact inStep
  | tail _ turns ih => exact ih.turns turns

end AnalysisState

namespace Analysis

variable {host : Host} {maxErrors : Nat} {tokens : List Token}

theorem inStep_start
    (clean : (runPass ⟨.declarations, host⟩ .empty { maxErrors } tokens).Clean) :
    AnalysisState.InStep (declarationsStart host maxErrors tokens)
      (runPass ⟨.declarations, host⟩ .empty { maxErrors } tokens) (bodiesStart host maxErrors tokens) := by
  obtain ⟨declares, ended, closed, _⟩ := runPass_leads clean
  have outer := outer_startPass ⟨.declarations, host⟩ { maxErrors } tokens
  have later := (AnalysisState.Leads.extends declares rfl rfl outer).2.1
  have rooted : ∀ setting modules log,
      Rooted (startPass setting modules log tokens).environment.sketches :=
    fun _ _ _ => ⟨[], _, rfl, rfl, by simp⟩
  refine ⟨rfl, rooted _ _ _, ?_, _, .refl, ⟨rfl, rfl, outer, rooted _ _ _, declares, ended⟩,
    .outside rfl rfl rfl rfl⟩
  rw [declared_of_closed later.outside closed]
  exact .refl

end Analysis

end MiLanguage
