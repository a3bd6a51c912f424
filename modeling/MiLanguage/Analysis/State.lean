import MiLanguage.Statement.Dispatch
import MiLanguage.Token.Basic

set_option autoImplicit false

namespace MiLanguage

/-- What the head of a list of tokens is: a statement through its terminator, or tokens that end
at a brace or at the end of the input without one. -/
inductive Chunk where
  | statement (first : Token) (rest : List Token)
  | endsAtBrace (brace : Token)
  | endsAtInput (last : Token)
  deriving DecidableEq, Repr

namespace Chunk

-- `first` and `read` have been read and hold no terminator. The brace stays in the list.
def readFrom (first : Token) (read : List Token) : List Token → Chunk × List Token
  | [] => (.endsAtInput (read.getLast?.getD first), [])
  | t :: rest =>
      match t.kind with
      | .rightBrace => (.endsAtBrace t, t :: rest)
      | .semicolon | .leftBrace => (.statement first (read ++ [t]), rest)
      | _ => readFrom first (read ++ [t]) rest

def next (first : Token) (rest : List Token) : Chunk × List Token :=
  if first.kind.isTerminator then (.statement first [], rest) else readFrom first [] rest

theorem length_readFrom (first : Token) (read tokens : List Token) :
    (readFrom first read tokens).2.length ≤ tokens.length := by
  induction tokens generalizing read with
  | nil => simp [readFrom]
  | cons t rest ih =>
      unfold readFrom
      split
      · simp
      · simp
      · simp
      · exact Nat.le_succ_of_le (ih _)

theorem length_next (first : Token) (rest : List Token) :
    (next first rest).2.length ≤ rest.length := by
  unfold next
  split
  · simp
  · exact length_readFrom first [] rest

-- What follows the brace that closes a block, given the text after the one that opens it.
def skipBlock (depth : Nat) : List Token → Option (List Token)
  | [] => none
  | t :: rest =>
      match t.kind, depth with
      | .leftBrace, depth => skipBlock (depth + 1) rest
      | .rightBrace, 0 => some rest
      | .rightBrace, depth + 1 => skipBlock depth rest
      | _, depth => skipBlock depth rest

end Chunk

/-- A pass over a program, between two statements. -/
structure AnalysisState where
  setting : Setting
  remaining : List Token
  environment : Environment
  log : DiagnosticLog
  -- A `do` block that waits for its condition.
  pendingDo : Option Node := none

namespace AnalysisState

def declaring (s : AnalysisState) : Bool := s.setting.declaring

def report (s : AnalysisState) (fault : Fault) (place : Token) : AnalysisState :=
  { s with log := s.log.report (.ofFault .error fault place) }

def reportTo (s : AnalysisState) (r : Report) : AnalysisState := s.report r.fault r.place

def append (s : AnalysisState) (node : Node) : AnalysisState :=
  { s with environment := s.environment.append s.setting node }

def modifyModules (s : AnalysisState) (f : ModuleTree → ModuleTree) : AnalysisState :=
  { s with environment := { s.environment with modules := f s.environment.modules } }

-- Takes a waiting `do` block as it is.
def flushDo (s : AnalysisState) : AnalysisState :=
  match s.pendingDo with
  | some node => { s with pendingDo := none }.append node
  | none => s

-- A block warns of the first statement after its end, and only once.
def checkReachable (s : AnalysisState) (first : Token) : AnalysisState :=
  match s.environment.frame.block? with
  | some b =>
      if s.declaring || !b.terminated || b.warned then s
      else
        { s with
          environment := s.environment.modifyBlock ({ · with warned := true })
          log := s.log.report (.ofFault .warning SyntaxFault.unreachable first) }
  | none => s

-- The scope that a rejected header leaves open, so that its closing brace finds a partner.
def recoveryFrame (env : Environment) (head : Token) : Frame :=
  match head.kind with
  | .keyword .«if» => .block .branch {}
  | .keyword .«while» => .block .whileLoop {}
  | .keyword .«do» => .block .doLoop {}
  | .keyword .«for» => .block .forLoop {}
  | .keyword .fn | .keyword .new => .block .function {}
  | _ => if env.frame.isBlock then .block .branch {} else .module env.currentModule

def pushRecovery (s : AnalysisState) (head : Token) : AnalysisState :=
  let scope : Scope :=
    { frame := recoveryFrame s.environment head
      node := .new .parent head.streamLine
      discard := true }
  { s with environment := { s.environment with scopes := s.environment.scopes.push scope } }

def skipBlock (s : AnalysisState) (brace : Token) : AnalysisState :=
  match Chunk.skipBlock 0 s.remaining with
  | some rest => { s with remaining := rest }
  | none =>
      { s with remaining := [] }.report
        (SyntaxFault.expected .rightBrace "to close this block") brace

-- Nothing in the body of a rejected class or enum is a statement, and the first pass leaves the
-- bodies of functions alone.
def skipsBody (s : AnalysisState) (head : Token) : Bool :=
  match head.kind with
  | .keyword .enum | .keyword .«class» => true
  | .keyword .fn | .keyword .new => s.declaring
  | _ => false

-- Keeps the braces balanced after a statement that ends in one and has opened no scope.
def recover (s : AnalysisState) (head brace : Token) : AnalysisState :=
  if s.skipsBody head then s.skipBlock brace else s.pushRecovery head

-- Reads a statement that neither closes a scope nor completes a `do` block.
def readStatement (s : AnalysisState) (first : Token) (rest : List Token) : AnalysisState :=
  let s := s.checkReachable first
  let depth := s.environment.scopes.depth
  let outcome := s.environment.statement s.setting first rest
  let s := { s with environment := outcome.environment }
  let s := match outcome.result with
    | .error r => s.reportTo r
    | .ok _ => s
  let last := rest.getLast?.getD first
  let s :=
    if last.is .leftBrace && s.environment.scopes.depth = depth then
      s.recover (((first :: rest).find? (!·.kind.isModifier)).getD first) last
    else s
  match outcome.result with
  | .ok (some node) => s.append node
  | _ => s

-- Where the tree of a finished body belongs.
def attachBody (modules : ModuleTree) (body : Node) : BodyOwner → ModuleTree
  | .function (.module id) name types =>
      modules.modifyFunction id name types ({ · with body := .tree body })
  | .function (.inClass id c) name types =>
      modules.modifyClass id c fun c =>
        { c with methods := c.methods.modify name types ({ · with body := .tree body }) }
  | .constructor id c =>
      modules.modifyClass id c fun c =>
        { c with constructor := c.constructor.map ({ · with body := .tree body }) }

def closeFunction (s : AnalysisState) (b : Block) (node : Node) (brace : Token) : AnalysisState :=
  let s := match b.returnType with
    | some type =>
        if type.isVoid || b.returned then s else s.report (TypeFault.missingReturn type) brace
    | none => s
  let s := match b.bodyOf with
    | some owner => s.modifyModules (attachBody · node owner)
    | none => s
  s.append node

-- Hands a closed scope to what is around it.
def closeFrame (s : AnalysisState) (frame : Frame) (node : Node) (brace : Token) :
    AnalysisState :=
  match frame with
  | .class id c =>
      (if s.declaring then s.modifyModules (·.insertClass id c) else s).append node
  | .enum id e =>
      (if s.declaring then s.modifyModules (·.insertEnum id e) else s).append node
  | .parent _ | .module _ => s.append node
  | .block .function b => s.closeFunction b node brace
  | .block .doLoop _ => { s with pendingDo := some node }
  | .block .forLoop _ =>
      -- The scope of the loop's variable closes along with the loop.
      let s := s.append node
      match s.environment.scopes.pop? with
      | some (head, scopes) =>
          { s with environment := { s.environment with scopes } }.append head.node
      | none => s
  | .block _ _ => s.append node

def closeScope (s : AnalysisState) (brace : Token) : AnalysisState :=
  match s.environment.scopes.pop? with
  | none => s.report SyntaxFault.strayBrace brace
  | some (scope, scopes) =>
      let s := { s with environment := { s.environment with scopes } }
      if scope.discard then s else s.closeFrame scope.frame scope.node brace

-- Completes a waiting `do` block with the condition behind it.
def finishDo (s : AnalysisState) (block : Node) (keyword : Token) (condition : List Token) :
    AnalysisState :=
  let s := { s with pendingDo := none }
  match s.environment.wrappedCondition condition keyword with
  | .ok node => s.append (block.push node)
  | .error r => (s.reportTo r).append block

def statementOrBrace (s : AnalysisState) (first : Token) (rest : List Token) : AnalysisState :=
  if first.is .rightBrace then s.closeScope first else s.readStatement first rest

def statement (s : AnalysisState) (first : Token) (rest : List Token) : AnalysisState :=
  match s.pendingDo with
  | none => s.statementOrBrace first rest
  | some block =>
      if first.is (.keyword .«while») && (rest.getLast?.getD first).is .semicolon then
        s.finishDo block first rest.dropLast
      else
        (s.report (SyntaxFault.doWithoutWhile false) first).flushDo.statementOrBrace first rest

-- Takes the next statement, or what stands in for one, off the remaining tokens.
def step (s : AnalysisState) : Option AnalysisState :=
  match s.remaining with
  | [] => none
  | first :: rest =>
      let (chunk, rest) := Chunk.next first rest
      let s := { s with remaining := rest }
      match chunk with
      | .statement first rest => some (s.statement first rest)
      | .endsAtBrace brace =>
          some (s.report (SyntaxFault.expected .semicolon "before '\x7d'") brace)
      | .endsAtInput last =>
          some (s.report (SyntaxFault.expected .semicolon "at end of input") last)

-- Every step takes a token at least, so `bound` tokens need no more than `bound` steps.
def steps : Nat → AnalysisState → AnalysisState
  | 0, s => s
  | bound + 1, s =>
      match s.step with
      | none => s
      | some s => steps bound s

-- The end of a pass: nothing may be left open.
def finish (s : AnalysisState) (last : Option Token) : AnalysisState :=
  let s := match s.pendingDo, last with
    | some _, some t => (s.report (SyntaxFault.doWithoutWhile true) t).flushDo
    | _, _ => s.flushDo
  match s.environment.scopes.opened, last with
  | _ :: _, some t => s.report SyntaxFault.unclosedScope t
  | _, _ => s

-- It may complain of a `do` block that still waits, and of scopes that are open.
theorem finish_cases (s : AnalysisState) (last : Option Token) :
    ∃ u, (u = s.flushDo ∨ ∃ t, u = (s.report (SyntaxFault.doWithoutWhile true) t).flushDo) ∧
      (s.finish last = u ∨ ∃ t, s.finish last = u.report SyntaxFault.unclosedScope t) := by
  unfold finish
  cases s.pendingDo with
  | none =>
      refine ⟨s.flushDo, .inl rfl, ?_⟩
      dsimp only
      split
      · exact .inr ⟨_, rfl⟩
      · exact .inl rfl
  | some block =>
      cases last with
      | none =>
          refine ⟨s.flushDo, .inl rfl, ?_⟩
          dsimp only
          split
          · exact .inr ⟨_, rfl⟩
          · exact .inl rfl
      | some t =>
          refine ⟨_, .inr ⟨t, rfl⟩, ?_⟩
          dsimp only
          split
          · exact .inr ⟨_, rfl⟩
          · exact .inl rfl

-- What the scopes, innermost first, leave to the one around them when all of them close at once.
def closeAll (opened : List Scope) : List Node :=
  opened.foldl (fun inner scope => if scope.discard then [] else [scope.node.withChildren inner]) []

def root (s : AnalysisState) : Node :=
  let scopes := s.environment.scopes
  if s.declaring then scopes.base.node else scopes.base.node.withChildren (closeAll scopes.opened)

end AnalysisState

end MiLanguage
