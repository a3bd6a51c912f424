import MiLanguage.Expression.Reading

set_option autoImplicit false

namespace MiLanguage

/-- The first pass over a program records its declarations and passes over function bodies, the
second one builds the tree. -/
inductive Pass where
  | declarations | bodies
  deriving DecidableEq, Repr

structure Setting where
  pass : Pass
  host : Host

def Setting.declaring (setting : Setting) : Bool := setting.pass = .declarations

/-- The environment after an accepted statement, and the node to add to the current scope. A
statement that opens a block leaves an open scope instead. -/
structure Accepted where
  environment : Environment
  node : Option Node := none

/-- The modifiers in front of a statement. -/
structure LeadingModifiers where
  set : Modifiers := .empty
  tokens : List Token := []

namespace LeadingModifiers

def node (mods : LeadingModifiers) (line : Nat) : Node :=
  .new .modifiers line (mods.tokens.map (Node.leaf .modifier))

-- `conflict` is the fault to report for a modifier and the one it conflicts with.
def readFrom (conflict : Modifier → Modifier → Fault) (mods : LeadingModifiers) :
    List Token → Checked (LeadingModifiers × List Token)
  | [] => .ok (mods, [])
  | t :: rest =>
      match t.kind with
      | .modifier m =>
          match mods.set.insert m with
          | .ok set => readFrom conflict ⟨set, mods.tokens ++ [t]⟩ rest
          | .error present => blame (conflict m present) t
      | _ => .ok (mods, t :: rest)

def read (tokens : List Token) : Checked (LeadingModifiers × List Token) :=
  readFrom (fun m present => SyntaxFault.conflictingModifiers m present) {} tokens

def first? (mods : LeadingModifiers) (p : Modifier → Bool) : Option Token :=
  mods.tokens.find? (·.kind.modifier?.any p)

def requireNone (mods : LeadingModifiers) : Checked Unit :=
  match mods.tokens with
  | [] => .ok ()
  | t :: _ => blame SyntaxFault.unexpectedModifiers t

def requireNoMutability (mods : LeadingModifiers) (what : String) : Checked Unit :=
  match mods.first? Modifier.isMutability with
  | some t => blame (SyntaxFault.misplacedMutability what) t
  | none => .ok ()

def requireVisibilityOnly (mods : LeadingModifiers) (what : String) : Checked Unit := do
  mods.requireNoMutability what
  match mods.first? (!·.isVisibility) with
  | some t => blame (SyntaxFault.misplacedModifier t.lexeme what) t
  | none => .ok ()

end LeadingModifiers

-- The parts between separators that stand outside of parentheses. `depth` counts open ones.
def splitParts (depth : Nat) : List Token → List (List Token)
  | [] => [[]]
  | t :: rest =>
      match depth, t.kind with
      | 0, .comma => [] :: splitParts 0 rest
      | depth, kind =>
          let next := match kind with
            | .leftParen => depth + 1
            | .rightParen => depth - 1
            | _ => depth
          match splitParts next rest with
          | [] => [[t]]
          | part :: parts => (t :: part) :: parts

def splitCommas (tokens : List Token) : List (List Token) := splitParts 0 tokens

-- After an opening parenthesis: what stands before the one that closes it, and what after.
def splitClosing (depth : Nat) : List Token → Option (List Token × List Token)
  | [] => none
  | t :: rest =>
      match depth, t.kind with
      | 0, .rightParen => some ([], rest)
      | depth, kind =>
          let next := match kind with
            | .leftParen => depth + 1
            | .rightParen => depth - 1
            | _ => depth
          (splitClosing next rest).map fun (inner, after) => (t :: inner, after)

-- The opening parenthesis and what it encloses, if its partner is the very last token.
def unwrap : List Token → Option (Token × List Token)
  | [] => none
  | t :: rest =>
      match t.kind, splitClosing 0 rest with
      | .leftParen, some (inner, []) => some (t, inner)
      | _, _ => none

def typeNode (token : Option Token) (type : Datatype) (line : Nat) : Node :=
  let node := match token with
    | some t => Node.leaf .type t
    | none => .new .type line
  node.typed type

-- A name that can be declared. `place` stands for a token that is missing.
def declaredName (token : Option Token) (place : Token) (what : String) : Checked Token :=
  match token with
  | none => blame (SyntaxFault.nameExpected what "end of statement") place
  | some t =>
      if t.kind ≠ .identifier then blame (SyntaxFault.nameExpected what t.lexeme) t
      else if isDotted t.lexeme then blame (SyntaxFault.dottedName t.lexeme) t
      else .ok t

-- The last of these has to be the semicolon that ends the statement.
def requireEnd (tokens : List Token) (last : Token) (what : String) : Checked Unit :=
  match tokens with
  | [] => blame (SyntaxFault.expected .semicolon s!"after {what}") last
  | [t] => require (t.is .semicolon) (SyntaxFault.unwanted t.lexeme (.noEnd what)) t
  | t :: _ => blame (SyntaxFault.unwanted t.lexeme (.noEnd what)) t

-- A brace, and nothing else, has to follow `before`.
def requireBrace (before : Token) (tokens : List Token) (place : String) : Checked Unit :=
  match tokens with
  | [] => blame (SyntaxFault.expected .leftBrace place) before
  | [t] => require (t.is .leftBrace) (SyntaxFault.expected .leftBrace place) t
  | t :: _ => blame (SyntaxFault.expected .leftBrace place) t

-- All tokens but a last one of the given kind.
def dropLastOf (kind : TokenKind) (first : Token) (tokens : List Token) (place : String) :
    Checked (List Token) :=
  let last := tokens.getLast?.getD first
  if last.is kind then .ok tokens.dropLast else blame (SyntaxFault.expected kind place) last

namespace Environment

def frame (env : Environment) : Frame := env.scopes.current.frame

def originOf (env : Environment) (place : Token) : Origin :=
  ⟨env.currentModule, place.span.fileId⟩

def requireBlock (env : Environment) (place : Token) : Checked Unit :=
  require env.frame.isBlock ScopeFault.outsideFunction place

def push (env : Environment) (frame : Frame) (node : Node) : Environment :=
  { env with scopes := env.scopes.push { frame, node } }

-- Only the second pass builds the tree.
def append (env : Environment) (setting : Setting) (node : Node) : Environment :=
  if setting.declaring then env else { env with scopes := env.scopes.append node }

def modifyBlock (env : Environment) (f : Block → Block) : Environment :=
  { env with scopes := env.scopes.modifyCurrentBlock f }

end Environment

end MiLanguage
