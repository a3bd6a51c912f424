set_option autoImplicit false

namespace MiLanguage

/-- What stands between two slashes of a path. A gap is nothing at all. -/
inductive PathStep where
  | gap
  | stay
  | up
  | into (name : String)
  deriving DecidableEq, Repr

def PathStep.text : PathStep → String
  | gap => ""
  | stay => "."
  | up => ".."
  | into name => name

def PathStep.ofPiece : String → PathStep
  | "" => gap
  | "." => stay
  | ".." => up
  | name => into name

/-- A path as it is written, slash by slash. -/
structure PathName where
  rooted : Bool
  steps : List PathStep
  deriving DecidableEq, Repr

namespace PathName

def here : PathName := ⟨false, [.stay]⟩

def ofText (text : String) : PathName :=
  match text.splitOn "/" with
  | [""] => ⟨false, []⟩
  | "" :: pieces => ⟨true, pieces.map PathStep.ofPiece⟩
  | pieces => ⟨false, pieces.map PathStep.ofPiece⟩

def text (path : PathName) : String :=
  (if path.rooted then "/" else "") ++ String.intercalate "/" (path.steps.map PathStep.text)

def isEmpty (path : PathName) : Bool := !path.rooted && path.steps.isEmpty

-- The path of a name in a directory. One slash at the end of the directory's path will do.
def child (directory : PathName) (name : String) : PathName :=
  let steps :=
    if directory.steps.getLast? = some .gap then directory.steps.dropLast else directory.steps
  ⟨directory.rooted, steps ++ [.into name]⟩

-- Gaps lead nowhere, and neither does `.` unless the path starts with it.
def isIdle (rooted : Bool) (step : PathStep) (before : List PathStep) : Bool :=
  match step with
  | .gap => true
  | .stay => rooted || !before.isEmpty
  | _ => false

-- Steps, the last one first, without those at the end that lead nowhere.
def dropIdle (rooted : Bool) : List PathStep → List PathStep
  | [] => []
  | step :: before => if isIdle rooted step before then dropIdle rooted before else step :: before

-- The path without its last step, then without the last two, and so on. Steps that lead nowhere go
-- along with the one behind them.
def parents (path : PathName) : List PathName := go path.steps.reverse
where
  go : List PathStep → List PathName
    | [] => []
    | step :: before =>
        if isIdle path.rooted step before then go before
        else ⟨path.rooted, (dropIdle path.rooted before).reverse⟩ :: go before

def parent? (path : PathName) : Option PathName := path.parents.head?

-- The path and then its parents.
def outward (path : PathName) : List PathName := path :: path.parents

end PathName

inductive FileFault where
  | notFound | notDirectory | isDirectory | nameTooLong | badText
  | other (text : String)
  deriving DecidableEq, Repr

def FileFault.message : FileFault → String
  | notFound => "No such file or directory (os error 2)"
  | notDirectory => "Not a directory (os error 20)"
  | isDirectory => "Is a directory (os error 21)"
  | nameTooLong => "File name too long (os error 36)"
  | badText => "stream did not contain valid UTF-8"
  | other text => text

/-- What reading a path gives. -/
inductive FileEntry where
  | text (contents : String)
  | directory
  | absent (fault : FileFault)
  deriving DecidableEq, Repr

namespace FileEntry

def isFile : FileEntry → Bool
  | text _ | absent .badText => true
  | _ => false

def isPresent : FileEntry → Bool
  | absent .badText => true
  | absent _ => false
  | _ => true

def read : FileEntry → Except FileFault String
  | text contents => .ok contents
  | directory => .error .isDirectory
  | absent fault => .error fault

end FileEntry

-- How a program sees the files: what stands at every path.
abbrev FileView := PathName → FileEntry

inductive FileTree where
  | file (contents : String)
  | directory (entries : List (String × FileTree))

namespace FileTree

def empty : FileTree := .directory []

def child? (name : String) : FileTree → Option FileTree
  | file _ => none
  | directory entries => entries.lookup name

def at? (tree : FileTree) : List String → Option FileTree
  | [] => some tree
  | name :: names => (tree.child? name).bind (·.at? names)

def entry : FileTree → FileEntry
  | file contents => .text contents
  | directory _ => .directory

-- No name in a directory takes more bytes than this.
def maxNameBytes : Nat := 255

-- A path as a whole may not take more.
def maxPathBytes : Nat := 4095

-- Follows a path from the directory `here`, whose names are innermost first. Above the root is the
-- root again. Every step asks for a directory to start from, also the one after a last slash.
def walk (tree : FileTree) (here : List String) : List PathStep → Except FileFault (List String)
  | [] => .ok here
  | step :: steps =>
      match tree.at? here.reverse with
      | none => .error .notFound
      | some (.file _) => .error .notDirectory
      | some (.directory _) =>
          match step with
          | .gap | .stay => tree.walk here steps
          | .up => tree.walk here.tail steps
          | .into name =>
              if maxNameBytes < name.utf8ByteSize then .error .nameTooLong
              else if (tree.at? (name :: here).reverse).isSome then tree.walk (name :: here) steps
              else .error .notFound

-- The view of a program that works in the directory `here`.
def view (tree : FileTree) (here : List String) : FileView := fun path =>
  if path.isEmpty then .absent .notFound
  else if maxPathBytes < path.text.utf8ByteSize then .absent .nameTooLong
  else match tree.walk (if path.rooted then [] else here) path.steps with
    | .error fault => .absent fault
    | .ok names =>
        match tree.at? names.reverse with
        | none => .absent .notFound
        | some found => found.entry

-- The tree with something put at the end of a path, the directories on the way included.
def put (value : FileTree) : List String → FileTree → FileTree
  | [], _ => value
  | name :: names, tree =>
      let inside := (tree.child? name).getD empty
      let others := match tree with
        | file _ => []
        | directory entries => entries.filter (·.1 ≠ name)
      .directory ((name, put value names inside) :: others)

def withFile (tree : FileTree) (names : List String) (contents : String) : FileTree :=
  put (.file contents) names tree

-- A directory that is there already keeps what is in it.
def withDirectory (tree : FileTree) (names : List String) : FileTree :=
  put ((tree.at? names).getD empty) names tree

end FileTree

end MiLanguage
