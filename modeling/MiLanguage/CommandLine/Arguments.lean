set_option autoImplicit false

namespace MiLanguage

structure CheckOptions where
  withoutLibrary : Bool := false
  denyWarnings : Bool := false
  dumpTree : Bool := false
  settingsFile : Option String := none
  deriving DecidableEq, Repr

inductive HelpTopic where
  | general | check | tokens
  deriving DecidableEq, Repr

inductive Command where
  | check (file : String) (options : CheckOptions)
  | tokens (file : String)
  | version
  | help (topic : HelpTopic)
  deriving DecidableEq, Repr

/-- The form of one argument. A single dash is a value. -/
inductive Argument where
  | escape
  | long (name : String) (value : Option String)
  | short (flags : List Char)
  | value (text : String)
  deriving DecidableEq, Repr

namespace Argument

def ofText (text : String) : Argument :=
  match text.toList with
  | ['-', '-'] => .escape
  | '-' :: '-' :: cs =>
      let name := String.ofList (cs.takeWhile (· ≠ '='))
      match cs.dropWhile (· ≠ '=') with
      | [] => .long name none
      | _ :: rest => .long name (some (String.ofList rest))
  | '-' :: c :: cs => .short (c :: cs)
  | _ => .value text

def isValue : Argument → Bool
  | value _ => true
  | _ => false

end Argument

namespace CheckOptions

-- A flag may be given once.
def withFlag? (options : CheckOptions) : String → Option CheckOptions
  | "no-stdlib" =>
      if options.withoutLibrary then none else some { options with withoutLibrary := true }
  | "deny-warnings" =>
      if options.denyWarnings then none else some { options with denyWarnings := true }
  | "dump-ast" => if options.dumpTree then none else some { options with dumpTree := true }
  | _ => none

def withSettingsFile? (options : CheckOptions) (path : String) : Option CheckOptions :=
  if path = "" || options.settingsFile.isSome then none
  else some { options with settingsFile := some path }

end CheckOptions

namespace Command

/-- What a run of one-letter flags comes to. -/
inductive Flags where
  | verbose | help | version | unknown
  deriving DecidableEq, Repr

def Flags.ofChars : List Char → Flags
  | [] => .verbose
  | 'v' :: cs => ofChars cs
  | 'h' :: _ => .help
  | 'V' :: _ => .version
  | _ => .unknown

-- One file is named, and its name is not empty.
def withFile? (file : Option String) (name : String) : Option (Option String) :=
  if file.isSome || name = "" then none else some (some name)

-- After `--` every argument is a value.
def fileAmong? (file : Option String) : List String → Option String
  | [] => file
  | name :: names => do fileAmong? (← withFile? file name) names

def readCheck (file : Option String) (options : CheckOptions) : List String → Option Command
  | [] => file.map (.check · options)
  | arg :: rest =>
      match Argument.ofText arg with
      | .escape => (fileAmong? file rest).map (.check · options)
      | .value name => do readCheck (← withFile? file name) options rest
      | .short flags =>
          match Flags.ofChars flags with
          | .verbose => readCheck file options rest
          | .help => some (.help .check)
          | _ => none
      | .long "verbose" none => readCheck file options rest
      | .long "help" none => some (.help .check)
      | .long "config" (some path) => do
          readCheck file (← options.withSettingsFile? path) rest
      | .long "config" none =>
          match rest with
          | path :: rest => do
              if (Argument.ofText path).isValue then
                readCheck file (← options.withSettingsFile? path) rest
              else none
          | [] => none
      | .long name none => do readCheck file (← options.withFlag? name) rest
      | .long _ _ => none

def readTokens (file : Option String) : List String → Option Command
  | [] => file.map .tokens
  | arg :: rest =>
      match Argument.ofText arg with
      | .escape => (fileAmong? file rest).map .tokens
      | .value name => do readTokens (← withFile? file name) rest
      | .short flags =>
          match Flags.ofChars flags with
          | .verbose => readTokens file rest
          | .help => some (.help .tokens)
          | _ => none
      | .long "verbose" none => readTokens file rest
      | .long "help" none => some (.help .tokens)
      | .long _ _ => none

def readHelp : List String → Option Command
  | [] | ["help"] => some (.help .general)
  | ["check"] => some (.help .check)
  | ["tokens"] => some (.help .tokens)
  | _ => none

-- The command that the arguments ask for. They are read from the left, and what is wrong with one
-- counts before what a later one asks for.
def ofArguments : List String → Option Command
  | [] => none
  | arg :: rest =>
      match Argument.ofText arg with
      | .value "check" => readCheck none {} rest
      | .value "tokens" => readTokens none rest
      | .value "help" => readHelp rest
      | .short flags =>
          match Flags.ofChars flags with
          | .verbose => ofArguments rest
          | .help => some (.help .general)
          | .version => some .version
          | .unknown => none
      | .long "verbose" none => ofArguments rest
      | .long "help" none => some (.help .general)
      | .long "version" none => some .version
      | _ => none

end Command

namespace HelpTopic

def generalText : String :=
"Semantic analyzer for the Mi language

Usage: mic [OPTIONS] <COMMAND>

Commands:
  check   Analyze a .mi source file and report diagnostics
  tokens  Print the token stream of a .mi source file
  help    Print this message or the help of the given subcommand(s)

Options:
  -v, --verbose...  Increase log verbosity (-v debug, -vv trace). MI_LOG overrides this
  -h, --help        Print help
  -V, --version     Print version
"

def checkText : String :=
"Analyze a .mi source file and report diagnostics

Usage: mic check [OPTIONS] <FILE>

Arguments:
  <FILE>  Source file path

Options:
  -v, --verbose...       Increase log verbosity (-v debug, -vv trace). MI_LOG overrides this
      --no-stdlib        Do not inject the standard library
      --deny-warnings    Fail when warnings are reported
      --dump-ast         Print the annotated AST as JSON on success
      --config <CONFIG>  Use this mi.toml instead of discovering one
  -h, --help             Print help
"

def tokensText : String :=
"Print the token stream of a .mi source file

Usage: mic tokens [OPTIONS] <FILE>

Arguments:
  <FILE>  Source file path

Options:
  -v, --verbose...  Increase log verbosity (-v debug, -vv trace). MI_LOG overrides this
  -h, --help        Print help
"

def text : HelpTopic → String
  | general => generalText
  | check => checkText
  | tokens => tokensText

end HelpTopic

end MiLanguage
