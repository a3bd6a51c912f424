import MiLanguage.Analysis.Run
import MiLanguage.CommandLine.Arguments
import MiLanguage.Host.Standard
import MiLanguage.Node.Rendering
import MiLanguage.Settings.Discovery

set_option autoImplicit false

namespace MiLanguage

/-- What a run of the program writes, and the code with which it ends. -/
structure RunOutcome where
  exitCode : UInt8
  output : String := ""
  errors : String := ""
  deriving DecidableEq, Repr

def versionText : String := "mic 0.1.0"

namespace RunOutcome

def wrongUsage : RunOutcome := { exitCode := 2, errors := HelpTopic.generalText }

def failure (file : String) (details : List String) (message : String) : RunOutcome where
  exitCode := 1
  errors := String.join ((details ++ [s!"error [{file}]: {message}"]).map (· ++ "\n"))

end RunOutcome

def CheckOptions.apply (options : CheckOptions) (settings : Settings) : Settings :=
  { settings with
    withLibrary := settings.withLibrary && !options.withoutLibrary
    denyWarnings := settings.denyWarnings || options.denyWarnings }

namespace Command

def unreadableText (file : String) (fault : FileFault) : String :=
  s!"I/O error: failed to read '{file}': {fault.message}"

-- The settings of the file named in the options, or else of the one that governs the source.
def settingsFor (files : FileView) (file : String) (options : CheckOptions) :
    Except SettingsFault Settings :=
  match options.settingsFile with
  | some path => Settings.load files (.ofText path)
  | none => Settings.forSource files (.ofText file)

def report (file : String) (dumpTree : Bool) (settings : Settings) (analysis : Analysis) :
    RunOutcome :=
  let details := analysis.log.entries.map Diagnostic.text
  if analysis.passes settings then
    { exitCode := 0
      output := if dumpTree then (analysis.root.json.pretty 0) ++ "\n" else ""
      errors := String.join ((details ++
        [s!"{file}: ok ({analysis.log.warnings.length} warning(s))"]).map (· ++ "\n")) }
  else .failure file details analysis.log.summary

def runCheck (files : FileView) (file : String) (options : CheckOptions) : RunOutcome :=
  match (files (.ofText file)).read with
  | .error fault => .failure file [] (unreadableText file fault)
  | .ok text =>
      match settingsFor files file options with
      | .error fault => .failure file [] ("Config error: " ++ fault.message)
      | .ok settings =>
          let settings := options.apply settings
          report file options.dumpTree settings (.ofSource text settings Host.standard)

def tokenLine (token : Token) : String :=
  s!"{token.line}:{token.column}\t{token.kind.text}\t{token.lexeme}\n"

def runTokens (files : FileView) (file : String) : RunOutcome :=
  match (files (.ofText file)).read with
  | .error fault => .failure file [] (unreadableText file fault)
  | .ok text =>
      match (SourceUnit.user text false).tokens with
      | .error e => .failure file [] e.message
      | .ok listed => { exitCode := 0, output := String.join (listed.map tokenLine) }

def run (files : FileView) : Command → RunOutcome
  | check file options => runCheck files file options
  | tokens file => runTokens files file
  | version => { exitCode := 0, output := versionText ++ "\n" }
  | help topic => { exitCode := 0, output := topic.text }

-- The paths that the command may look at.
def paths : Command → List PathName
  | check file options =>
      .ofText file ::
        match options.settingsFile with
        | some path => [.ofText path]
        | none =>
            (Settings.startOf (.ofText file)).outward.flatMap fun directory =>
              [directory.child Settings.fileName, directory.child ".git"]
  | tokens file => [.ofText file]
  | version | help _ => []

end Command

-- Runs the program on its arguments.
def runArguments (files : FileView) (arguments : List String) : RunOutcome :=
  match Command.ofArguments arguments with
  | some command => command.run files
  | none => .wrongUsage

end MiLanguage
