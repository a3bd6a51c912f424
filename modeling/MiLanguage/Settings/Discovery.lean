import MiLanguage.Files.Tree
import MiLanguage.Settings.Basic
import MiLanguage.Settings.Toml

set_option autoImplicit false

namespace MiLanguage

inductive SettingsFault where
  | invalid
  | unreadable (fault : FileFault)
  deriving DecidableEq, Repr

def SettingsFault.message : SettingsFault → String
  | invalid => "mi.toml: invalid syntax"
  | unreadable fault => "mi.toml: could not read file: " ++ fault.message

/-- What a settings file gives: some settings by name, or the first ones in their order. -/
inductive GivenSettings where
  | named (entries : List (List String × Toml))
  | ordered (values : List Toml)

namespace GivenSettings

-- A line under the header.
def plain? : TomlLine → Option (List String × Toml)
  | .entry path value => some (path, value)
  | _ => none

-- A line without a header, which has to name the table itself.
def dotted? : TomlLine → Option (List String × Toml)
  | .entry ("analyzer" :: path) value => some (path, value)
  | _ => none

def ofLines? : List TomlLine → Option GivenSettings
  | [.entry ["analyzer"] (.table entries)] => some (.named entries)
  | [.entry ["analyzer"] (.array values)] => some (.ordered values)
  | .header ["analyzer"] :: lines => (lines.mapM plain?).map .named
  | lines => (lines.mapM dotted?).map .named

end GivenSettings

namespace Settings

def names : List String := ["stdlib", "deny_warnings", "max_errors"]

def set? (settings : Settings) (name : String) (value : Toml) : Option Settings :=
  match name, value with
  | "stdlib", .boolean b => some { settings with withLibrary := b }
  | "deny_warnings", .boolean b => some { settings with denyWarnings := b }
  | "max_errors", .integer (.ofNat n) => some { settings with maxErrors := n }
  | _, _ => none

def setAll? (settings : Settings) : List (String × Toml) → Option Settings
  | [] => some settings
  | (name, value) :: rest => do (← settings.set? name value).setAll? rest

-- A path of one name stands for a setting, and no other path does.
def named? (entries : List (List String × Toml)) : Option (List (String × Toml)) :=
  entries.mapM fun (path, value) =>
    match path with
    | [name] => some (name, value)
    | _ => none

-- Settings that are not given have their usual values. Values in order beyond the last setting are
-- passed over.
def ofGiven? : GivenSettings → Option Settings
  | .named entries => do
      let entries ← named? entries
      if (entries.map Prod.fst).Nodup then setAll? {} entries else none
  | .ordered values => setAll? {} (names.zip values)

-- Reads the text of a settings file.
def ofText (text : String) : Except SettingsFault Settings :=
  match Toml.read text >>= GivenSettings.ofLines? >>= ofGiven? with
  | some settings => .ok settings
  | none => .error .invalid

-- Reads the settings file at a path.
def load (files : FileView) (path : PathName) : Except SettingsFault Settings :=
  match (files path).read with
  | .ok text => ofText text
  | .error fault => .error (.unreadable fault)

end Settings

namespace Settings

def fileName : String := "mi.toml"

-- The first of the directories with a settings file in it. Where a repository has its root, the
-- search ends.
def firstFile? (files : FileView) : List PathName → Option PathName
  | [] => none
  | directory :: others =>
      if (files (directory.child fileName)).isFile then some (directory.child fileName)
      else if (files (directory.child ".git")).isPresent then none
      else firstFile? files others

-- The settings file that governs a directory: its own, or else one in the directories that the path
-- comes to by leaving off its last steps.
def find? (files : FileView) (directory : PathName) : Option PathName :=
  firstFile? files directory.outward

-- Where the search for the settings of a source file starts.
def startOf (source : PathName) : PathName :=
  match source.parent? with
  | some directory => if directory.isEmpty then .here else directory
  | none => .here

-- The settings for a source file.
def forSource (files : FileView) (source : PathName) : Except SettingsFault Settings :=
  match find? files (startOf source) with
  | some path => load files path
  | none => .ok {}

end Settings

end MiLanguage
