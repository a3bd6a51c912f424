import MiLanguage.CommandLine.Run

set_option autoImplicit false

namespace MiLanguage

-- Failures to open a file have negative numbers, failures to read it positive ones.
def isCode (code number : UInt32) : Bool := code = number || code = -number

-- What stands at a path in the file system.
def lookAt (path : PathName) : IO FileEntry := do
  try
    let bytes ← IO.FS.readBinFile path.text
    match String.fromUTF8? bytes with
    | some contents => return .text contents
    | none => return .absent .badText
  catch e =>
    match e with
    | .noFileOrDirectory .. => return .absent .notFound
    | .inappropriateType _ code _ =>
        return if isCode code 21 then .directory else .absent .notDirectory
    | .invalidArgument _ code _ =>
        return .absent (if isCode code 36 then .nameTooLong else .other (toString e))
    | e => return .absent (.other (toString e))

end MiLanguage

open MiLanguage

def main (arguments : List String) : IO UInt32 := do
  let paths := (Command.ofArguments arguments).elim [] Command.paths
  let entries ← paths.mapM fun path => do return (path, ← lookAt path)
  let outcome := runArguments (fun path => (entries.lookup path).getD (.absent .notFound)) arguments
  IO.print outcome.output
  IO.eprint outcome.errors
  return outcome.exitCode.toUInt32
