import MiLanguage.Host.Class

set_option autoImplicit false

namespace MiLanguage

def printable : List Primitive := [.string, .int, .long, .double, .float, .bool, .char]

def stdClass : HostClass where
  name := "mi.std.Std"
  methods :=
    (printable.flatMap fun p =>
      [{ name := "print", params := [⟨.boxed p, false⟩], returns := .void,
         action := .print false },
       { name := "println", params := [⟨.boxed p, false⟩], returns := .void,
         action := .print true }]) ++
    [{ name := "sleep", params := [⟨.boxed .long, false⟩], returns := .void, action := .sleep },
     { name := "random_uuid_long", params := [], returns := .boxed .long, returnsNonnull := true,
       action := .randomLong }]

def termionMethod (name : String) (types : List Primitive) (action : HostAction) : HostMethod where
  name := name
  params := types.map fun p => ⟨.boxed p, false⟩
  returns := .boxed .string
  returnsNonnull := true
  action := action

def termionClass : HostClass where
  name := "mi.std.Termion"
  methods :=
    [termionMethod "color_fg" [.int, .int, .int] (.colorChannels .foreground),
     termionMethod "color_fg" [.string] (.colorHex .foreground),
     termionMethod "color_bg" [.int, .int, .int] (.colorChannels .background),
     termionMethod "color_bg" [.string] (.colorHex .background),
     termionMethod "reset" [] .resetStyle]

-- The classes behind the standard library's native functions.
def Host.standard : Host := .ofClasses [stdClass, termionClass]

end MiLanguage
