set_option autoImplicit false

namespace MiLanguage

-- The standard library, read before every user text. Its last statement ends its privileges.
def librarySource : String := "\n".intercalate [
  "pub const string MI_VERSION = \"0.1.0\";",
  "",
  "module std \x7b",
  "    pub nat fn println~ (string s) -> \"mi.std.Std\";",
  "    pub nat fn print~ (string s) -> \"mi.std.Std\";",
  "    pub nat fn println~ (int i) -> \"mi.std.Std\";",
  "    pub nat fn print~ (int i) -> \"mi.std.Std\";",
  "    pub nat fn println~ (double d) -> \"mi.std.Std\";",
  "    pub nat fn print~ (double d) -> \"mi.std.Std\";",
  "    pub nat fn println~ (float f) -> \"mi.std.Std\";",
  "    pub nat fn print~ (float f) -> \"mi.std.Std\";",
  "    pub nat fn println~ (long l) -> \"mi.std.Std\";",
  "    pub nat fn print~ (long l) -> \"mi.std.Std\";",
  "    pub nat fn println~ (bool b) -> \"mi.std.Std\";",
  "    pub nat fn print~ (bool b) -> \"mi.std.Std\";",
  "    pub nat fn println~ (char c) -> \"mi.std.Std\";",
  "    pub nat fn print~ (char c) -> \"mi.std.Std\";",
  "    pub nat fn sleep~ (long millis) -> \"mi.std.Std\";",
  "    pub nat fn random_uuid_long :: long () -> \"mi.std.Std\";",
  "\x7d",
  "",
  "module termion \x7b",
  "    pub nat fn color_fg :: string (int r, int g, int b) -> \"mi.std.Termion\";",
  "    pub nat fn color_bg :: string (int r, int g, int b) -> \"mi.std.Termion\";",
  "    pub nat fn color_fg :: string (string hex) -> \"mi.std.Termion\";",
  "    pub nat fn color_bg :: string (string hex) -> \"mi.std.Termion\";",
  "    pub nat fn reset :: string () -> \"mi.std.Termion\";",
  "\x7d",
  "",
  "STANDARDLIB_MI_FINISH_CODE;",
  ""]

end MiLanguage
