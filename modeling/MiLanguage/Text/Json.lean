set_option autoImplicit false

namespace MiLanguage

/-- A JSON document. The members of an object keep their order. -/
inductive Json where
  | bool (b : Bool)
  | number (n : Nat)
  | string (s : String)
  | array (items : List Json)
  | object (members : List (String × Json))

namespace Json

def hexDigit (n : Nat) : Char := "0123456789abcdef".toList.getD n '0'

def escapeChar (c : Char) : List Char :=
  if c = '"' then ['\\', '"']
  else if c = '\\' then ['\\', '\\']
  else if c = '\x08' then ['\\', 'b']
  else if c = '\t' then ['\\', 't']
  else if c = '\n' then ['\\', 'n']
  else if c = '\x0c' then ['\\', 'f']
  else if c = '\r' then ['\\', 'r']
  else if c.toNat < 32 then
    ['\\', 'u', '0', '0', hexDigit (c.toNat / 16), hexDigit (c.toNat % 16)]
  else [c]

def quote (s : String) : String :=
  String.ofList ('"' :: (s.toList.flatMap escapeChar ++ ['"']))

def indentation (depth : Nat) : String := String.ofList (List.replicate (2 * depth) ' ')

mutual
-- One member or item a line, indented by two spaces a level.
def pretty (depth : Nat) : Json → String
  | bool b => if b then "true" else "false"
  | number n => toString n
  | string s => quote s
  | array [] => "[]"
  | array (item :: items) =>
      "[\n" ++ ",\n".intercalate (prettyItems (depth + 1) (item :: items)) ++ "\n" ++
        indentation depth ++ "]"
  | object [] => "\x7b\x7d"
  | object (member :: members) =>
      "\x7b\n" ++ ",\n".intercalate (prettyMembers (depth + 1) (member :: members)) ++ "\n" ++
        indentation depth ++ "\x7d"
def prettyItems (depth : Nat) : List Json → List String
  | [] => []
  | item :: items => (indentation depth ++ pretty depth item) :: prettyItems depth items
def prettyMembers (depth : Nat) : List (String × Json) → List String
  | [] => []
  | (key, value) :: members =>
      (indentation depth ++ quote key ++ ": " ++ pretty depth value) :: prettyMembers depth members
end

end Json

end MiLanguage
