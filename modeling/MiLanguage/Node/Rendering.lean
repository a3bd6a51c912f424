import MiLanguage.Node.Basic
import MiLanguage.Text.Json

set_option autoImplicit false

namespace MiLanguage

namespace Node

mutual
-- The kind, then the lexeme and the children, in parentheses unless the kind stands alone.
def sexpr : Node → String
  | ⟨kind, none, [], _, _⟩ => kind.name
  | ⟨kind, none, child :: children, _, _⟩ =>
      "(" ++ kind.name ++ sexprAll (child :: children) ++ ")"
  | ⟨kind, some token, children, _, _⟩ =>
      "(" ++ kind.name ++ " " ++ token.lexeme ++ sexprAll children ++ ")"
def sexprAll : List Node → String
  | [] => ""
  | n :: ns => " " ++ sexpr n ++ sexprAll ns
end

end Node

def Datatype.json (t : Datatype) : Json :=
  .object [("kind", .string t.baseName), ("nullable", .bool t.nullable)]

namespace Node

mutual
-- The members of a node in the order kind, value, children, line, type; empty ones are left out.
def json : Node → Json
  | ⟨kind, token, children, line, type⟩ =>
      .object <|
        [("kind", .string kind.name)] ++
        (token.map fun t => ("value", Json.string t.lexeme)).toList ++
        (match jsonAll children with
          | [] => []
          | items => [("children", Json.array items)]) ++
        [("line", .number line)] ++
        (type.map fun t => ("ty", t.json)).toList
def jsonAll : List Node → List Json
  | [] => []
  | n :: ns => json n :: jsonAll ns
end

end Node

end MiLanguage
