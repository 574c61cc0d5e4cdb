import Lox.Json
import Lox.Token

/-!
# Tokens as JSON

A token is an object of its kind, its lexeme and its line. The kind is its name, or for strings
and numbers an object from the name to what the token stands for.
-/

namespace Lox

/-- Numbers have their shortest digits, a tie going to the even one; from `10 ^ 16` and below
    `10 ^ -5` they are written with an exponent and its sign. -/
def Layout.json : Layout where
  positional e := -5 ≤ e && e ≤ 15
  wholeSuffix := ".0"
  singleSuffix := ""
  raised := "e+"
  lowered := "e-"

/-- A number as JSON, which has no infinities. -/
def Json.ofFloat (x : Float) : Json :=
  match Double.ofFloat x with
  | .nan | .infinite _ => .null
  | .finite negative magnitude =>
    .number ((if negative then "-" else "") ++ (magnitude.shortest .toEven).text .json)

namespace TokenKind

/-- A kind as JSON. -/
def json (kind : TokenKind) : Json :=
  match kind with
  | .string contents => .object [(kind.name, .string contents)]
  | .number value => .object [(kind.name, .ofFloat value)]
  | _ => .string kind.name

end TokenKind

namespace Token

/-- A token as JSON. -/
def json (t : Token) : Json :=
  .object
    [("token_type", t.kind.json), ("lexeme", .string t.lexeme),
      ("line", .number (toString t.line))]

end Token

end Lox
