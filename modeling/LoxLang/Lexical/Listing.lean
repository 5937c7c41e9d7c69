import LoxLang.Lexical.Token
import LoxLang.Number.Layout
import LoxLang.Text.Quoted

/-!
# Listings of tokens

A token is listed as its name, its lexeme and its literal, or as an object of JSON. A list of
tokens is an array of JSON, indented by two spaces a level.
-/

namespace LoxLang.Token

/-- The literal that a listing shows. -/
def literal (t : Token) : String :=
  match t.kind with
  | .text _ contents => contents
  | .number _ value => Number.listing value
  | _ => "null"

/-- One line of a listing. -/
def listing (t : Token) : String :=
  t.kind.name ++ " " ++ t.lexeme ++ " " ++ t.literal

/-- The indentation at a level of nesting. -/
def indent (level : Nat) : String :=
  String.ofList (List.replicate (2 * level) ' ')

/-- An object of JSON whose members are on lines of their own, at the given level. -/
def object (level : Nat) (members : List (String × String)) : String :=
  let lines := members.map fun member =>
    indent (level + 1) ++ Quoted.encode member.1 ++ ": " ++ member.2
  "\x7b\n" ++ ",\n".intercalate lines ++ "\n" ++ indent level ++ "\x7d"

/-- The kind of a token in JSON: its name, with the payload if it has one. -/
def kindJson (level : Nat) (kind : Kind) : String :=
  match kind with
  | .text _ contents => object level [(kind.name, Quoted.encode contents)]
  | .number _ value => object level [(kind.name, Number.json value)]
  | _ => Quoted.encode kind.name

/-- A token as an object of JSON. -/
def json (level : Nat) (t : Token) : String :=
  object level
    [("token_type", kindJson (level + 1) t.kind), ("lexeme", Quoted.encode t.lexeme),
     ("line", Nat.repr t.line)]

/-- A list of tokens as an array of JSON. -/
def jsonArray (tokens : List Token) : String :=
  match tokens with
  | [] => "[]"
  | _ =>
    "[\n" ++ ",\n".intercalate (tokens.map fun t => indent 1 ++ t.json 1) ++ "\n]"

end LoxLang.Token
