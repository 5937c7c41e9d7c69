/-!
# Tokens

A token is what it says (`Token.Kind`) and the line it ends on. A kind carries all of its
spelling, so the lexeme of a token is computed from it and cannot disagree with it.
-/

namespace LoxLang

/-- Punctuation and operators. -/
inductive Symbol
  | leftParen
  | rightParen
  | leftBrace
  | rightBrace
  | comma
  | dot
  | minus
  | plus
  | colon
  | semicolon
  | slash
  | star
  | questionMark
  | bang
  | bangEqual
  | equal
  | equalEqual
  | greater
  | greaterEqual
  | less
  | lessEqual
deriving Repr, DecidableEq

namespace Symbol

/-- The characters of a symbol. -/
def spelling : Symbol → String
  | leftParen => "("
  | rightParen => ")"
  | leftBrace => "\x7b"
  | rightBrace => "\x7d"
  | comma => ","
  | dot => "."
  | minus => "-"
  | plus => "+"
  | colon => ":"
  | semicolon => ";"
  | slash => "/"
  | star => "*"
  | questionMark => "?"
  | bang => "!"
  | bangEqual => "!="
  | equal => "="
  | equalEqual => "=="
  | greater => ">"
  | greaterEqual => ">="
  | less => "<"
  | lessEqual => "<="

/-- The name of a symbol in a listing. -/
def name : Symbol → String
  | leftParen => "LEFT_PAREN"
  | rightParen => "RIGHT_PAREN"
  | leftBrace => "LEFT_BRACE"
  | rightBrace => "RIGHT_BRACE"
  | comma => "COMMA"
  | dot => "DOT"
  | minus => "MINUS"
  | plus => "PLUS"
  | colon => "COLON"
  | semicolon => "SEMICOLON"
  | slash => "SLASH"
  | star => "STAR"
  | questionMark => "QUESTION_MARK"
  | bang => "BANG"
  | bangEqual => "BANG_EQUAL"
  | equal => "EQUAL"
  | equalEqual => "EQUAL_EQUAL"
  | greater => "GREATER"
  | greaterEqual => "GREATER_EQUAL"
  | less => "LESS"
  | lessEqual => "LESS_EQUAL"

/-- The symbol that is one given character. -/
def ofChar? : Char → Option Symbol
  | '(' => some leftParen
  | ')' => some rightParen
  | '\x7b' => some leftBrace
  | '\x7d' => some rightBrace
  | ',' => some comma
  | '.' => some dot
  | '-' => some minus
  | '+' => some plus
  | ':' => some colon
  | ';' => some semicolon
  | '/' => some slash
  | '*' => some star
  | '?' => some questionMark
  | '!' => some bang
  | '=' => some equal
  | '>' => some greater
  | '<' => some less
  | _ => none

/-- The symbol that a following `=` turns this one into. -/
def withEqual? : Symbol → Option Symbol
  | bang => some bangEqual
  | equal => some equalEqual
  | greater => some greaterEqual
  | less => some lessEqual
  | _ => none

end Symbol

/-- The reserved words. -/
inductive Keyword
  | andWord
  | breakWord
  | classWord
  | elseWord
  | falseWord
  | funWord
  | forWord
  | ifWord
  | nilWord
  | orWord
  | printWord
  | returnWord
  | superWord
  | thisWord
  | traitWord
  | trueWord
  | varWord
  | whileWord
  | withWord
deriving Repr, DecidableEq

namespace Keyword

/-- The letters of a reserved word. -/
def spelling : Keyword → String
  | andWord => "and"
  | breakWord => "break"
  | classWord => "class"
  | elseWord => "else"
  | falseWord => "false"
  | funWord => "fun"
  | forWord => "for"
  | ifWord => "if"
  | nilWord => "nil"
  | orWord => "or"
  | printWord => "print"
  | returnWord => "return"
  | superWord => "super"
  | thisWord => "this"
  | traitWord => "trait"
  | trueWord => "true"
  | varWord => "var"
  | whileWord => "while"
  | withWord => "with"

/-- The name of a reserved word in a listing. -/
def name : Keyword → String
  | andWord => "AND"
  | breakWord => "BREAK"
  | classWord => "CLASS"
  | elseWord => "ELSE"
  | falseWord => "FALSE"
  | funWord => "FUN"
  | forWord => "FOR"
  | ifWord => "IF"
  | nilWord => "NIL"
  | orWord => "OR"
  | printWord => "PRINT"
  | returnWord => "RETURN"
  | superWord => "SUPER"
  | thisWord => "THIS"
  | traitWord => "TRAIT"
  | trueWord => "TRUE"
  | varWord => "VAR"
  | whileWord => "WHILE"
  | withWord => "WITH"

/-- The reserved word with the given letters. -/
def ofSpelling? : String → Option Keyword
  | "and" => some andWord
  | "break" => some breakWord
  | "class" => some classWord
  | "else" => some elseWord
  | "false" => some falseWord
  | "fun" => some funWord
  | "for" => some forWord
  | "if" => some ifWord
  | "nil" => some nilWord
  | "or" => some orWord
  | "print" => some printWord
  | "return" => some returnWord
  | "super" => some superWord
  | "this" => some thisWord
  | "trait" => some traitWord
  | "true" => some trueWord
  | "var" => some varWord
  | "while" => some whileWord
  | "with" => some withWord
  | _ => none

end Keyword

/-- The two marks a text literal can stand between. -/
inductive Quote
  | single
  | double
deriving Repr, DecidableEq

namespace Quote

/-- The character of a quotation mark. -/
def char : Quote → Char
  | single => '\''
  | double => '"'

/-- The quotation mark that is a given character. -/
def ofChar? : Char → Option Quote
  | '\'' => some single
  | '"' => some double
  | _ => none

end Quote

namespace Token

/-- What a token is, with everything that its spelling shows. -/
inductive Kind
  | symbol (symbol : Symbol)
  | keyword (keyword : Keyword)
  | identifier (name : String)
  | text (quote : Quote) (contents : String)
  | number (spelling : String) (value : Float)
  | eof
deriving Repr

namespace Kind

/-- The characters of a token. -/
def lexeme : Kind → String
  | symbol s => s.spelling
  | keyword k => k.spelling
  | identifier name => name
  | text quote contents => quote.char.toString ++ contents ++ quote.char.toString
  | number spelling _ => spelling
  | eof => ""

/-- The name of a kind in a listing. -/
def name : Kind → String
  | symbol s => s.name
  | keyword k => k.name
  | identifier _ => "IDENTIFIER"
  | text _ _ => "STRING"
  | number _ _ => "NUMBER"
  | eof => "EOF"

end Kind

end Token

/-- A token and the line on which it ends. -/
structure Token where
  kind : Token.Kind
  line : Nat
deriving Repr

namespace Token

/-- The characters of a token. -/
def lexeme (t : Token) : String :=
  t.kind.lexeme

/-- Whether this is the mark at the end of the source. -/
def isEof (t : Token) : Bool :=
  match t.kind with
  | .eof => true
  | _ => false

end Token

end LoxLang
