import LoxLang.Lexical.Token
import LoxLang.Text.Utf8

/-!
# Tiling the source

`tiles` cuts source bytes into consecutive tiles. Each is a token, something to skip (a blank
or a comment), or a fault. `Tile.classify` looks at the first byte and at what follows it and
says what the tile is and how many of the following bytes belong to it; the tiling then
covers those bytes and goes on behind them. So the tiles always join up to the source
(`flatMap_bytes_tiles`), whatever `classify` answers. Where it passes over newlines, which are
blanks themselves or stand in comments and texts, it counts them.
-/

namespace LoxLang

/-- Why a stretch of source is no token. -/
inductive LexicalFault
  | unexpected (text : String)
  | unterminatedText
  | unterminatedComment
deriving Repr, DecidableEq

namespace LexicalFault

/-- The wording of a fault; one unexpected character is named as such. -/
def message : LexicalFault → String
  | unexpected text =>
    if text.length = 1 then "Unexpected character '" ++ text ++ "'."
    else "Unexpected characters \"" ++ text ++ "\"."
  | unterminatedText => "Unterminated string."
  | unterminatedComment => "Unterminated block comment; reached end of input."

end LexicalFault

namespace Tile

/-- What a tile is. -/
inductive Content
  | token (kind : Token.Kind)
  | skipped
  | fault (fault : LexicalFault)
deriving Repr

/-- What begins at a byte, how many bytes behind it belong to that, and how many newlines have been
counted in it. -/
structure Cut where
  content : Content
  length : Nat
  newlines : Nat
deriving Repr

end Tile

/-- A stretch of source, what it is, and the number of newlines counted in it. -/
structure Tile where
  content : Tile.Content
  bytes : List UInt8
  newlines : Nat
deriving Repr

/-- The byte of an ASCII character. -/
def byte (c : Char) : UInt8 := c.toUInt8

namespace Tile

/-- The character of an ASCII byte; a byte beyond ASCII stands for no character of the
language. -/
def ascii? (b : UInt8) : Option Char :=
  if b < 0x80 then some (Char.ofUInt8 b) else none

/-- The digits `0` to `9`. -/
def isDigit (b : UInt8) : Bool :=
  byte '0' ≤ b && b ≤ byte '9'

/-- The ASCII letters and the underscore. -/
def startsWord (b : UInt8) : Bool :=
  (byte 'a' ≤ b && b ≤ byte 'z') || (byte 'A' ≤ b && b ≤ byte 'Z') || b == byte '_'

/-- What a word consists of. -/
def isWordByte (b : UInt8) : Bool :=
  startsWord b || isDigit b

/-- Space, tab, carriage return and newline. -/
def isBlankByte (b : UInt8) : Bool :=
  b == byte ' ' || b == byte '\t' || b == byte '\r' || b == byte '\n'

/-- The symbol that one byte stands for. -/
def symbol? (b : UInt8) : Option Symbol :=
  (ascii? b).bind Symbol.ofChar?

/-- The quotation mark that one byte stands for. -/
def quote? (b : UInt8) : Option Quote :=
  (ascii? b).bind Quote.ofChar?

/-- Whether a tile other than a fault for unexpected characters can begin with the byte. -/
def startsTile (b : UInt8) : Bool :=
  (symbol? b).isSome || (quote? b).isSome || isWordByte b || isBlankByte b

/-- How many bytes at the front satisfy a condition. -/
def countWhile (p : UInt8 → Bool) : List UInt8 → Nat
  | [] => 0
  | b :: rest => if p b then countWhile p rest + 1 else 0

/-- The number of bytes up to the first `*/`, which counts, if there is one. -/
def commentLength? : List UInt8 → Option Nat
  | [] => none
  | b :: rest =>
    if b == byte '*' && rest.head? == some (byte '/') then some 2
    else (commentLength? rest).map (· + 1)

/-- The number of bytes after the first digit that belong to a number: more digits, and a
point with at least one digit behind it. -/
def numberLength (rest : List UInt8) : Nat :=
  let whole := countWhile isDigit rest
  match rest.drop whole with
  | point :: digit :: more =>
    if point == byte '.' && isDigit digit then whole + 2 + countWhile isDigit more else whole
  | _ => whole

/-- The natural number that a row of digits writes. -/
def digitsValue (digits : List UInt8) : Nat :=
  digits.foldl (fun n d => n * 10 + (d.toNat - (byte '0').toNat)) 0

/-- The number that a literal writes, rounded to the nearest. -/
def numberValue (spelling : List UInt8) : Float :=
  let whole := spelling.takeWhile isDigit
  let decimals := (spelling.dropWhile isDigit).drop 1
  Float.ofScientific (digitsValue (whole ++ decimals)) true decimals.length

/-- The token that a word is. -/
def wordKind (spelling : List UInt8) : Token.Kind :=
  let word := Utf8.decode spelling
  match Keyword.ofSpelling? word with
  | some keyword => .keyword keyword
  | none => .identifier word

/-- The number of newlines that are counted in bytes. -/
def countNewlines (bytes : List UInt8) : Nat :=
  bytes.foldl (fun n b => if b == byte '\n' then n + 1 else n) 0

/-- The tile of a symbol: the longer one where an `=` follows. -/
def classifySymbol (symbol : Symbol) (rest : List UInt8) : Cut :=
  match symbol.withEqual? with
  | some longer =>
    if rest.head? == some (byte '=') then ⟨.token (.symbol longer), 1, 0⟩
    else ⟨.token (.symbol symbol), 0, 0⟩
  | none => ⟨.token (.symbol symbol), 0, 0⟩

/-- The tile that begins with a slash: a comment to the end of the line, a comment between
`/*` and `*/`, or the operator. The newline behind a comment to the end of the line is left for the
next tile. -/
def classifySlash (rest : List UInt8) : Cut :=
  match rest with
  | [] => ⟨.token (.symbol .slash), 0, 0⟩
  | next :: more =>
    if next == byte '/' then ⟨.skipped, countWhile (· != byte '\n') rest, 0⟩
    else if next == byte '*' then
      match commentLength? more with
      | some length => ⟨.skipped, length + 1, countNewlines (more.take length)⟩
      | none => ⟨.fault .unterminatedComment, rest.length, countNewlines more⟩
    else ⟨.token (.symbol .slash), 0, 0⟩

/-- The tile that begins with a quotation mark: everything up to the next such mark. -/
def classifyText (quote : Quote) (rest : List UInt8) : Cut :=
  let length := countWhile (· != byte quote.char) rest
  let newlines := countNewlines (rest.take length)
  if length < rest.length then
    ⟨.token (.text quote (Utf8.decode (rest.take length))), length + 1, newlines⟩
  else ⟨.fault .unterminatedText, rest.length, newlines⟩

/-- What the tile beginning with byte `b` is, and how many bytes of `rest` it covers. -/
def classify (b : UInt8) (rest : List UInt8) : Cut :=
  if isBlankByte b then ⟨.skipped, 0, if b == byte '\n' then 1 else 0⟩
  else if isDigit b then
    let length := numberLength rest
    let spelling := b :: rest.take length
    ⟨.token (.number (Utf8.decode spelling) (numberValue spelling)), length, 0⟩
  else if startsWord b then
    let length := countWhile isWordByte rest
    ⟨.token (wordKind (b :: rest.take length)), length, 0⟩
  else
    match quote? b with
    | some quote => classifyText quote rest
    | none =>
      match symbol? b with
      | some .slash => classifySlash rest
      | some symbol => classifySymbol symbol rest
      | none =>
        let length := countWhile (fun c => !startsTile c) rest
        ⟨.fault (.unexpected (Utf8.decode (b :: rest.take length))), length, 0⟩

/-- The tile that is cut off a source at its first byte. -/
def Cut.tile (cut : Cut) (b : UInt8) (rest : List UInt8) : Tile :=
  ⟨cut.content, b :: rest.take cut.length, cut.newlines⟩

/-- The tiles of a source of which the first bytes are already covered. -/
def tilesAfter : Nat → List UInt8 → List Tile
  | _, [] => []
  | covered + 1, _ :: rest => tilesAfter covered rest
  | 0, b :: rest =>
    let next := classify b rest
    next.tile b rest :: tilesAfter next.length rest

end Tile

/-- The tiles of a source, in order. -/
def tiles (source : List UInt8) : List Tile :=
  Tile.tilesAfter 0 source

theorem Tile.tilesAfter_eq_drop (n : Nat) (source : List UInt8) :
    Tile.tilesAfter n source = Tile.tilesAfter 0 (source.drop n) := by
  induction source generalizing n with
  | nil => simp [tilesAfter]
  | cons b rest ih =>
    cases n with
    | zero => rfl
    | succ n => simpa [tilesAfter] using ih n

/-- The tiles join up to the source. -/
theorem flatMap_bytes_tiles (source : List UInt8) :
    (tiles source).flatMap Tile.bytes = source := by
  suffices h : ∀ n, (Tile.tilesAfter n source).flatMap Tile.bytes = source.drop n from h 0
  induction source with
  | nil => simp [Tile.tilesAfter]
  | cons b rest ih =>
    intro n
    cases n with
    | zero => simp [Tile.tilesAfter, Tile.Cut.tile, ih]
    | succ n => simpa [Tile.tilesAfter] using ih n

end LoxLang
