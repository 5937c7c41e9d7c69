import LoxLang.Lexical.Tile

/-!
# The items of a source

Scanning turns the tiles of a source into items: tokens and faults, each with the line on
which its tile ends, closed by exactly one token for the end of the source.
-/

namespace LoxLang

/-- A token, or a fault and its line. -/
inductive Item
  | token (token : Token)
  | fault (line : Nat) (fault : LexicalFault)
deriving Repr

namespace Item

/-- The items of tiles that follow text with its last byte on the given line. -/
def ofTiles (line : Nat) : List Tile → List Item
  | [] => [.token ⟨.eof, line⟩]
  | tile :: tiles =>
    let line := line + tile.newlines
    match tile.content with
    | .token kind => .token ⟨kind, line⟩ :: ofTiles line tiles
    | .skipped => ofTiles line tiles
    | .fault f => .fault line f :: ofTiles line tiles

/-- The token of an item that is one. -/
def token? : Item → Option Token
  | token t => some t
  | fault _ _ => none

/-- The fault of an item that is one, with its line. -/
def fault? : Item → Option (Nat × LexicalFault)
  | token _ => none
  | fault line f => some (line, f)

end Item

/-- The items of a source, in order. -/
def scan (source : List UInt8) : List Item :=
  Item.ofTiles 1 (tiles source)

/-- The tokens of a source, the end mark included. -/
def tokensOf (source : List UInt8) : List Token :=
  (scan source).filterMap Item.token?

/-- The faults of a source and their lines. -/
def faultsOf (source : List UInt8) : List (Nat × LexicalFault) :=
  (scan source).filterMap Item.fault?

end LoxLang
