import LoxLang.Grammar.Problem
import LoxLang.Tree.Basic

/-!
# Reading tokens

A rule of the grammar reads tokens off a `Cursor`. It either finds a tree or fails with one
problem; the cursor stands where it got to in both cases, so that reading can go on after a
problem (`recover`). Problems that do not stop a rule are added to those of the cursor.
-/

namespace LoxLang

namespace Grammar

/-- The tokens still to be read, the line of the end of the text, the number of loops around
the present place within its function, the next free reference, and the problems so far. -/
structure Cursor where
  rest : List Token
  endLine : Nat
  loopDepth : Nat
  nextId : RefId
  problems : List Problem

/-- A rule of the grammar. -/
abbrev Rule := EStateM Problem Cursor

/-- The token at the cursor; behind the last one stands the end mark. -/
def Cursor.peek (c : Cursor) : Token :=
  match c.rest with
  | token :: _ => token
  | [] => ⟨.eof, c.endLine⟩

/-- The token at the cursor. -/
def peek : Rule Token := fun c =>
  .ok c.peek c

/-- Step over a token. -/
def advance : Rule Unit := fun c =>
  .ok () { c with rest := c.rest.tail }

/-- Whether nothing is left. -/
def atEnd : Rule Bool := fun c =>
  .ok c.rest.isEmpty c

/-- The number of loops around the present place. -/
def loopDepth : Rule Nat := fun c =>
  .ok c.loopDepth c

/-- A reference that no other occurrence has. -/
def freshId : Rule RefId := fun c =>
  .ok c.nextId { c with nextId := c.nextId + 1 }

/-- Record a problem and go on. -/
def note (problem : Problem) : Rule Unit := fun c =>
  .ok () { c with problems := c.problems ++ [problem] }

/-- Fail at the token at the cursor. -/
def failHere {α : Type} (cause : Cause) : Rule α := fun c =>
  .error ⟨c.peek, cause⟩ c

/-- Whether a token is a given symbol. -/
def isSymbol (symbol : Symbol) (token : Token) : Bool :=
  match token.kind with
  | .symbol s => s == symbol
  | _ => false

/-- Whether a token is a given reserved word. -/
def isWord (word : Keyword) (token : Token) : Bool :=
  match token.kind with
  | .keyword k => k == word
  | _ => false

/-- Whether a given symbol is at the cursor. -/
def atSymbol (symbol : Symbol) : Rule Bool := do
  return isSymbol symbol (← peek)

/-- Step over a symbol if it is at the cursor. -/
def accept (symbol : Symbol) : Rule Bool := do
  if ← atSymbol symbol then
    advance
    return true
  else return false

/-- Step over a reserved word if it is at the cursor. -/
def acceptWord (word : Keyword) : Rule Bool := do
  if isWord word (← peek) then
    advance
    return true
  else return false

/-- Step over the symbol that has to be at the cursor; its line. -/
def expect (landmark : Landmark) : Rule Nat := do
  let token ← peek
  if isSymbol landmark.symbol token then
    advance
    return token.line
  else failHere (.missing landmark)

/-- Step over the name that has to be at the cursor. -/
def expectName (role : NameRole) : Rule Name := do
  let token ← peek
  match token.kind with
  | .identifier name =>
    advance
    return ⟨name, token.line⟩
  | _ => failHere (.missingName role)

/-- Read with another number of loops around, which is put back however reading ends. -/
def withLoopDepth {α : Type} (change : Nat → Nat) (rule : Rule α) : Rule α := fun c =>
  match rule { c with loopDepth := change c.loopDepth } with
  | .ok a c' => .ok a { c' with loopDepth := c.loopDepth }
  | .error problem c' => .error problem { c' with loopDepth := c.loopDepth }

/-- The reserved words that begin a statement. -/
def startsStatement (token : Token) : Bool :=
  match token.kind with
  | .keyword .classWord => true
  | .keyword .traitWord => true
  | .keyword .funWord => true
  | .keyword .varWord => true
  | .keyword .forWord => true
  | .keyword .ifWord => true
  | .keyword .whileWord => true
  | .keyword .printWord => true
  | .keyword .returnWord => true
  | .keyword .breakWord => true
  | _ => false

/-- Drop tokens up to the next place where a statement may begin: one token at least, and
then on to the end, to just after a semicolon, or to a word that begins a statement. -/
def skipStatement : List Token → List Token
  | [] => []
  | token :: rest =>
    if isSymbol .semicolon token || rest.head?.any startsStatement then rest
    else skipStatement rest

/-- Read by a rule; where it fails, record the problem and drop the rest of the statement. -/
def recover {α : Type} (rule : Rule α) : Rule (Option α) := fun c =>
  match rule c with
  | .ok a c' => .ok (some a) c'
  | .error problem c' =>
    .ok none { c' with rest := skipStatement c'.rest, problems := c'.problems ++ [problem] }

/-- The cursor at the start of a token list. What follows the first end mark is never read; a
missing end mark is taken to stand on the line of the last token. -/
def Cursor.ofTokens (tokens : List Token) (nextId : RefId) : Cursor where
  rest := tokens.takeWhile fun t => !t.isEof
  endLine :=
    match tokens.find? Token.isEof with
    | some mark => mark.line
    | none => (tokens.getLast?.map Token.line).getD 1
  loopDepth := 0
  nextId := nextId
  problems := []

end Grammar

end LoxLang
