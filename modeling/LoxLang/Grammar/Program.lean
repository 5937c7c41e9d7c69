import LoxLang.Grammar.Rules

/-!
# Reading a whole text

A text is read as a program or as a single expression. All problems found are answered
together, in the order in which they were met; only a text without any has a tree.
-/

namespace LoxLang

/-- The tree of a text or all its problems, and the next free reference. -/
structure Reading (α : Type) where
  result : Except (List Grammar.Problem) α
  nextId : RefId

namespace Grammar

/-- Declarations up to the end, each read with the given budget. -/
def declarations (budget : Nat) : Nat → Rule (List Stmt)
  | 0 => return []
  | more + 1 => do
    if ← atEnd then return []
    else
      let first ← ruleAt budget .declaration
      return first.toList ++ (← declarations budget more)

/-- A whole program. -/
def program (budget : Nat) : Rule (List Stmt) :=
  declarations budget budget

/-- An expression with nothing behind it. -/
def wholeExpression (budget : Nat) : Rule Expr := do
  let e ← ruleAt budget .expression
  if ← atEnd then return e
  else failHere .missingEnd

/-- Read a text by a rule that is given a budget above the number of tokens. -/
def read {α : Type} (rule : Nat → Rule α) (tokens : List Token) (nextId : RefId) :
    Reading α :=
  match rule (tokens.length + 1) (Cursor.ofTokens tokens nextId) with
  | .ok a c =>
    match c.problems with
    | [] => ⟨.ok a, c.nextId⟩
    | problems => ⟨.error problems, c.nextId⟩
  | .error problem c => ⟨.error (c.problems ++ [problem]), c.nextId⟩

end Grammar

/-- Read tokens as a program. -/
def readProgram (tokens : List Token) (nextId : RefId) : Reading (List Stmt) :=
  Grammar.read Grammar.program tokens nextId

/-- Read tokens as a single expression. -/
def readExpression (tokens : List Token) (nextId : RefId) : Reading Expr :=
  Grammar.read Grammar.wholeExpression tokens nextId

end LoxLang
