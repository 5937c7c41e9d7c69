import LoxLang.Tree.Basic
import Std.Data.TreeMap

/-!
# Bindings

A binding says where the value of a local variable is kept at run time: how many frames out
from the current one, and in which slot of that frame.
-/

namespace LoxLang

/-- The frame, counted outward, and the slot of a local variable. -/
structure Binding where
  depth : Nat
  slot : Nat
deriving Repr, DecidableEq

/-- The bindings of the occurrences that denote local variables. -/
abbrev Bindings := Std.TreeMap RefId Binding

namespace Bindings

/-- No binding. -/
def none : Bindings := Std.TreeMap.empty

/-- The bindings of both tables; those of `added` count where both have one. -/
def merge (table added : Bindings) : Bindings :=
  added.foldl (fun table id binding => table.insert id binding) table

end Bindings

end LoxLang
