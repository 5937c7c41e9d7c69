import LoxLang.Lexical.Item

/-!
# Scanning item by item

A scanner gives the items of a source one at a time, on demand, and nothing more once it has given
the end mark. What it gives are the items of `scan` (`Scanner.nth_start`).
-/

namespace LoxLang

/-- The bytes that are left, the line of the last byte before them, and whether the end mark has
been given. -/
structure Scanner where
  rest : List UInt8
  line : Nat
  finished : Bool

namespace Scanner

/-- The scanner before anything is scanned. -/
def start (source : List UInt8) : Scanner :=
  ⟨source, 1, false⟩

/-- The first item of a source that follows text with its last byte on the given line, and the
scanner behind it. -/
def first (line : Nat) (source : List UInt8) : Item × Scanner :=
  match source with
  | [] => (.token ⟨.eof, line⟩, ⟨[], line, true⟩)
  | b :: rest =>
    let next := Tile.classify b rest
    let line := line + next.newlines
    match next.content with
    | .token kind => (.token ⟨kind, line⟩, ⟨rest.drop next.length, line, false⟩)
    | .skipped => first line (rest.drop next.length)
    | .fault f => (.fault line f, ⟨rest.drop next.length, line, false⟩)
termination_by source.length
decreasing_by
  simp only [List.length_drop, List.length_cons]
  omega

/-- The next item, if there is one, and the scanner behind it. -/
def next (s : Scanner) : Option Item × Scanner :=
  if s.finished then (none, s)
  else
    let found := first s.line s.rest
    (some found.1, found.2)

/-- What a scanner gives when it is asked once more than the given number of times. -/
def nth (s : Scanner) : Nat → Option Item
  | 0 => s.next.1
  | n + 1 => s.next.2.nth n

/-- The items that a scanner has yet to give. -/
def items (s : Scanner) : List Item :=
  if s.finished then [] else Item.ofTiles s.line (tiles s.rest)

/-- The first item comes from the first tile that is not skipped. -/
theorem items_first (line : Nat) (source : List UInt8) :
    Item.ofTiles line (tiles source) = (first line source).1 :: (first line source).2.items := by
  induction hlength : source.length using Nat.strongRecOn generalizing line source with
  | ind n ih =>
    cases source with
    | nil =>
      unfold first
      rfl
    | cons b rest =>
      unfold first tiles Tile.tilesAfter Item.ofTiles
      rw [Tile.tilesAfter_eq_drop]
      unfold Tile.Cut.tile
      cases hcontent : (Tile.classify b rest).content with
      | token kind =>
        simp only [hcontent]
        rfl
      | skipped =>
        simp only [hcontent]
        refine ih (rest.drop (Tile.classify b rest).length).length ?_ _ _ rfl
        rw [← hlength, List.length_drop, List.length_cons]
        omega
      | fault f =>
        simp only [hcontent]
        rfl

/-- A scanner gives the first of its items and keeps the others. -/
theorem next_eq (s : Scanner) : s.next.1 = s.items.head? ∧ s.next.2.items = s.items.tail := by
  unfold next
  split
  · next hfinished => simp [items, hfinished]
  · next hfinished =>
    have hitems : s.items = (first s.line s.rest).1 :: (first s.line s.rest).2.items := by
      rw [← items_first, items, if_neg hfinished]
    rw [hitems]
    exact ⟨rfl, rfl⟩

theorem nth_eq (s : Scanner) (n : Nat) : s.nth n = s.items[n]? := by
  induction n generalizing s with
  | zero => rw [nth, s.next_eq.1, List.head?_eq_getElem?]
  | succ n ih => rw [nth, ih, s.next_eq.2, List.getElem?_tail]

/-- A scanner gives the items of its source, and then nothing. -/
theorem nth_start (source : List UInt8) (n : Nat) : (start source).nth n = (scan source)[n]? :=
  nth_eq (start source) n

end Scanner

end LoxLang
