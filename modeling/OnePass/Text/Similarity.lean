/-!
# Similarity of texts

Two texts are similar if they have many characters in common, at about the same places and in the
same order. Characters in common are *partners*. How similar the texts are is a number from 0, where
no character has a partner, to 1, where the texts are equal. It is a float, and rounding can
put one of two equal similarities first.
-/

namespace OnePass.Text

/-- A character and its place in a text. -/
abbrev Placed := Char × Nat

/-- Equal characters may be partners if their places are no further apart than `reach`. -/
def Placed.mayPair (reach : Nat) (x y : Placed) : Bool :=
  x.1 = y.1 ∧ x.2 ≤ y.2 + reach ∧ y.2 ≤ x.2 + reach

/-- The partners in two texts. The characters of the one text take, from left to right, the first
partner in the other text that is still free. -/
def partners (reach : Nat) : List Placed → List Placed → List (Placed × Placed)
  | [], _ => []
  | x :: xs, free =>
    match free.find? (x.mayPair reach) with
    | some y => (x, y) :: partners reach xs (free.erase y)
    | none => partners reach xs free

/-- A part of a whole, as the nearest float. -/
def share (part whole : Nat) : Float := part.toFloat / whole.toFloat

/-- How similar two texts are: the mean of three shares. They are the share of the characters with a
partner in the one text, the share in the other, and among all partners the share of those in order.
Two characters that have changed places count as one out of order. The shares are added in this
order, because rounding can tell equal sums apart. -/
def similarity (xs ys : List Char) : Float :=
  let reach := max xs.length ys.length / 2 - 1
  let taken := (partners reach xs.zipIdx ys.zipIdx).map Prod.snd
  let inOrder := ys.zipIdx.filter (· ∈ taken)
  let moved := (taken.zip inOrder).countP fun (x, y) => x.1 ≠ y.1
  let common := taken.length
  if common = 0 then 0
  else
    (share common xs.length + share common ys.length + share (common - moved / 2) common) / 3

end OnePass.Text
