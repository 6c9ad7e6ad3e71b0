import AlgebraicEffects.Snapshot.Equality

/-!
Order of what values show.

Numbers are ordered as exact numbers, texts by code points, lists and tuples lexicographically, sets
of names by inclusion. All other pairs have no order, and neither have sequences whose first
difference has none.
-/

set_option autoImplicit false

namespace AlgebraicEffects

/-- Texts are ordered by their first differing code point. -/
def lessText (s t : String) : Bool := decide (s < t)

/-- Bytes are ordered lexicographically. -/
def lessBytes : List UInt8 → List UInt8 → Bool
  | [], [] => false
  | [], _ :: _ => true
  | _ :: _, [] => false
  | x :: xs, y :: ys => x < y || x == y && lessBytes xs ys

mutual

/-- Whether the first is less than the second; `none` when the pair has no order. -/
def Snapshot.less? : Snapshot → Snapshot → Option Bool
  | .text s, .text t => some (lessText s t)
  | .bytes s, .bytes t => some (lessBytes s t)
  | .list _ xs, .list _ ys => lessItems? xs ys
  | .tuple _ xs, .tuple _ ys => lessItems? xs ys
  | .names _ xs, .names _ ys => some (xs.all ys.contains && !ys.all xs.contains)
  | x, y =>
    match x.number?, y.number? with
    | some m, some n => some (m.less n)
    | _, _ => none

/-- The first difference decides; without one, the shorter sequence is less. -/
def lessItems? : List Snapshot → List Snapshot → Option Bool
  | [], [] => some false
  | [], _ :: _ => some true
  | _ :: _, [] => some false
  | x :: xs, y :: ys => if x.isSame y || x.equal y then lessItems? xs ys else x.less? y

/-- Whether the first is at most the second. What is not a number is not at most anything. -/
def Snapshot.atMost? : Snapshot → Snapshot → Option Bool
  | .text s, .text t => some (lessText s t || s == t)
  | .bytes s, .bytes t => some (lessBytes s t || s == t)
  | .list _ xs, .list _ ys => atMostItems? xs ys
  | .tuple _ xs, .tuple _ ys => atMostItems? xs ys
  | .names _ xs, .names _ ys => some (xs.all ys.contains)
  | x, y =>
    match x.number?, y.number? with
    | some m, some n => some (m.less n || m.equal n)
    | _, _ => none

def atMostItems? : List Snapshot → List Snapshot → Option Bool
  | [], _ => some true
  | _ :: _, [] => some false
  | x :: xs, y :: ys => if x.isSame y || x.equal y then atMostItems? xs ys else x.atMost? y

end

end AlgebraicEffects
