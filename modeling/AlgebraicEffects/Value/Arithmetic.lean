import AlgebraicEffects.Action
import AlgebraicEffects.Snapshot.Order

/-!
Arithmetic and comparison on values.

Numbers follow the numeric tower; texts, bytes, lists and tuples can be joined and repeated, and a
set of names is lessened by another one. Every other combination is a fault.
-/

set_option autoImplicit false

namespace AlgebraicEffects.Value

/-- The result of a numeric operation, or its fault. -/
def numeric : Except Number.Fault Number → Action Value
  | .ok n => .done (.ofNumber 0 n)
  | .error .divisionByZero => .fault .divisionByZero
  | .error .overflow => .fault .overflow

/-- Applies a numeric operation to two values that are numbers. -/
def onNumbers (f : Number → Number → Except Number.Fault Number) (a b : Value) : Action Value :=
  match a.number?, b.number? with
  | some m, some n => numeric (f m n)
  | _, _ => .fault .badType

/-- The sum of two numbers, or two sequences joined. A tuple joined to the empty one is itself. -/
def add : Value → Value → Action Value
  | .text s, .text t => .done (.text (s ++ t))
  | .bytes s, .bytes t => .done (.bytes (s ++ t))
  | .list s xs, .list t ys => do
    return .list 0 ((← Action.itemsNow s xs) ++ (← Action.itemsNow t ys))
  | .tuple _ [], .tuple t ys => .done (.tuple t ys)
  | .tuple s xs, .tuple _ [] => .done (.tuple s xs)
  | .tuple _ xs, .tuple _ ys => .done (.tuple 0 (xs ++ ys))
  | a, b => onNumbers Number.add a b

def sub : Value → Value → Action Value
  | .names _ xs, .names _ ys => .done (.names 0 (xs.filter (!ys.contains ·)))
  | a, b => onNumbers Number.sub a b

/-- Joins `n` copies of a list; a negative number of copies counts as none, and no number of copies
fills an empty list. -/
def copies {α : Type} (n : Int) (items : List α) : List α :=
  match items with
  | [] => []
  | items => (List.replicate n.toNat items).flatten

/-- The greatest length of a sequence. -/
def greatestLength : Nat := Nat.pow 2 63 - 1

/-- The greatest length that there is room for. -/
def memoryLength : Nat := Nat.pow 2 34

/-- Allows a sequence of this length to be made. -/
def makeRoom (length : Nat) : Action Unit :=
  if memoryLength < length then .fault .outOfMemory else .done ()

/-- Copies of a sequence. A number that is no position is too large whatever is copied, and so is a
length for a text or bytes. -/
def repeated {α : Type} (isWritten : Bool) (n : Int) (items : List α) : Action (List α) := do
  let size := items.length * n.toNat
  if greatestLength < n ∨ n < -greatestLength - 1 then .fault .overflow
  else if isWritten && decide (greatestLength < size) then .fault .overflow
  else do
    makeRoom size
    return copies n items

/-- The number of copies that a value asks for. -/
def count? : Value → Option Int
  | .bool b => some (if b then 1 else 0)
  | .int n => some n
  | _ => none

/-- Copies of a value that is a sequence; what is no sequence has none. One copy of a tuple is the
tuple itself. -/
def repeated? (v : Value) (n : Int) : Option (Action Value) :=
  match v with
  | .text s => some do return .text (String.ofList (← repeated true n s.toList))
  | .bytes s => some do return .bytes (← repeated true n s)
  | .list tag xs => some do return .list 0 (← repeated false n (← Action.itemsNow tag xs))
  | .tuple tag xs => some do
    if n = 1 then return .tuple tag xs else return .tuple 0 (← repeated false n xs)
  | _ => none

/-- Copies of `a`, if `b` can count them. -/
def copied? (a b : Value) : Option (Action Value) := b.count?.bind a.repeated?

def mul (a b : Value) : Action Value :=
  ((copied? a b).or (copied? b a)).getD (onNumbers Number.mul a b)

def floorDiv : Value → Value → Action Value := onNumbers Number.floorDiv

def floorMod : Value → Value → Action Value := onNumbers Number.floorMod

/-- An order test; a pair without an order is a fault. -/
def ordered : Option Bool → Action Bool
  | some b => .done b
  | none => .fault .badType

def less (a b : Value) : Action Bool := do
  ordered ((← Action.shown a).less? (← Action.shown b))

def atMost (a b : Value) : Action Bool := do
  ordered ((← Action.shown a).atMost? (← Action.shown b))

def equal (a b : Value) : Action Bool := do
  return (← Action.shown a).equal (← Action.shown b)

/-- The floor of the square root of an integer that is not negative. -/
def integerSqrt (a : Value) : Action Value :=
  match a.count? with
  | some n => if n < 0 then .fault .badValue else .done (.int n.toNat.sqrt)
  | none => .fault .badType

end AlgebraicEffects.Value
