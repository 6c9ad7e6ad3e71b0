import AlgebraicEffects.Snapshot

/-!
What cannot be written or reported.

An integer with too many digits has no text, and neither has what shows one. A report shows less of
a value than its text does, and some of it otherwise, so both have rules of their own.
-/

set_option autoImplicit false

namespace AlgebraicEffects

/-- The greatest number of digits that are written. -/
def greatestDigitCount : Nat := 4300

/-- The least number that has too many digits to be written. -/
def leastUnwritable : Nat := Nat.pow 10 greatestDigitCount

/-- Whether an integer has too many digits to be written, or to be read. -/
def isTooLong (n : Int) : Bool := leastUnwritable ≤ n.natAbs

mutual

/-- The first fault met when the text of a value is written, part by part: an integer can be too
long, and an arrow shows its callable. -/
def Snapshot.unwritable? : Snapshot → Option Kind
  | .int n => if isTooLong n then some .badValue else none
  | .list _ items | .tuple _ items | .view _ items | .operation _ _ items | .stack _ items =>
    unwritableIn? items
  | .dict _ entries | .frozen _ entries => unwritableInEntries? entries
  | .leaf _ v | .boundTo _ _ _ v | .ok _ v | .err _ v | .failure _ _ _ v _ => v.unwritable?
  | .arrow _ _ _ (some f) => f.unwritable?
  | .arrow _ _ _ none => some .noAttribute
  | .handler _ table atLeaf => unwritableInTable? table <|> atLeaf.unwritable?
  | .outcome _ r vs => r.unwritable? <|> vs.unwritable?
  | .agenda _ startTime maxSteps _ _ _ _ currentTime =>
    startTime.unwritable? <|> maxSteps.unwritable? <|> currentTime.unwritable?
  | _ => none

def unwritableIn? : List Snapshot → Option Kind
  | [] => none
  | v :: vs => v.unwritable? <|> unwritableIn? vs

def unwritableInEntries? : List (Snapshot × Snapshot) → Option Kind
  | [] => none
  | (k, v) :: es => k.unwritable? <|> v.unwritable? <|> unwritableInEntries? es

def unwritableInTable? : List (String × Snapshot) → Option Kind
  | [] => none
  | (_, v) :: es => v.unwritable? <|> unwritableInTable? es

end

mutual

/-- The first fault met when a snapshot is reported, part by part: an arrow is reported by its name,
and the values of an outcome are read item by item. -/
def Snapshot.fault? : Snapshot → Option Kind
  | .int n => if isTooLong n then some .badValue else none
  | .list _ items | .tuple _ items | .operation _ _ items => faultIn? items
  | .dict _ entries | .frozen _ entries => faultInEntries? entries
  | .leaf _ v | .ok _ v | .err _ v => v.fault?
  | .arrow _ _ name _ => if name.isNone then some .noAttribute else none
  | .outcome _ r vs => r.fault? <|> vs.faultInItems?
  | .failure _ _ hasMessage argument fields =>
    (if hasMessage then argument.unwritable? else none) <|> faultInFields? fields
  | .agenda _ _ _ _ next _ _ now => now.fault? <|> next.fault?
  | _ => none

/-- The first fault in the items of a snapshot; what has none is one. -/
def Snapshot.faultInItems? : Snapshot → Option Kind
  | .list _ items | .tuple _ items | .view _ items => faultIn? items
  | .dict _ entries | .frozen _ entries => faultInKeys? entries
  | .text _ | .bytes _ | .names _ _ | .generator _ => none
  | _ => some .badType

def faultIn? : List Snapshot → Option Kind
  | [] => none
  | v :: vs => v.fault? <|> faultIn? vs

def faultInKeys? : List (Snapshot × Snapshot) → Option Kind
  | [] => none
  | (k, _) :: es => k.fault? <|> faultInKeys? es

def faultInEntries? : List (Snapshot × Snapshot) → Option Kind
  | [] => none
  | (k, v) :: es => k.fault? <|> v.fault? <|> faultInEntries? es

def faultInFields? : List (String × Snapshot) → Option Kind
  | [] => none
  | (_, v) :: es => v.fault? <|> faultInFields? es

end

end AlgebraicEffects
