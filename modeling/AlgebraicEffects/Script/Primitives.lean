import AlgebraicEffects.Demonstration
import AlgebraicEffects.Methods
import AlgebraicEffects.Program.Observation
import AlgebraicEffects.Replay.Drawing
import AlgebraicEffects.Script.Operands
import AlgebraicEffects.Value.Template

/-!
The primitives of the script language: what each accepts and what it does.
-/

set_option autoImplicit false

namespace AlgebraicEffects.Primitive

open Operands

def signature : Primitive → Signature Value
  | .call =>
    { Signature.required [] with
      unnamed := [⟨"f", none⟩], acceptsRest := true, acceptsExtra := true }
  | .method =>
    { Signature.required [] with
      unnamed := [⟨"o", none⟩, ⟨"name", none⟩], acceptsRest := true, acceptsExtra := true }
  | .list | .tuple | .concat => (Signature.required []).withRest
  | .attributeOf | .range | .append | .index | .add | .sub | .mul | .floorDiv | .floorMod | .equal
  | .less | .atMost | .greater | .chain | .isInstance | .boundTo => .required ["a", "b"]
  | .note | .length | .text | .quoted | .typeName | .integerSqrt | .not | .recursionUnchanged
  | .demonstration => .required ["a"]
  | .earlierTask => .required ["t1", "s1", "t2", "s2"]
  | .trace => .required ["p", "answers"]
  | .explore => .required ["p", "answers", "depth"]

def truth (b : Action Bool) : Action Value := do return .bool (← b)

/-- The integers from `a` up to, but not including, `b`. -/
def rangeOf (a b : Value) : Action Value :=
  match a.count?, b.count? with
  | some m, some n =>
    let length := (n - m).toNat
    if Value.greatestLength < length then .fault .overflow
    else do
      Value.makeRoom length
      return .list 0 ((List.range length).map fun (i : Nat) => .int (m + i))
  | _, _ => .fault .badType

/-- The list of the items of a value and one more at its end. -/
def appendTo (items item : Value) : Action Value := do
  return .list 0 ((← items.items) ++ [item])

/-- The names of the classes of values that can be asked for. -/
def classNames : List String :=
  ["Program", "Pure", "Operation", "KleisliProgram", "Handler", "Host", "Result", "KeyError",
   "ValueError", "EffectTreeError", "FrozenDict"]

/-- Whether a value belongs to a class of values. -/
def isInstanceOf (v : Value) (className : String) : Bool :=
  match className, v with
  | "Program", v => v.isProgram
  | "Pure", .leaf _ _ => true
  | "Operation", .operation _ _ _ _ => true
  | "KleisliProgram", .arrow _ _ => true
  | "Handler", .handler _ _ _ => true
  | "Host", .agenda _ => true
  | "Host", .loopHost _ => true
  | "Result", .ok _ _ => true
  | "Result", .err _ _ => true
  | "KeyError", .failure f => f.kind.isMissingKey
  | "ValueError", .failure f => f.kind == .badValue
  | "EffectTreeError", .failure f => f.kind.isLibraryOwn
  | "FrozenDict", .frozen _ _ => true
  | _, _ => false

/-- A task that is due earlier comes first, and of two that are due together the one numbered lower.
-/
def isEarlierTask (t s u r : Value) : Action Value := do
  truth (if ← Value.equal t u then Value.less s r else Value.less t u)

/-- An integer without its last `count` binary digits, rounded down. -/
def dropDigits (n : Int) (count : Nat) : Int :=
  if n.natAbs.log2 < count then (if n < 0 then -1 else 0) else n / Nat.pow 2 count

/-- What follows a program or an arrow; an integer is shifted. -/
def chainOnto (a b : Value) : Action Value :=
  match a with
  | .leaf _ _ | .operation _ _ _ _ => Program.graft a b
  | .arrow _ _ => Arrow.chain a b
  | .int _ | .bool _ =>
    match a.count?, b.count? with
    | some m, some n => if n < 0 then .fault .badValue else return .int (dropDigits m n.toNat)
    | _, _ => .fault .badType
  | _ => .fault .badType

/-- Gives the first argument of an arrow or a function. One that has been given it already is given
another one. -/
def bindOnto (f receiver : Value) : Action Value := do
  match ← f.attributeNamed "__get__" with
  | .function _ (.binder g) => return g.bindTo receiver
  | binder => Action.ask binder [receiver]

def textOf (v : Value) : Action String :=
  match v with
  | .text s => return s
  | _ => .fault .badType

/-- Whether a value belongs to the class of this name. -/
def checkInstance (v className : Value) : Action Value := do
  let name ← textOf className
  if classNames.contains name then return .bool (isInstanceOf v name) else .fault .noKey

/-- Notes what a value shows at this moment. -/
def takeNote (v : Value) : Action Value := do
  let shown ← Action.shown (← v.reported)
  Action.update fun s => { s with notes := shown :: s.notes }
  return .nothing

def perform (p : Primitive) (b : Bound Value) : Action Value :=
  let vs := b.values
  match p with
  | .call => one vs fun g => Action.invoke g ⟨b.rest, b.extra⟩
  | .attributeOf => two vs fun o name => do o.attributeNamed (← textOf name)
  | .method => two vs fun o name => do
    Action.invoke (← o.attributeNamed (← textOf name)) ⟨b.rest, b.extra⟩
  | .note => one vs takeNote
  | .list => return .list 0 b.rest
  | .tuple => return .tuple 0 b.rest
  | .range => two vs rangeOf
  | .append => two vs appendTo
  | .length => one vs fun v => do return .int (← v.length)
  | .index => two vs Value.index
  | .text => one vs fun v => do return .text (← Action.plainText v)
  | .quoted => one vs fun v => do return .text (← Action.quotedText v)
  | .typeName => one vs fun v => return .text v.typeName
  | .concat => do return .text (String.join (← b.rest.mapM Action.plainText))
  | .integerSqrt => one vs Value.integerSqrt
  | .add => two vs Value.add
  | .sub => two vs Value.sub
  | .mul => two vs Value.mul
  | .floorDiv => two vs Value.floorDiv
  | .floorMod => two vs Value.remainder
  | .equal => two vs fun x y => truth (Value.equal x y)
  | .less => two vs fun x y => truth (Value.less x y)
  | .atMost => two vs fun x y => truth (Value.atMost x y)
  | .greater => two vs fun x y => truth (Value.less y x)
  | .not => one vs fun v => do return .bool !(← Action.truth v)
  | .chain => two vs chainOnto
  | .isInstance => two vs checkInstance
  | .recursionUnchanged => one vs fun g => do
    let _ ← Action.ask g []
    return .bool true
  | .earlierTask => four vs isEarlierTask
  | .boundTo => two vs bindOnto
  | .demonstration => one vs Demonstration.run
  | .trace => two vs fun p answers => do Program.traceFrom p (← answers.items) []
  | .explore => three vs Program.explore

end AlgebraicEffects.Primitive
