import AlgebraicEffects.Snapshot.Fault
import AlgebraicEffects.Snapshot.Text
import AlgebraicEffects.Text.Field
import AlgebraicEffects.Text.Template
import AlgebraicEffects.Value.Sequence

/-!
Templates filled with values.

The directives of a template write the items of a tuple one after the other, and none may be left
over. Any other value is written once; of one that is read by key, directives can also name keys.
-/

set_option autoImplicit false

namespace AlgebraicEffects

open Text

/-- What a template is written in, and what filling it gives. -/
inductive Medium where
  | text
  | bytes
  deriving DecidableEq, Repr

namespace Medium

/-- The value that some characters make. -/
def valueOf : Medium → List Char → Value
  | .text, s => .text (String.ofList s)
  | .bytes, s => .bytes (s.map fun c => UInt8.ofNat c.toNat)

/-- The first number that stands for no character. -/
def characterLimit : Medium → Nat
  | .text => 0x110000
  | .bytes => 0x100

/-- The characters of a value that is written in the same medium. -/
def chars? : Medium → Snapshot → Option (List Char)
  | .text, .text s => some s.toList
  | .bytes, .bytes bs => some (bs.map fun b => Char.ofNat b.toNat)
  | _, _ => none

/-- One character, or the number of one. -/
def character (medium : Medium) (v : Snapshot) : Except Kind (List Char) :=
  match v, medium.chars? v with
  | _, some [c] => .ok [c]
  | .int n, _ =>
    if n < 0 ∨ medium.characterLimit ≤ n then .error .overflow else .ok [Char.ofNat n.toNat]
  | .bool b, _ => .ok [Char.ofNat (if b then 1 else 0)]
  | _, _ => .error .badType

/-- The text that a conversion to text gives. Bytes are only filled with bytes and with text that is
escaped beyond ASCII. -/
def shown? (medium : Medium) (conversion : Char) (v : Snapshot) : Option (List Char) :=
  match medium, conversion with
  | .text, 's' => some v.plain.toList
  | .text, 'r' => some v.quoted.toList
  | .bytes, 's' | .bytes, 'b' => medium.chars? v
  | _, _ => some (escapedBeyondAscii v.quoted.toList)

/-- The fault of a letter that is no conversion. Of the bytes only those of ASCII are letters. -/
def unknownConversion (medium : Medium) (c : Char) : Kind :=
  if medium = .bytes ∧ 0x80 ≤ c.toNat then .overflow else .badValue

/-- The conversions to text. -/
def textConversions : Medium → List Char
  | .text => ['s', 'r', 'a']
  | .bytes => ['s', 'b', 'r', 'a']

end Medium

/-- An integer, or a double without its fraction. -/
def Snapshot.whole (v : Snapshot) : Except Kind Int :=
  match v.number? with
  | some (.int n) => .ok n
  | some (.float x) =>
    match Scaled.ofFloat? x with
    | some s => .ok ((s.atUnit 0).tdiv (Nat.pow 2 (-s.exponent).toNat))
    | none => .error (if x.isNaN then .badValue else .overflow)
  | none => .error .badType

/-- An integer whose digits can be written, or a double without its fraction. -/
def Snapshot.decimal (v : Snapshot) : Except Kind Int := do
  let n ← v.whole
  if isTooLong n then throw .badValue else return n

/-- An integer that is no double. -/
def Snapshot.integer (v : Snapshot) : Except Kind Int :=
  match v.number? with
  | some (.int n) => .ok n
  | _ => .error .badType

/-- A number rounded to a double. -/
def Snapshot.double (v : Snapshot) : Except Kind Float :=
  match v.number? with
  | some n =>
    match n.toFloat with
    | .ok x => .ok x
    | .error _ => .error .overflow
  | none => .error .badType

/-- The field that a conversion makes of a value. -/
def Medium.field (medium : Medium) (flags : List Char) (precision : Option Nat) (conversion : Char)
    (v : Snapshot) : Except Kind Field := do
  let keepsMark := flags.contains '#'
  let based (n : Int) (base : Nat) (mark : List Char) : Field :=
    .ofInt n base (if keepsMark then mark else []) (precision.getD 0)
  let styled (style : DecimalStyle) : Except Kind Field := do
    return .ofFloat (← v.double) style keepsMark (precision.getD 6)
  if medium.textConversions.contains conversion then
    match medium.shown? conversion v, v.unwritable? with
    | none, _ => throw .badType
    | some _, some kind => throw kind
    | some s, none => return .ofChars s precision
  else
    match conversion with
    | 'd' | 'i' | 'u' => return based (← v.decimal) 10 []
    | 'o' => return based (← v.integer) 8 ['0', 'o']
    | 'x' => return based (← v.integer) 16 ['0', 'x']
    | 'X' => return (based (← v.integer) 16 ['0', 'x']).capital
    | 'f' => styled .positional
    | 'F' => return (← styled .positional).capital
    | 'e' => styled .scientific
    | 'E' => return (← styled .scientific).capital
    | 'g' => styled .general
    | 'G' => return (← styled .general).capital
    | 'c' => return .ofChars (← medium.character v) none
    | c => throw (medium.unknownConversion c)

namespace Value

/-- Takes the first of the values that are left. -/
def takeNext : List Value → Action (Value × List Value)
  | v :: vs => .done (v, vs)
  | [] => .fault .badType

/-- The greatest width. -/
def greatestWidth : Nat := Nat.pow 2 63 - 1

/-- The greatest precision. -/
def greatestPrecision : Nat := Nat.pow 2 31 - 1

/-- The number that a measure stands for, and the values that are left after it. -/
def measured (greatest : Nat) (measure : Option Measure) (vs : List Value) :
    Action (Option Int × List Value) :=
  match measure with
  | none => .done (none, vs)
  | some (.given n) => if greatest < n then .fault .badValue else .done (some n, vs)
  | some .taken => do
    let (v, vs) ← takeNext vs
    match v.count? with
    | some n => if greatest < n ∨ n < -greatest - 1 then .fault .overflow else return (some n, vs)
    | none => .fault .badType

/-- The values for a directive: the one under its key, if it names one, and otherwise those that are
left. -/
def valuesFor (medium : Medium) (mapping : Option Value) (key : DirectiveKey) (vs : List Value) :
    Action (List Value) :=
  match key, mapping with
  | .absent, _ => .done vs
  | _, none => .fault .badType
  | .unclosed, some _ => .fault .badValue
  | .named name, some m => do return [← m.index (medium.valueOf name)]

/-- What a directive writes, and the values that are left after it. -/
def fillDirective (medium : Medium) (mapping : Option Value) (d : Directive) (vs : List Value) :
    Action (List Char × List Value) := do
  let vs ← valuesFor medium mapping d.key vs
  let (width, vs) ← measured greatestWidth d.width vs
  let (precision, vs) ← measured greatestPrecision d.precision vs
  match d.conversion with
  | none => Action.fault .badValue
  | some conversion => do
    let (v, vs) ← takeNext vs
    match medium.field d.flags (precision.map Int.toNat) conversion (← Action.shown v) with
    | .ok field => return (field.laidOut d.flags (width.getD 0), vs)
    | .error kind => Action.fault kind

/-- Fills pieces from the left; `done` is what has been written, in reverse. -/
def fillPieces (medium : Medium) (mapping : Option Value) :
    List Piece → List Value → List Char → Action Value
  | [], vs, done =>
    if vs.isEmpty || mapping.isSome then .done (medium.valueOf done.reverse) else .fault .badType
  | .literal c :: ps, vs, done => fillPieces medium mapping ps vs (c :: done)
  | .directive d :: ps, vs, done => do
    let (s, vs) ← fillDirective medium mapping d vs
    fillPieces medium mapping ps vs (s.reverse ++ done)

/-- Whether the directives of a template can name keys of a value. -/
def isMapping (medium : Medium) : Value → Bool
  | .list _ _ | .dict _ _ | .frozen _ _ => true
  | .bytes _ => medium = .text
  | _ => false

/-- Fills a template with a value. -/
def fillTemplate (medium : Medium) (template : List Char) (v : Value) : Action Value :=
  let mapping := if v.isMapping medium then some v else none
  let values := match v with
    | .tuple _ vs => vs
    | v => [v]
  fillPieces medium mapping (pieces template) values []

/-- The remainder of a division; a template is filled with what stands on the right. -/
def remainder (a b : Value) : Action Value :=
  match a with
  | .text s => fillTemplate .text s.toList b
  | .bytes bs => fillTemplate .bytes (bs.map fun b => Char.ofNat b.toNat) b
  | a => floorMod a b

end Value

end AlgebraicEffects
