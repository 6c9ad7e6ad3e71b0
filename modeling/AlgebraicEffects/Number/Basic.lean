import AlgebraicEffects.Number.Scaled

/-!
The numeric tower: unbounded integers below doubles.

Arithmetic on two integers is exact; as soon as one side is a double the other is rounded to the
nearest double. Comparison never rounds: an integer and a double are compared as exact numbers.
-/

set_option autoImplicit false

namespace AlgebraicEffects

inductive Number where
  | int (n : Int)
  | float (x : Float)

namespace Number

/-- Why an arithmetic operation has no result. -/
inductive Fault where
  | divisionByZero
  | overflow
  deriving DecidableEq, Repr

/-- The double nearest to an integer; integers beyond the largest double have none. -/
def roundInt (n : Int) : Except Fault Float :=
  let x := Float.ofScientific n.natAbs false 0
  if x.isInf then .error .overflow
  else .ok (if n < 0 then -x else x)

def toFloat : Number → Except Fault Float
  | .int n => roundInt n
  | .float x => .ok x

/-- Exact value of a number, unless it is infinite or not a number. -/
def scaled? : Number → Option Scaled
  | .int n => some (.ofInt n)
  | .float x => Scaled.ofFloat? x

/-- Position of a number relative to all finite ones: below, among or above them. -/
def side (x : Number) : Option Ordering :=
  match x with
  | .int _ => some .eq
  | .float x =>
    if x.isNaN then none
    else if x.isInf then some (if x < 0 then .lt else .gt)
    else some .eq

/-- Exact comparison; only what is not a number has no place in the order. -/
def compare? (a b : Number) : Option Ordering :=
  match a.side, b.side with
  | some s, some t =>
    match a.scaled?, b.scaled? with
    | some x, some y => some (x.compare y)
    | _, _ => some (Ord.compare (sideRank s) (sideRank t))
  | _, _ => none
where
  /-- Below, among and above, as integers. -/
  sideRank : Ordering → Int
    | .lt => -1
    | .eq => 0
    | .gt => 1

theorem compare?_int (m n : Int) : (int m).compare? (int n) = some (Ord.compare m n) := by
  simp only [compare?, side, scaled?, Scaled.compare_ofInt]

def equal (a b : Number) : Bool := a.compare? b == some .eq

theorem equal_int (m n : Int) : (int m).equal (int n) = decide (m = n) := by
  rw [equal, compare?_int, Bool.eq_iff_iff, beq_iff_eq, Option.some.injEq, decide_eq_true_iff]
  exact Std.compare_eq_iff_eq

def less (a b : Number) : Bool := a.compare? b == some .lt

theorem less_int (m n : Int) : (int m).less (int n) = decide (m < n) := by
  rw [less, compare?_int, Bool.eq_iff_iff, beq_iff_eq, Option.some.injEq, decide_eq_true_iff]
  exact Std.compare_eq_lt

/-- Applies the exact operation to integers and the rounded one as soon as a double takes part. -/
def combine (exact : Int → Int → Except Fault Int) (rounded : Float → Float → Except Fault Float)
    (a b : Number) : Except Fault Number :=
  match a, b with
  | .int m, .int n => .int <$> exact m n
  | a, b => do
    let x ← a.toFloat
    let y ← b.toFloat
    .float <$> rounded x y

def add : Number → Number → Except Fault Number :=
  combine (fun m n => .ok (m + n)) (fun x y => .ok (x + y))

def sub : Number → Number → Except Fault Number :=
  combine (fun m n => .ok (m - n)) (fun x y => .ok (x - y))

def mul : Number → Number → Except Fault Number :=
  combine (fun m n => .ok (m * n)) (fun x y => .ok (x * y))

/-- The double `x` with the sign of `y`. -/
def withSignOf (x y : Float) : Float :=
  if (DoubleFields.ofFloat y).isNegative then -x.abs else x.abs

/-- Remainder of doubles that truncates toward zero; it keeps the sign of the dividend. -/
def truncatedRemainder (x y : Float) : Float :=
  if x.isNaN || y.isNaN || x.isInf then 0.0 / 0.0
  else if y.isInf then x
  else
    match Scaled.ofFloat? x, Scaled.ofFloat? y with
    | some a, some b => withSignOf (Scaled.toFloat (a.truncatedRemainder b)) x
    | _, _ => x

/-- Floored division of doubles with its remainder, which takes the sign of the divisor. -/
def flooredDivision (x y : Float) : Float × Float :=
  let r := truncatedRemainder x y
  let q := (x - r) / y
  let (q, r) :=
    if r == 0 then (q, withSignOf 0 y)
    else if (y < 0) != (r < 0) then (q - 1, r + y)
    else (q, r)
  let q :=
    if q == 0 then withSignOf 0 (x / y)
    else
      let f := q.floor
      if q - f > 0.5 then f + 1 else f
  (q, r)

def floorDiv : Number → Number → Except Fault Number :=
  combine
    (fun m n => if n = 0 then .error .divisionByZero else .ok (m.fdiv n))
    (fun x y => if y == 0 then .error .divisionByZero else .ok (flooredDivision x y).1)

def floorMod : Number → Number → Except Fault Number :=
  combine
    (fun m n => if n = 0 then .error .divisionByZero else .ok (m.fmod n))
    (fun x y => if y == 0 then .error .divisionByZero else .ok (flooredDivision x y).2)

end Number

end AlgebraicEffects
