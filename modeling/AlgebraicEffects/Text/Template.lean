/-!
Templates: text with directives that say what is to be written in their place.

A directive starts with a percent sign and ends with the letter of its conversion. Between them
stand a key in parentheses, flags, a width, a precision and a size letter that says nothing, each of
which may be left out. A directive that the end of the text cuts short is kept as far as it goes,
since what stands before the cut is carried out first.
-/

set_option autoImplicit false

namespace AlgebraicEffects.Text

/-- A number that is written in a template, or is taken from what the template is filled with. -/
inductive Measure where
  | given (n : Nat)
  | taken
  deriving DecidableEq, Repr

/-- The key that a directive names. -/
inductive DirectiveKey where
  | absent
  | named (name : List Char)
  | unclosed
  deriving DecidableEq, Repr

/-- A directive without a conversion is cut short. -/
structure Directive where
  key : DirectiveKey
  flags : List Char
  width : Option Measure
  precision : Option Measure
  conversion : Option Char
  deriving DecidableEq, Repr

inductive Piece where
  | literal (c : Char)
  | directive (d : Directive)
  deriving DecidableEq, Repr

/-- The rest of a text after one of its parts. -/
abbrev Rest (s : List Char) := { rest : List Char // rest.length ≤ s.length }

namespace Rest

variable {s : List Char}

/-- Nothing is read. -/
def all (s : List Char) : Rest s := ⟨s, Nat.le_refl _⟩

/-- What is left after reading on. -/
def trans (r : Rest s) (t : Rest r.val) : Rest s := ⟨t.val, Nat.le_trans t.property r.property⟩

end Rest

theorem length_dropWhile_le (p : Char → Bool) (s : List Char) :
    (s.dropWhile p).length ≤ s.length :=
  (List.dropWhile_suffix p).length_le

/-- What is left after the characters of one kind. -/
def restAfter (p : Char → Bool) (s : List Char) : Rest s := ⟨s.dropWhile p, length_dropWhile_le p s⟩

def isFlag (c : Char) : Bool := ['-', '+', ' ', '#', '0'].contains c

/-- The number that digits stand for. -/
def numeral (digits : List Char) : Nat :=
  digits.foldl (fun n c => 10 * n + (c.toNat - '0'.toNat)) 0

/-- Reads a star or digits. -/
def readMeasure : (s : List Char) → Option Measure × Rest s
  | '*' :: s => (some .taken, ⟨s, Nat.le_succ _⟩)
  | s =>
    let digits := s.takeWhile Char.isDigit
    (if digits.isEmpty then none else some (.given (numeral digits)), restAfter Char.isDigit s)

/-- Reads a point and the precision after it, which is zero when nothing is written. -/
def readPrecision : (s : List Char) → Option Measure × Rest s
  | '.' :: s =>
    let (m, rest) := readMeasure s
    (some (m.getD (.given 0)), ⟨rest.val, Nat.le_succ_of_le rest.property⟩)
  | s => (none, .all s)

/-- Passes over the size letter. -/
def skipSize : (s : List Char) → Rest s
  | c :: s => if ['h', 'l', 'L'].contains c then ⟨s, Nat.le_succ _⟩ else .all (c :: s)
  | [] => .all []

def readConversion : (s : List Char) → Option Char × Rest s
  | c :: s => (some c, ⟨s, Nat.le_succ _⟩)
  | [] => (none, .all [])

/-- Reads a key up to the parenthesis that closes it; `depth` are open inside it. -/
def readKey : Nat → List Char → (s : List Char) → DirectiveKey × Rest s
  | _, _, [] => (.unclosed, .all [])
  | depth, done, c :: s =>
    if c = ')' ∧ depth = 0 then (.named done.reverse, ⟨s, Nat.le_succ _⟩)
    else
      let next := if c = '(' then depth + 1 else if c = ')' then depth - 1 else depth
      let (key, rest) := readKey next (c :: done) s
      (key, ⟨rest.val, Nat.le_succ_of_le rest.property⟩)

/-- Reads what comes after the key of a directive. -/
def readDirectiveAfter (key : DirectiveKey) (s : List Char) : Directive × Rest s :=
  let afterFlags := restAfter isFlag s
  let (width, afterWidth) := readMeasure afterFlags.val
  let (precision, afterPrecision) := readPrecision afterWidth.val
  let afterSize := skipSize afterPrecision.val
  let (conversion, rest) := readConversion afterSize.val
  (⟨key, s.takeWhile isFlag, width, precision, conversion⟩,
    afterFlags.trans (afterWidth.trans (afterPrecision.trans (afterSize.trans rest))))

/-- Reads a directive after its percent sign. -/
def readDirective : (s : List Char) → Directive × Rest s
  | '(' :: s =>
    let (key, afterKey) := readKey 0 [] s
    let (d, rest) := readDirectiveAfter key afterKey.val
    (d, ⟨rest.val, Nat.le_succ_of_le (afterKey.trans rest).property⟩)
  | s => readDirectiveAfter .absent s

/-- The pieces of a template. Two percent signs in a row write one. -/
def pieces (s : List Char) : List Piece :=
  match s with
  | [] => []
  | '%' :: '%' :: s => .literal '%' :: pieces s
  | '%' :: s =>
    let (d, rest) := readDirective s
    .directive d :: pieces rest.val
  | c :: s => .literal c :: pieces s
termination_by s.length
decreasing_by
  · simp only [List.length_cons]; omega
  · exact Nat.lt_succ_of_le rest.property
  · exact Nat.lt_succ_self _

/-- A text without a percent sign has no directives. -/
theorem pieces_eq_literals {s : List Char} (h : '%' ∉ s) : pieces s = s.map .literal := by
  induction s with
  | nil => simp [pieces]
  | cons c s ih =>
    simp only [List.mem_cons, not_or] at h
    rw [pieces, ih h.2, List.map_cons]
    · rintro t rfl
      exact absurd rfl h.1
    · rintro rfl
      exact absurd rfl h.1

end AlgebraicEffects.Text
