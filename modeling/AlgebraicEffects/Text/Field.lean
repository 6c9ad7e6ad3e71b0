import AlgebraicEffects.Decimal.Rounded
import AlgebraicEffects.Number.Basic
import AlgebraicEffects.Text.Quoted

/-!
Fields: what a directive of a template writes, laid out to a width.

The sign of a number and the mark of its base come before the zeros that fill it up and after the
spaces that do. Only numbers are filled up with zeros, and none that stands on the left side is.
-/

set_option autoImplicit false

namespace AlgebraicEffects.Text

structure Field where
  isNumber : Bool
  isNegative : Bool
  /-- The mark of the base that the digits are written in. -/
  mark : List Char
  body : List Char
  deriving DecidableEq, Repr

namespace Field

/-- A field that is no number, cut off after `limit` characters. -/
def ofChars (s : List Char) (limit : Option Nat) : Field :=
  ⟨false, false, [], match limit with | some n => s.take n | none => s⟩

/-- An integer in a base, with at least as many digits as the precision says. -/
def ofInt (n : Int) (base : Nat) (mark : List Char) (precision : Nat) : Field :=
  let digits := Nat.toDigits base n.natAbs
  ⟨true, n < 0, mark, List.replicate (precision - digits.length) '0' ++ digits⟩

/-- A double in a style; what is not a number has no sign. -/
def ofFloat (x : Float) (style : DecimalStyle) (keepsPoint : Bool) (precision : Nat) : Field :=
  if x.isNaN then ⟨true, false, [], ['n', 'a', 'n']⟩
  else
    let body :=
      if x.isInf then ['i', 'n', 'f']
      else style.write keepsPoint precision (Decimal.Binade.ofFloat? x)
    ⟨true, (DoubleFields.ofFloat x).isNegative, [], body⟩

/-- All letters as capitals. -/
def capital (f : Field) : Field :=
  { f with mark := f.mark.map Char.toUpper, body := f.body.map Char.toUpper }

/-- The sign that is written: a number that is not negative has the one that the flags ask for. -/
def sign (flags : List Char) (f : Field) : List Char :=
  if !f.isNumber then []
  else if f.isNegative then ['-']
  else if flags.contains '+' then ['+']
  else if flags.contains ' ' then [' ']
  else []

/-- The field at a width; a negative width puts it on the left side. -/
def laidOut (flags : List Char) (width : Int) (f : Field) : List Char :=
  let head := f.sign flags ++ f.mark
  let missing := width.natAbs - (head.length + f.body.length)
  if width < 0 ∨ '-' ∈ flags then head ++ f.body ++ List.replicate missing ' '
  else if f.isNumber ∧ '0' ∈ flags then head ++ List.replicate missing '0' ++ f.body
  else List.replicate missing ' ' ++ head ++ f.body

/-- A field takes up its width, or as much as what is written in it. -/
theorem length_laidOut (flags : List Char) (width : Int) (f : Field) :
    (f.laidOut flags width).length =
      max width.natAbs ((f.sign flags).length + f.mark.length + f.body.length) := by
  simp only [laidOut]
  split
  · simp only [List.length_append, List.length_replicate]
    omega
  · split <;> simp only [List.length_append, List.length_replicate] <;> omega

end Field

/-- Characters beyond ASCII are written by number. -/
def escapedBeyondAscii (s : List Char) : List Char :=
  s.flatMap fun c =>
    if c.toNat < 0x80 then [c]
    else if c.toNat < 0x100 then ['\\', 'x'] ++ hexadecimal 2 c.toNat
    else if c.toNat < 0x10000 then ['\\', 'u'] ++ hexadecimal 4 c.toNat
    else ['\\', 'U'] ++ hexadecimal 8 c.toNat

end AlgebraicEffects.Text
