import AlgebraicEffects.Text.Printable

/-!
Quoted text.

A text is enclosed in single quotes unless it holds a single quote and no double quote. The quote
in use, the backslash and the three common blanks are written with a backslash, other characters
without a visible form by their number in the narrowest of three widths.
-/

set_option autoImplicit false

namespace AlgebraicEffects.Text

/-- The quote that encloses a text. -/
def enclosingQuote (s : List Char) : Char :=
  if s.contains '\'' && !s.contains '"' then '"' else '\''

/-- Lower-case hexadecimal digits of `n`, filled up to `width`. -/
def hexadecimal (width n : Nat) : List Char :=
  let digits := Nat.toDigits 16 n
  List.replicate (width - digits.length) '0' ++ digits

/-- One character as it is written between quotes. -/
def quotedChar (quote : Char) (c : Char) : List Char :=
  if c = quote ∨ c = '\\' then ['\\', c]
  else if c = '\n' then ['\\', 'n']
  else if c = '\t' then ['\\', 't']
  else if c = '\r' then ['\\', 'r']
  else if isPrintable c then [c]
  else if c.toNat < 0x100 then ['\\', 'x'] ++ hexadecimal 2 c.toNat
  else if c.toNat < 0x10000 then ['\\', 'u'] ++ hexadecimal 4 c.toNat
  else ['\\', 'U'] ++ hexadecimal 8 c.toNat

def quoted (s : String) : String :=
  let quote := enclosingQuote s.toList
  String.ofList (quote :: s.toList.flatMap (quotedChar quote) ++ [quote])

/-- Bytes are quoted like text whose only printable characters are the visible ASCII ones. -/
def quotedBytes (bytes : List UInt8) : String :=
  let chars := bytes.map fun b => Char.ofNat b.toNat
  let quote := enclosingQuote chars
  let one (c : Char) : List Char :=
    if c.toNat < 0x7F then quotedChar quote c else ['\\', 'x'] ++ hexadecimal 2 c.toNat
  String.ofList ('b' :: quote :: chars.flatMap one ++ [quote])

end AlgebraicEffects.Text
