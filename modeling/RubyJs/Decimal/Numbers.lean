import RubyJs.Decimal.Binary
import RubyJs.Decimal.Shortest
import RubyJs.Token.Numeral

set_option autoImplicit false

/-! # Numbers in the output

Number literals are written in the output the way JavaScript writes the number: with the fewest
digits, positionally from 0.000001 up to below 10^21 and with an exponent outside. Integers are
written in decimal, whatever their radix was.
-/

namespace RubyJs.Numbers

/-! ## Floats -/

/-- Digits as text. -/
def digitText (ds : List Nat) : String := String.ofList (ds.map Nat.digitChar)

/-- `n` zeros. -/
def zeros (n : Nat) : String := String.ofList (List.replicate n '0')

/-- A decimal without an exponent. -/
def positional (d : Shortest.Digits) : String :=
  if d.point ≤ 0 then "0." ++ zeros (-d.point).toNat ++ digitText d.digits
  else
    let p := d.point.toNat
    if d.digits.length ≤ p then digitText d.digits ++ zeros (p - d.digits.length)
    else digitText (d.digits.take p) ++ "." ++ digitText (d.digits.drop p)

/-- A decimal with one digit before the point and an exponent. -/
def scientific (d : Shortest.Digits) : String :=
  let e := d.point - 1
  let mantissa := match d.digits with
    | [] => "0"
    | [a] => digitText [a]
    | a :: ds => digitText [a] ++ "." ++ digitText ds
  mantissa ++ (if e < 0 then "e-" else "e+") ++ toString e.natAbs

/-- The text of a number above zero. -/
def positiveText (m : Nat) (q : Int) : String :=
  let d := Shortest.digits m q
  if -5 ≤ d.point && d.point ≤ 21 then positional d else scientific d

/-- The text of a number. Zero has no sign. -/
def text : Binary → String
  | .nan => "NaN"
  | .infinite negative => if negative then "-Infinity" else "Infinity"
  | .finite negative m q =>
    if m == 0 then "0" else (if negative then "-" else "") ++ positiveText m q

/-! ## Literals -/

/-- A literal without its underscores. -/
def cleaned (raw : String) : List Char := raw.toList.filter (· != '_')

/-- Whether a literal has a sign, and what stands after it. -/
def splitSign (cs : List Char) : Bool × List Char :=
  match cs with
  | '-' :: cs => (true, cs)
  | cs => (false, cs)

/-- The value of decimal digits. -/
def decimalValue (ds : List Char) : Nat :=
  ds.foldl (fun v d => 10 * v + (d.toNat - '0'.toNat)) 0

/-- The exponent that stands after the digits of a float literal. -/
def exponentValue (cs : List Char) : Int :=
  match cs with
  | _ :: '-' :: ds => -(decimalValue ds : Int)
  | _ :: '+' :: ds => decimalValue ds
  | _ :: ds => decimalValue ds
  | [] => 0

/-- The number of a float literal. -/
def floatValue (raw : String) : Binary :=
  let (negative, cs) := splitSign (cleaned raw)
  let whole := cs.takeWhile Char.isDigit
  let rest := cs.dropWhile Char.isDigit
  let (frac, rest) := match rest with
    | '.' :: ds => (ds.takeWhile Char.isDigit, ds.dropWhile Char.isDigit)
    | rest => ([], rest)
  Binary.ofDecimal negative (decimalValue (whole ++ frac)) (exponentValue rest - frac.length)

/-- The output of a float literal. -/
def floatText (raw : String) : String := text (floatValue raw)

/-- The radix of an integer literal without sign and underscores, and its digits. -/
def splitRadix (cs : List Char) : Nat × List Char :=
  match cs with
  | '0' :: c :: ds =>
    match Numeral.radixOf? c with
    | some radix => (radix, ds)
    | none => (8, c :: ds)
  | ds => (10, ds)

/-- The value of digits in a radix; there has to be one, and all have to be digits of it. -/
def valueIn? (radix : Nat) (ds : List Char) : Option Nat :=
  if ds.isEmpty || !ds.all (Numeral.isDigitIn radix) then none
  else some (ds.foldl (fun v d => radix * v + (Numeral.digitValue? d).getD 0) 0)

/-- The output of an integer literal. Only integers below `2^128` have one. -/
def integerText? (raw : String) : Option String :=
  let (negative, cs) := splitSign (cleaned raw)
  let (radix, ds) := splitRadix cs
  match valueIn? radix ds with
  | some v =>
    if v < Nat.pow 2 128 then some ((if negative then "-" else "") ++ toString v) else none
  | none => none

end RubyJs.Numbers
