set_option autoImplicit false

/-! # Binary floating-point numbers

Numbers of the form `m · 2^q` with a significand `m` of at most 53 bits and `q` from −1074 to 971,
beside the infinities and NaN, and rounding of a decimal to the nearest of them, a tie to the even
significand.
-/

namespace RubyJs

/-- A floating-point number of 64 bits. -/
inductive Binary where
  | nan
  | infinite (negative : Bool)
  /-- `m · 2^q`, below zero if `negative`. -/
  | finite (negative : Bool) (m : Nat) (q : Int)
deriving DecidableEq, Repr

namespace Binary

/-- The number with these 64 bits: sign, eleven bits of exponent, 52 of significand. -/
def ofBits (bits : Nat) : Binary :=
  let negative := bits / Nat.pow 2 63 % 2 == 1
  let exponent : Nat := bits / Nat.pow 2 52 % Nat.pow 2 11
  let fraction := bits % Nat.pow 2 52
  if exponent == 2047 then if fraction == 0 then infinite negative else nan
  else if exponent == 0 then finite negative fraction (-1074)
  else finite negative (Nat.pow 2 52 + fraction) ((exponent : Int) - 1075)

/-- `num / den` rounded to an integer, a half to the even one. -/
def roundQuotient (num den : Nat) : Nat :=
  let floor := num / den
  let twice := 2 * (num % den)
  if twice < den then floor
  else if den < twice then floor + 1
  else if floor % 2 == 0 then floor else floor + 1

/-- The fraction `num / den` divided by `2^q`. -/
def scaleDown (num den : Nat) (q : Int) : Nat × Nat :=
  if 0 ≤ q then (num, den * Nat.pow 2 q.toNat) else (num * Nat.pow 2 (-q).toNat, den)

/-- The number nearest to `num / den`, which is not zero. -/
def ofFraction (negative : Bool) (num den : Nat) : Binary :=
  let guess : Int := (num.log2 : Int) - den.log2
  let (n, d) := scaleDown num den guess
  let top := if n < d then guess - 1 else guess
  let q := max (top - 52) (-1074)
  let (n, d) := scaleDown num den q
  let m := roundQuotient n d
  let (m, q) := if m == Nat.pow 2 53 then (Nat.pow 2 52, q + 1) else (m, q)
  if 971 < q then infinite negative else finite negative m q

/-- The number nearest to `digits · 10^exponent`. What is far outside the range of the numbers is
decided by the place of the first digit. -/
def ofDecimal (negative : Bool) (digits : Nat) (exponent : Int) : Binary :=
  let place : Int := (Nat.toDigits 10 digits).length + exponent
  if digits == 0 || place < -330 then finite negative 0 (-1074)
  else if 310 < place then infinite negative
  else if 0 ≤ exponent then ofFraction negative (digits * Nat.pow 10 exponent.toNat) 1
  else ofFraction negative digits (Nat.pow 10 (-exponent).toNat)

end Binary

end RubyJs
