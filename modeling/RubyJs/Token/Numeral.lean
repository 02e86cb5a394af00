import RubyJs.Fault
import RubyJs.Token.Cursor

set_option autoImplicit false

/-! # Number literals

A number is a decimal, with a fraction or an exponent if it is a float, or an integer in another
radix: `0x1f`, `0b101`, `0o17`, `0d19`, and `017` with a leading zero alone. Underscores may stand
between and after digits and mean nothing. The token keeps the text as it is written.
-/

namespace RubyJs

namespace Numeral

/-- The value of a digit in the radices up to sixteen. -/
def digitValue? (c : Char) : Option Nat :=
  if '0' ≤ c && c ≤ '9' then some (c.toNat - '0'.toNat)
  else if 'a' ≤ c && c ≤ 'f' then some (c.toNat - 'a'.toNat + 10)
  else if 'A' ≤ c && c ≤ 'F' then some (c.toNat - 'A'.toNat + 10)
  else none

/-- Whether `c` is a digit in `radix`. -/
def isDigitIn (radix : Nat) (c : Char) : Bool :=
  match digitValue? c with
  | some v => v < radix
  | none => false

/-- The radix that the letter after a leading zero announces. -/
def radixOf? (c : Char) : Option Nat :=
  match c with
  | 'x' | 'X' => some 16
  | 'b' | 'B' => some 2
  | 'o' | 'O' => some 8
  | 'd' | 'D' => some 10
  | _ => none

/-- The decimal digits and underscores at the front. -/
def digitRun (cs : List Char) : List Char :=
  cs.takeWhile (fun c => c.isDigit || c == '_')

/-- The fraction at the front: a point with a digit after it, and the digits. -/
def fraction : List Char → List Char
  | '.' :: d :: cs => if d.isDigit then '.' :: digitRun (d :: cs) else []
  | _ => []

/-- Whether a digit stands at the front. -/
def startsWithDigit : List Char → Bool
  | c :: _ => c.isDigit
  | [] => false

/-- The exponent at the front: the letter `e`, perhaps a sign, a digit, and the digits. -/
def exponent : List Char → List Char
  | e :: s :: cs =>
    if e == 'e' || e == 'E' then
      if s == '+' || s == '-' then
        if startsWithDigit cs then e :: s :: digitRun cs else []
      else if s.isDigit then e :: digitRun (s :: cs) else []
    else []
  | _ => []

/-- The digits `body`, which begin at offset `at_`, must be digits of `radix`, and there must be
one. The literal begins at `start`. -/
def checkDigits (start at_ radix : Nat) (body : List Char) : Except Fault Unit :=
  if body.all (· == '_') then .error ⟨start, .noDigits⟩
  else
    match body.findIdx? (fun c => c != '_' && !isDigitIn radix c) with
    | some i => .error ⟨at_ + i, .badDigit⟩
    | none => .ok ()

/-- Whether a body with a radix can go on with `c`; that it is a digit is checked afterwards. -/
def isBodyChar (c : Char) : Bool := c.isAlphanum || c == '_'

/-- The number at the front of `cs`, a text that begins with a digit at offset `start`: the token
and the characters it is written with. -/
def scan (start : Nat) (cs : List Char) : Except Fault (TokenKind × List Char) :=
  match cs with
  | '0' :: r :: cs' =>
    match radixOf? r with
    | some radix => do
      let body := cs'.takeWhile isBodyChar
      checkDigits start (start + 2) radix body
      let lexeme := '0' :: r :: body
      .ok (.int (String.ofList lexeme), lexeme)
    | none => decimal cs
  | cs => decimal cs
where
  /-- A number without a radix letter. -/
  decimal (cs : List Char) : Except Fault (TokenKind × List Char) := do
    let whole := digitRun cs
    let frac := fraction (cs.drop whole.length)
    let expo := exponent (cs.drop (whole.length + frac.length))
    if frac.isEmpty && expo.isEmpty then
      match whole with
      | '0' :: d :: ds => checkDigits start (start + 1) 8 (d :: ds)
      | _ => .ok ()
      .ok (.int (String.ofList whole), whole)
    else
      let lexeme := whole ++ frac ++ expo
      .ok (.float (String.ofList lexeme), lexeme)

end Numeral

end RubyJs
