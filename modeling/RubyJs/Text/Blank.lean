set_option autoImplicit false

/-! # Blanks, words and trimming

A blank is a character with the Unicode property White_Space.
-/

namespace RubyJs.Text

/-- Whether `c` is a blank. -/
def isBlank (c : Char) : Bool :=
  let n := c.toNat
  (0x09 ≤ n && n ≤ 0x0d) || n == 0x20 || n == 0x85 || n == 0xa0 || n == 0x1680
    || (0x2000 ≤ n && n ≤ 0x200a) || n == 0x2028 || n == 0x2029 || n == 0x202f || n == 0x205f
    || n == 0x3000

/-- `cs` without the blanks at its two ends. -/
def trimList (cs : List Char) : List Char :=
  ((cs.dropWhile isBlank).reverse.dropWhile isBlank).reverse

/-- `s` without the blanks at its two ends. -/
def trim (s : String) : String := String.ofList (trimList s.toList)

/-- The longest runs without a blank. -/
def wordsList : List Char → List (List Char)
  | [] => []
  | c :: cs =>
    if isBlank c then wordsList cs
    else
      match cs, wordsList cs with
      | d :: _, w :: ws => if isBlank d then [c] :: w :: ws else (c :: w) :: ws
      | _, ws => [c] :: ws

/-- The words of `s`, divided by blanks. -/
def words (s : String) : List String := (wordsList s.toList).map String.ofList

end RubyJs.Text
