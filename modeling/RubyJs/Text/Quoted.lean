import RubyJs.Text.Shown

set_option autoImplicit false

/-! # Quoted text in messages

A text in a message stands between double quotes, so that its ends and its odd characters can be
seen: the quote and the backslash get a backslash, five control characters have a letter of their
own, and a character that does not show is written as its code point in hexadecimal, `\u{200b}`.
-/

namespace RubyJs.Text

/-- The hexadecimal digits of `n`, without leading zeros. -/
def hex (n : Nat) : String := String.ofList (Nat.toDigits 16 n)

/-- A character inside a quoted form. -/
def quotedChar (c : Char) : String :=
  match c with
  | '\x00' => "\\0"
  | '\t' => "\\t"
  | '\n' => "\\n"
  | '\r' => "\\r"
  | '"' => "\\\""
  | '\\' => "\\\\"
  | c => if isShown c then c.toString else "\\u\x7b" ++ hex c.toNat ++ "\x7d"

/-- The quoted form of `s`. -/
def quoted (s : String) : String :=
  "\"" ++ String.join (s.toList.map quotedChar) ++ "\""

end RubyJs.Text
