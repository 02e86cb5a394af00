import RubyJs.Text.Quoted

set_option autoImplicit false

/-! # Names and strings of the output

A method `m` of the program is a property `$m` of its receiver. A local variable keeps its name, and
a name that JavaScript keeps for itself gets a dollar at its end. The names that the compiler brings
in start with a dollar or are among `self`, `nil`, `def` and `Opal`, which no local variable is
called.

    map        .$map
    empty?     ["$empty?"]
    default    default$
-/

namespace RubyJs.Script

/-! ## Strings -/

/-- A character in a string literal. -/
def escape (c : Char) : List Char :=
  if c == '\x22' then ['\\', '\x22']
  else if c == '\\' then ['\\', '\\']
  else if c == '\n' then ['\\', 'n']
  else if c == '\r' then ['\\', 'r']
  else if c == '\t' then ['\\', 't']
  else if c == '\x08' then ['\\', 'b']
  else if c == '\x0c' then ['\\', 'f']
  else if c.toNat < 0x20 || c == '\u2028' || c == '\u2029' then '\\' :: 'u' :: hexDigits4 c.toNat
  else [c]
where
  /-- The last four hexadecimal digits of a number. -/
  hexDigits4 (n : Nat) : List Char :=
    [Nat.digitChar (n / 4096 % 16), Nat.digitChar (n / 256 % 16), Nat.digitChar (n / 16 % 16),
      Nat.digitChar (n % 16)]

/-- The string literal for a text. -/
def stringLiteral (text : String) : String :=
  String.ofList ('\x22' :: (text.toList.flatMap escape ++ ['\x22']))

/-! ## Identifiers -/

/-- Whether a character can start an identifier. -/
def isIdentStart (c : Char) : Bool := c.isAlpha || c == '_' || c == '$'

/-- Whether a character can stand inside an identifier. -/
def isIdentRest (c : Char) : Bool := c.isAlphanum || c == '_' || c == '$'

/-- Whether a text is an identifier of plain letters. -/
def isIdentifier (text : String) : Bool :=
  match text.toList with
  | [] => false
  | c :: cs => isIdentStart c && cs.all isIdentRest

/-- The words that JavaScript keeps for itself. -/
def reserved : List String :=
  ["arguments", "break", "case", "catch", "class", "const", "continue", "debugger", "default",
    "delete", "do", "else", "enum", "eval", "export", "extends", "false", "finally", "for",
    "function", "if", "implements", "import", "in", "instanceof", "interface", "let", "new",
    "null", "package", "private", "protected", "public", "return", "static", "super", "switch",
    "this", "throw", "true", "try", "typeof", "undefined", "var", "void", "while", "with", "yield",
    "NaN", "Infinity"]

/-- The properties that every object has. -/
def inherited : List String :=
  ["constructor", "prototype", "__proto__", "toString", "valueOf", "hasOwnProperty"]

/-- The name of a local variable. -/
def localName (name : String) : String := if reserved.contains name then name ++ "$" else name

/-- The property that holds an instance variable. -/
def instanceProperty (name : String) : String :=
  if inherited.contains name then name ++ "$" else name

/-- The property that holds a method. -/
def methodProperty (name : String) : String := "$" ++ name

/-- The text that reads a method from its receiver. -/
def methodAccess (name : String) : String :=
  let property := methodProperty name
  if isIdentifier property then "." ++ property else "[" ++ stringLiteral property ++ "]"

/-! ## Function names -/

/-- A character of a method's name, spelled with the characters of an identifier. -/
def spelledChar (c : Char) : String :=
  match c with
  | '?' => "$p"
  | '!' => "$b"
  | '=' => "$eq"
  | '+' => "$plus"
  | '-' => "$minus"
  | '*' => "$times"
  | '/' => "$div"
  | '%' => "$mod"
  | '<' => "$lt"
  | '>' => "$gt"
  | '[' => "$lb"
  | ']' => "$rb"
  | '~' => "$tilde"
  | '&' => "$and"
  | '|' => "$or"
  | '^' => "$xor"
  | '@' => "$at"
  | c => if c.isAlphanum || c == '_' then c.toString else "$" ++ Text.hex c.toNat

/-- The name of the function that a method is. -/
def functionName (name : String) : String := "$$" ++ String.join (name.toList.map spelledChar)

end RubyJs.Script
