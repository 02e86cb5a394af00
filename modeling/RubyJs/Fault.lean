import RubyJs.Token.Wording

set_option autoImplicit false

/-! # Faults of a unit's text

A text that is no program has a `Fault`: its cause and the byte offset where it shows. The wording
of a cause is `Cause.message`; a `ParseError` is a fault with the unit's name and the place as line
and column.
-/

namespace RubyJs

/-- What is wrong with a text. -/
inductive Cause where
  /-- A document comment without its end. -/
  | unclosedDocument
  | unexpectedChar (c : Char)
  | lambdaLiteral
  | noDigits
  | badDigit
  | classVariable
  | bareAt
  | bareDollar
  | unclosedString
  | unclosedInterpolation
  | unclosedEscape
  | badHexEscape
  | unclosedUnicodeEscape
  | badUnicodeEscape
  | badCodePoint
  /-- Something was needed and another token stands there. -/
  | expected (what : String) (found : TokenKind)
  | unexpected (found : TokenKind)
  | notAssignable
  | nameAfterColons
  | constantAfterColons
  | destructuring
  | blockParameter
  | keywordParameter
  | methodParameter
  | parameterName
  | blockInArray
  | caseWithoutWhen
  | constantName
  | methodNameAfterDot
  | methodName
  /-- The bound on the reader's steps was too small for the text. -/
  | exhausted
  /-- The reader left a scope that it had not entered, or released a `do` that it had not taken. -/
  | unbalanced
deriving DecidableEq, Repr

namespace Cause

/-- The wording of a cause. -/
def message : Cause → String
  | unclosedDocument => "embedded document meets end of file"
  | unexpectedChar c => "unexpected character '" ++ c.toString ++ "'"
  | lambdaLiteral => "lambda literals are not supported"
  | noDigits => "numeric literal without digits"
  | badDigit => "invalid digit in numeric literal"
  | classVariable => "class variables are not supported"
  | bareAt => "'@' without identifiers is not allowed"
  | bareDollar => "'$' without identifiers is not allowed"
  | unclosedString => "unterminated string meets end of file"
  | unclosedInterpolation => "unterminated string interpolation"
  | unclosedEscape => "unterminated escape sequence"
  | badHexEscape => "invalid hex escape"
  | unclosedUnicodeEscape => "unterminated Unicode escape"
  | badUnicodeEscape => "invalid Unicode escape"
  | badCodePoint => "invalid Unicode codepoint"
  | expected what found => "expected " ++ what ++ ", found " ++ found.describe
  | unexpected found => "unexpected " ++ found.describe
  | notAssignable => "cannot assign to this expression"
  | nameAfterColons => "expected a name after '::'"
  | constantAfterColons => "expected a constant after '::'"
  | destructuring => "destructuring block parameters are not supported"
  | blockParameter => "unexpected token in block parameters"
  | keywordParameter => "keyword arguments are not supported"
  | methodParameter => "unexpected token in method parameters"
  | parameterName => "expected a parameter name"
  | blockInArray => "block argument in array literal"
  | caseWithoutWhen => "case without when clauses"
  | constantName => "class/module name must be CONSTANT"
  | methodNameAfterDot => "expected a method name after '.'"
  | methodName => "expected a method name"
  | exhausted => "text is nested too deeply"
  | unbalanced => "scopes are not balanced"

end Cause

/-- A cause and the offset where it shows. -/
structure Fault where
  offset : Nat
  cause : Cause
deriving DecidableEq, Repr

/-- A fault of the unit `file`, placed by line and column. -/
structure ParseError where
  file : String
  position : Position
  cause : Cause
deriving DecidableEq, Repr

namespace ParseError

/-- The fault `f` of the unit `file` with the text `text`. -/
def ofFault (file text : String) (f : Fault) : ParseError :=
  ⟨file, Position.ofOffset text f.offset, f.cause⟩

/-- The wording of an error: unit, line, column and cause. -/
def message (e : ParseError) : String :=
  e.file ++ ":" ++ toString e.position.line ++ ":" ++ toString e.position.column ++ ": "
    ++ e.cause.message

end ParseError

end RubyJs
