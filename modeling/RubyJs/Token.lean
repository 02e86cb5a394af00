import RubyJs.Text.Position

set_option autoImplicit false

/-! # Tokens

A unit's text is read as a list of tokens. A token knows the bytes it was written with (`span`)
and whether a blank stands before it (`spaced`), because blanks decide a few things of the
grammar: `foo -1` passes an argument and `foo - 1` subtracts.

A string-like literal keeps the code of an interpolation `#{…}` as a span; it is read when the
literal is.
-/

namespace RubyJs

/-- The reserved words. -/
inductive Keyword where
  | aliasKw | andKw | beginKw | breakKw | caseKw | classKw | defKw | doKw | elseKw | elsifKw
  | endKw | ensureKw | falseKw | fileKw | ifKw | moduleKw | nextKw | nilKw | notKw | orKw
  | rescueKw | returnKw | selfKw | superKw | thenKw | trueKw | undefKw | unlessKw | untilKw
  | whenKw | whileKw | yieldKw
deriving DecidableEq, Repr

namespace Keyword

/-- Every reserved word, in alphabetical order of the keyword's name. -/
def all : List Keyword :=
  [aliasKw, andKw, beginKw, breakKw, caseKw, classKw, defKw, doKw, elseKw, elsifKw, endKw,
    ensureKw, falseKw, fileKw, ifKw, moduleKw, nextKw, nilKw, notKw, orKw, rescueKw, returnKw,
    selfKw, superKw, thenKw, trueKw, undefKw, unlessKw, untilKw, whenKw, whileKw, yieldKw]

/-- A reserved word as it is written. -/
def text : Keyword → String
  | aliasKw => "alias"
  | andKw => "and"
  | beginKw => "begin"
  | breakKw => "break"
  | caseKw => "case"
  | classKw => "class"
  | defKw => "def"
  | doKw => "do"
  | elseKw => "else"
  | elsifKw => "elsif"
  | endKw => "end"
  | ensureKw => "ensure"
  | falseKw => "false"
  | fileKw => "__FILE__"
  | ifKw => "if"
  | moduleKw => "module"
  | nextKw => "next"
  | nilKw => "nil"
  | notKw => "not"
  | orKw => "or"
  | rescueKw => "rescue"
  | returnKw => "return"
  | selfKw => "self"
  | superKw => "super"
  | thenKw => "then"
  | trueKw => "true"
  | undefKw => "undef"
  | unlessKw => "unless"
  | untilKw => "until"
  | whenKw => "when"
  | whileKw => "while"
  | yieldKw => "yield"

/-- The reserved word written `word`, if there is one. -/
def ofText? (word : String) : Option Keyword :=
  all.find? (·.text == word)

end Keyword

/-- A piece of a string-like literal. -/
inductive Segment where
  /-- Text, with its escapes resolved. -/
  | text (value : String)
  /-- The bytes of code between the braces of an interpolation. -/
  | code (span : Span)
deriving DecidableEq, Repr

/-- What a token is. -/
inductive TokenKind where
  | eof
  | newline
  | semi
  | int (text : String)
  | float (text : String)
  | str (segments : List Segment)
  | xstr (segments : List Segment)
  | symbol (name : String)
  | dsymbol (segments : List Segment)
  | words (items : List String)
  | ident (name : String)
  | const (name : String)
  | ivar (name : String)
  | gvar (name : String)
  /-- `name:` inside hashes and argument lists. -/
  | label (name : String)
  | keyword (word : Keyword)
  | lparen | rparen | lbracket | rbracket | lbrace | rbrace
  | comma | dot | dot2 | dot3 | colonColon | colon | question | arrow | pipe
  | assign
  /-- `op=`, with the operator as its text. -/
  | opAssign (op : String)
  | plus | minus | star | pow | slash | percent
  | eq | eqq | notEq | eqTilde | bangTilde | lt | le | gt | ge | cmp
  | andAnd | orOr | bang | tilde | amp | caret | shl | shr
deriving DecidableEq, Repr

namespace TokenKind

/-- Whether a token of this kind can end an operand. -/
def endsValue : TokenKind → Bool
  | int _ | float _ | str _ | xstr _ | symbol _ | dsymbol _ | words _ | ident _ | const _
  | ivar _ | gvar _ | rparen | rbracket | rbrace => true
  | keyword w =>
    (w matches .endKw | .selfKw | .nilKw | .trueKw | .falseKw | .fileKw)
  | _ => false

/-- Whether an expression goes on after a token of this kind at the end of a line. -/
def continuesLine : TokenKind → Bool
  | comma | dot | dot2 | dot3 | colonColon | colon | question | arrow | pipe
  | lparen | lbracket | lbrace | assign | opAssign _
  | plus | minus | star | pow | slash | percent
  | eq | eqq | notEq | eqTilde | bangTilde | lt | le | gt | ge | cmp
  | andAnd | orOr | amp | caret | shl | shr | newline | semi => true
  | keyword w => (w matches .andKw | .orKw | .notKw)
  | _ => false

/-- The method that an operator token names. -/
def operatorName? : TokenKind → Option String
  | plus => some "+"
  | minus => some "-"
  | star => some "*"
  | pow => some "**"
  | slash => some "/"
  | percent => some "%"
  | eq => some "=="
  | eqq => some "==="
  | notEq => some "!="
  | eqTilde => some "=~"
  | lt => some "<"
  | le => some "<="
  | gt => some ">"
  | ge => some ">="
  | cmp => some "<=>"
  | bang => some "!"
  | tilde => some "~"
  | amp => some "&"
  | pipe => some "|"
  | caret => some "^"
  | shl => some "<<"
  | shr => some ">>"
  | _ => none

end TokenKind

/-- A token: what it is, the bytes it was written with, and whether a blank or a comment stands
between it and the token before. -/
structure Token where
  kind : TokenKind
  span : Span
  spaced : Bool
deriving DecidableEq, Repr

namespace Token

/-- The token that ends a text of which the last byte stands before `offset`. -/
def endOfInput (offset : Nat) : Token := ⟨.eof, ⟨offset, offset⟩, true⟩

end Token

/-- The tokens of a text. -/
structure Lexed where
  /-- The tokens that were written, in order. -/
  written : List Token
  /-- The offset where the text ends. -/
  stop : Nat
  /-- The text after a marker line, if the text has one. -/
  endData : Option String
deriving DecidableEq, Repr

namespace Lexed

/-- The written tokens and the end of input. -/
def tokens (l : Lexed) : List Token := l.written ++ [Token.endOfInput l.stop]

end Lexed

end RubyJs
