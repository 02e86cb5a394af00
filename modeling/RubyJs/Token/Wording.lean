import RubyJs.Text.Quoted
import RubyJs.Token

set_option autoImplicit false

/-! # Tokens in messages

Each kind of token has a name. A message shows a token by a wording of its own where there is one
(`number 12`, `'foo'`, `end of input`) and otherwise by its name with what it carries, texts in
quoted form:

    RParen      OpAssign("+")      Words(["a", "b"])
    DSymbol([Text("a"), Code(Span { start: 13, end: 14 })])
-/

namespace RubyJs

namespace TokenKind

/-- The name of a kind of token. -/
def name : TokenKind → String
  | eof => "Eof"
  | newline => "Newline"
  | semi => "Semi"
  | int _ => "Int"
  | float _ => "Float"
  | str _ => "Str"
  | xstr _ => "XStr"
  | symbol _ => "Symbol"
  | dsymbol _ => "DSymbol"
  | words _ => "Words"
  | ident _ => "Ident"
  | const _ => "Const"
  | ivar _ => "IVar"
  | gvar _ => "GVar"
  | label _ => "Label"
  | keyword _ => "Keyword"
  | lparen => "LParen"
  | rparen => "RParen"
  | lbracket => "LBracket"
  | rbracket => "RBracket"
  | lbrace => "LBrace"
  | rbrace => "RBrace"
  | comma => "Comma"
  | dot => "Dot"
  | dot2 => "Dot2"
  | dot3 => "Dot3"
  | colonColon => "ColonColon"
  | colon => "Colon"
  | question => "Question"
  | arrow => "Arrow"
  | pipe => "Pipe"
  | assign => "Assign"
  | opAssign _ => "OpAssign"
  | plus => "Plus"
  | minus => "Minus"
  | star => "Star"
  | pow => "Pow"
  | slash => "Slash"
  | percent => "Percent"
  | eq => "Eq"
  | eqq => "Eqq"
  | notEq => "NotEq"
  | eqTilde => "Match"
  | bangTilde => "NotMatch"
  | lt => "Lt"
  | le => "Le"
  | gt => "Gt"
  | ge => "Ge"
  | cmp => "Cmp"
  | andAnd => "AndAnd"
  | orOr => "OrOr"
  | bang => "Bang"
  | tilde => "Tilde"
  | amp => "Amp"
  | caret => "Caret"
  | shl => "Shl"
  | shr => "Shr"

end TokenKind

/-- Items between brackets, divided by commas. -/
def bracketed (items : List String) : String :=
  "[" ++ ", ".intercalate items ++ "]"

/-- A span with its fields named. -/
def Span.shape (s : Span) : String :=
  "Span \x7b start: " ++ toString s.start ++ ", end: " ++ toString s.stop ++ " \x7d"

/-- A segment by its name and what it carries. -/
def Segment.shape : Segment → String
  | .text t => "Text(" ++ Text.quoted t ++ ")"
  | .code s => "Code(" ++ s.shape ++ ")"

namespace TokenKind

/-- A token by its name and what it carries. -/
def shape (k : TokenKind) : String :=
  match k with
  | str ss | xstr ss | dsymbol ss => k.name ++ "(" ++ bracketed (ss.map Segment.shape) ++ ")"
  | words ws => k.name ++ "(" ++ bracketed (ws.map Text.quoted) ++ ")"
  | int s | float s | symbol s | ident s | const s | ivar s | gvar s | label s | opAssign s =>
    k.name ++ "(" ++ Text.quoted s ++ ")"
  | k => k.name

/-- A token as a message shows it. -/
def describe (k : TokenKind) : String :=
  match k with
  | eof => "end of input"
  | newline => "newline"
  | int t | float t => "number " ++ t
  | str _ => "string literal"
  | xstr _ => "x-string"
  | symbol n => "symbol :" ++ n
  | ident n | const n => "'" ++ n ++ "'"
  | ivar n => "'@" ++ n ++ "'"
  | gvar n => "'$" ++ n ++ "'"
  | label n => "label '" ++ n ++ ":'"
  | keyword w => "'" ++ w.text ++ "'"
  | k =>
    match k.operatorName? with
    | some op => "'" ++ op ++ "'"
    | none => k.shape

end TokenKind

end RubyJs
