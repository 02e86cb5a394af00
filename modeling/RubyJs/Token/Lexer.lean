import RubyJs.Text.Blank
import RubyJs.Token.Quote

set_option autoImplicit false

/-! # From text to tokens

`lex` reads a whole unit, `lexRange` a part of one (the code of an interpolation), with spans in
the whole text. Between tokens stand blanks, comments, documents

    =begin
    …
    =end

and line ends. A line end is a token unless the expression goes on: after an operator or an opening
delimiter, or before a line that begins with a single dot. A line with `__END__` alone ends the
program; what follows is the unit's data.
-/

namespace RubyJs

namespace Lexer

/-! ## Single tokens -/

/-- The operators and delimiters that mean one thing. Of two that begin alike the longer stands
first, so the first match is the longest. -/
def operators : List (String × TokenKind) :=
  [("(", .lparen), (")", .rparen), ("[", .lbracket), ("]", .rbracket), ("\x7b", .lbrace),
    ("\x7d", .rbrace), (",", .comma), (";", .semi), ("?", .question), ("~", .tilde),
    ("...", .dot3), ("..", .dot2), (".", .dot),
    ("**=", .opAssign "**"), ("**", .pow), ("*=", .opAssign "*"), ("*", .star),
    ("<=>", .cmp), ("<<=", .opAssign "<<"), ("<<", .shl), ("<=", .le), ("<", .lt),
    (">>=", .opAssign ">>"), (">>", .shr), (">=", .ge), (">", .gt),
    ("===", .eqq), ("==", .eq), ("=~", .eqTilde), ("=>", .arrow), ("=", .assign),
    ("!=", .notEq), ("!~", .bangTilde), ("!", .bang),
    ("&&=", .opAssign "&&"), ("&&", .andAnd), ("&=", .opAssign "&"), ("&", .amp),
    ("||=", .opAssign "||"), ("||", .orOr), ("|=", .opAssign "|"), ("|", .pipe),
    ("+=", .opAssign "+"), ("+", .plus), ("-=", .opAssign "-"), ("-", .minus),
    ("/=", .opAssign "/"), ("/", .slash), ("^=", .opAssign "^"), ("^", .caret),
    ("%=", .opAssign "%"), ("%", .percent)]

/-- The operator at the cursor, and the cursor after it. -/
def operator? (cur : Cursor) : Option (TokenKind × Cursor) :=
  (operators.find? (fun o => startsWith o.1 cur.rest)).map
    (fun o => (o.2, cur.skip o.1.length))

/-- The mark `?` or `!` that ends a method name, unless an equals sign follows it. -/
def nameMark : List Char → List Char
  | c :: cs => if (c == '?' || c == '!') && cs.head? != some '=' then [c] else []
  | [] => []

/-- Whether a name before `cs` is a label: one colon follows. -/
def colonFollows : List Char → Bool
  | ':' :: cs => cs.head? != some ':'
  | _ => false

/-- The word at the cursor: a label, constant, reserved word or name. After a dot there are no
reserved words; a label is no constant and does not follow a dot or a question mark. -/
def word (last : Option TokenKind) (cur : Cursor) : TokenKind × Cursor :=
  let chars := cur.rest.takeWhile isNameChar
  let lexeme := chars ++ nameMark (cur.rest.drop chars.length)
  let next := cur.skip lexeme.length
  let text := String.ofList lexeme
  let isConst := match lexeme with
    | c :: _ => c.isUpper
    | [] => false
  let afterDot := last == some .dot
  if colonFollows next.rest && !isConst && !afterDot && last != some .question then
    (.label text, next.skip 1)
  else if isConst then (.const text, next)
  else if afterDot then (.ident text, next)
  else
    match Keyword.ofText? text with
    | some w => (.keyword w, next)
    | none => (.ident text, next)

/-- The instance variable at the cursor, which stands at `@`. -/
def instanceVariable (cur : Cursor) : Except Fault (TokenKind × Cursor) :=
  let chars := (cur.rest.drop 1).takeWhile isNameChar
  match cur.peekAt 1 with
  | some c =>
    if c == '@' then .error ⟨cur.offset, .classVariable⟩
    else if isNameStart c then .ok (.ivar (String.ofList chars), cur.skip (1 + chars.length))
    else .error ⟨cur.offset, .bareAt⟩
  | none => .error ⟨cur.offset, .bareAt⟩

/-- The marks that name a global variable by themselves. -/
def globalMarks : List Char :=
  ['!', '@', '&', '~', '=', '/', '\\', ',', ';', '.', '<', '>', '_', '*', '$', '?', ':', '\x22',
    '\x27', '0']

/-- The global variable at the cursor, which stands at `$`. -/
def globalVariable (cur : Cursor) : Except Fault (TokenKind × Cursor) :=
  let chars := (cur.rest.drop 1).takeWhile isNameChar
  if !chars.isEmpty then .ok (.gvar (String.ofList chars), cur.skip (1 + chars.length))
  else
    match cur.peekAt 1 with
    | some c =>
      if globalMarks.contains c then .ok (.gvar c.toString, cur.skip 2)
      else .error ⟨cur.offset, .bareDollar⟩
    | none => .error ⟨cur.offset, .bareDollar⟩

/-- Whether `:` and `%` at the cursor begin a literal. They do unless a value stands before; after
a name they do if a blank stands before and none after. -/
def literalAllowed (last : Option TokenKind) (spaced : Bool) (cur : Cursor) : Bool :=
  match last with
  | none => true
  | some k =>
    if !k.endsValue then true
    else
      let blankAfter := match cur.peekAt 1 with
        | none => true
        | some c => c == ' ' || c == '\t' || c == '\r' || c == '\n'
      (k matches .ident _) && spaced && !blankAfter

/-- The operators that can be written as a symbol. Of two that begin alike the longer stands
first. -/
def symbolOperators : List String :=
  ["[]=", "[]", "<=>", "===", "==", "=~", "!=", "!~", "**", "+@", "-@", "<<", ">>", "<=", ">=",
    "+", "-", "*", "/", "%", "<", ">", "!", "&", "|", "^", "~"]

/-- The mark that ends the name of a symbol: `?` or `!` before no equals sign, or an equals sign
that is no part of `==`, `=~` or `=>`. -/
def symbolMark : List Char → List Char
  | '=' :: cs =>
    match cs.head? with
    | some c => if c == '=' || c == '~' || c == '>' then [] else ['=']
    | none => ['=']
  | cs => nameMark cs

/-- The colon, symbol or double colon at the cursor, which stands at `:`. -/
def colon (last : Option TokenKind) (spaced : Bool) (cur : Cursor) :
    Except Fault (TokenKind × Cursor) :=
  if cur.peekAt 1 == some ':' then .ok (.colonColon, cur.skip 2)
  else if !literalAllowed last spaced cur then .ok (.colon, cur.skip 1)
  else
    match cur.peekAt 1 with
    | some c =>
      if c == '\x22' then do
        let (segments, next) ←
          Literal.body ⟨c, c, .double, cur.offset + 1⟩ (cur.skip 2)
        .ok (.dsymbol segments, next)
      else if c == '\x27' then do
        let (segments, next) ←
          Literal.body ⟨c, c, .single, cur.offset + 1⟩ (cur.skip 2)
        .ok (.dsymbol segments, next)
      else if isNameStart c || c == '@' || c == '$' then
        let cs := cur.rest.drop 1
        let sigils := cs.takeWhile (fun c => c == '@' || c == '$')
        let chars := (cs.drop sigils.length).takeWhile isNameChar
        let mark := symbolMark (cs.drop (sigils.length + chars.length))
        let name := sigils ++ chars ++ mark
        .ok (.symbol (String.ofList name), cur.skip (1 + name.length))
      else
        match symbolOperators.find? (fun o => startsWith o (cur.rest.drop 1)) with
        | some op => .ok (.symbol op, cur.skip (1 + op.length))
        | none => .ok (.colon, cur.skip 1)
    | none => .ok (.colon, cur.skip 1)

/-- Whether a `%` literal can open with `c`. -/
def isDelimiter (c : Char) : Bool :=
  c == '(' || c == '[' || c == '{' || c == '<' || c == '|' || c == '!' || c == '/' || c == '^'

/-- The delimiter that closes what `c` opens. -/
def closingDelimiter (c : Char) : Char :=
  match c with
  | '(' => ')'
  | '[' => ']'
  | '{' => '}'
  | '<' => '>'
  | c => c

/-- The text of segments; code counts for nothing. -/
def segmentsText (ss : List Segment) : String :=
  String.join (ss.map (fun s => match s with
    | .text t => t
    | .code _ => ""))

/-- The letter of a `%` literal and how many characters stand before its delimiter. Without a letter
it is `Q`. -/
def percentForm? (cur : Cursor) : Option (Char × Nat) :=
  match cur.peekAt 1 with
  | none => none
  | some c =>
    if (c == 'x' || c == 'w' || c == 'W' || c == 'q' || c == 'Q')
        && (cur.peekAt 2).any isDelimiter then some (c, 2)
    else if isDelimiter c then some ('Q', 1)
    else none

/-- The literal at the cursor, which stands at `%`, if one is written there. -/
def percentLiteral? (cur : Cursor) : Option (Except Fault (TokenKind × Cursor)) :=
  match percentForm? cur with
  | none => none
  | some (form, at_) =>
    match cur.peekAt at_ with
    | none => none
    | some opening =>
      let literal (q : Quoting) : Literal :=
        ⟨opening, closingDelimiter opening, q, cur.offset + at_⟩
      let inside := cur.skip (at_ + 1)
      some <| match form with
        | 'x' => do
          let (ss, next) ← (literal .verbatim).body inside
          .ok (.xstr ss, next)
        | 'q' => do
          let (ss, next) ← (literal .single).body inside
          .ok (.str ss, next)
        | 'Q' => do
          let (ss, next) ← (literal .double).body inside
          .ok (.str ss, next)
        | _ => do
          let (ss, next) ← (literal .single).body inside
          .ok (.words (Text.words (segmentsText ss)), next)

/-- The token at the cursor, where no blank stands: what it is, and the cursor after it. `last` is
the token before and `spaced` whether a blank stands between. -/
def token (last : Option TokenKind) (spaced : Bool) (cur : Cursor) :
    Except Fault (TokenKind × Cursor) :=
  match cur.rest with
  | [] => .ok (.eof, cur)
  | c :: cs =>
    if c == '\x22' then do
      let (ss, next) ← Literal.body ⟨c, c, .double, cur.offset⟩ (cur.skip 1)
      .ok (.str ss, next)
    else if c == '\x27' then do
      let (ss, next) ← Literal.body ⟨c, c, .single, cur.offset⟩ (cur.skip 1)
      .ok (.str ss, next)
    else if c == '\x60' then do
      let (ss, next) ← Literal.body ⟨c, c, .verbatim, cur.offset⟩ (cur.skip 1)
      .ok (.xstr ss, next)
    else if c.isDigit then do
      let (kind, lexeme) ← Numeral.scan cur.offset cur.rest
      .ok (kind, cur.skip lexeme.length)
    else if c == '@' then instanceVariable cur
    else if c == '$' then globalVariable cur
    else if c == ':' then colon last spaced cur
    else if c == '-' && cs.head? == some '>' then .error ⟨cur.offset, .lambdaLiteral⟩
    else if isNameStart c then .ok (word last cur)
    else
      match if c == '%' && literalAllowed last spaced cur then percentLiteral? cur else none with
      | some literal => literal
      | none =>
        match operator? cur with
        | some t => .ok t
        | none => .error ⟨cur.offset, .unexpectedChar c⟩

/-! ## Between tokens -/

/-- The data after a marker line at the front. -/
def markedData? (cs : List Char) : Option (List Char) :=
  if startsWith "__END__" cs then
    match cs.drop 7 with
    | [] => some []
    | '\n' :: data => some data
    | '\r' :: '\n' :: data => some data
    | _ => none
  else none

/-- The number of characters of the first line, with its line end. -/
def lineLength : List Char → Nat
  | [] => 0
  | c :: cs => if c == '\n' then 1 else lineLength cs + 1

/-- The number of characters of the document at the front, up to the end of the line that ends it;
`none` if it does not end. -/
def documentLength : List Char → Option Nat
  | [] => none
  | c :: cs =>
    if c == '\n' && startsWith "=end" cs then some (lineLength cs + 1)
    else (documentLength cs).map (· + 1)

/-- Whether the next character that is no blank is a single dot, and something follows it. -/
def dotFollows (cs : List Char) : Bool :=
  match cs.dropWhile (fun c => c == ' ' || c == '\t' || c == '\r' || c == '\n') with
  | '.' :: c :: _ => c != '.'
  | _ => false

/-- Whether the last of the tokens, newest first, is an operator that names a method: `def ==`,
`alias equal? ==`, `a.+`. -/
def operatorNamesMethod (tokens : List Token) : Bool :=
  let kindAt (n : Nat) : Option TokenKind := tokens[n]?.map Token.kind
  kindAt 1 == some (.keyword .defKw) || kindAt 1 == some (.keyword .aliasKw)
    || kindAt 1 == some .dot || kindAt 2 == some (.keyword .aliasKw)

/-- Whether a line end after the tokens, newest first, and before `cs` means nothing. -/
def lineEndDropped (tokens : List Token) (cs : List Char) : Bool :=
  let continues := match tokens with
    | [] => true
    | t :: _ => t.kind.continuesLine
  (continues && !operatorNamesMethod tokens) || dotFollows cs

/-! ## The whole text -/

/-- What has been read: the cursor, whether it stands at the beginning of a line, whether a blank
stands before it, and the tokens, newest first. -/
structure Scan where
  cursor : Cursor
  lineStart : Bool
  spaced : Bool
  tokens : List Token

namespace Scan

/-- Skips `n` characters that mean a blank. -/
def blank (s : Scan) (n : Nat) (lineStart : Bool) : Scan :=
  { s with cursor := s.cursor.skip n, lineStart, spaced := true }

/-- Adds the token `kind`, written up to the cursor `next`. -/
def push (s : Scan) (kind : TokenKind) (next : Cursor) : Scan :=
  { cursor := next
    lineStart := false
    spaced := false
    tokens := ⟨kind, ⟨s.cursor.offset, next.offset⟩, s.spaced⟩ :: s.tokens }

/-- Reads a line end. -/
def lineEnd (s : Scan) : Scan :=
  let next := s.cursor.skip 1
  let s' := if lineEndDropped s.tokens next.rest then { s with cursor := next }
    else s.push .newline next
  { s' with lineStart := true, spaced := true }

/-- Reads one token, line end, blank, comment or document. The text is not empty. -/
def step (s : Scan) : Except Fault Scan :=
  if s.lineStart && startsWith "=begin" s.cursor.rest then
    match documentLength s.cursor.rest with
    | some n => .ok (s.blank n true)
    | none => .error ⟨s.cursor.offset, .unclosedDocument⟩
  else
    match s.cursor.rest with
    | ' ' :: _ | '\t' :: _ | '\r' :: _ => .ok (s.blank 1 false)
    | '\\' :: '\n' :: _ => .ok (s.blank 2 true)
    | '\\' :: '\r' :: '\n' :: _ => .ok (s.blank 3 true)
    | '#' :: cs => .ok (s.blank (1 + (cs.takeWhile (· != '\n')).length) false)
    | '\n' :: _ => .ok s.lineEnd
    | _ => do
      let (kind, next) ← token (s.tokens.head?.map Token.kind) s.spaced s.cursor
      .ok (s.push kind next)

/-- Reads on until the text ends, or, if `marker` says so, up to a marker line: the tokens, and the
data after the marker. At most as many steps are taken as the argument says; with the number of
characters left this is the whole text, since every step reads at least one. -/
def run (marker : Bool) : Nat → Scan → Except Fault (List Token × Option (List Char))
  | 0, s => .ok (s.tokens.reverse, none)
  | fuel + 1, s =>
    if s.cursor.rest.isEmpty then .ok (s.tokens.reverse, none)
    else
      match if marker && s.lineStart then markedData? s.cursor.rest else none with
      | some data => .ok (s.tokens.reverse, some data)
      | none => do
        let s' ← s.step
        run marker fuel s'

end Scan

end Lexer

open Lexer in
/-- The tokens of a unit. -/
def lex (text : String) : Except Fault Lexed := do
  let cs := text.toList
  let (written, data) ← Scan.run true cs.length ⟨⟨cs, 0⟩, true, false, []⟩
  .ok ⟨written, byteSize cs, data.map String.ofList⟩

open Lexer in
/-- The tokens of the part `span` of a text, with spans in the whole text. A marker line means
nothing in it. -/
def lexRange (text : String) (span : Span) : Except Fault Lexed := do
  let cs := text.toList
  let part := sliceBytes cs span.start span.stop
  let lineStart := span.start == 0 || charBefore cs span.start == some '\n'
  let (written, _) ← Scan.run false part.length ⟨⟨part, span.start⟩, lineStart, false, []⟩
  .ok ⟨written, span.stop, none⟩

end RubyJs
