import RubyJs.Token.Numeral

set_option autoImplicit false

/-! # Bodies of string-like literals

A literal runs from its opening delimiter to the closing one. Where the two differ they nest. What
a backslash means depends on the way of quoting, and so does whether `#{…}` is code:

    double      "a\n#{b}"      escapes and code
    single      'it\'s'        only \\ and the escaped delimiter
    verbatim    `x#{b}\n`      text as it stands, code, only the escaped delimiter loses its \
-/

namespace RubyJs

/-- The ways of quoting. -/
inductive Quoting where
  | double
  | single
  | verbatim
deriving DecidableEq, Repr

/-- One step of a body: a character of its text, or code. -/
inductive Piece where
  | char (c : Char)
  | code (span : Span)
deriving DecidableEq, Repr

namespace Piece

/-- The segment of the characters collected, newest first; none if there are none. -/
def flush (collected : List Char) : List Segment :=
  if collected.isEmpty then [] else [.text (String.ofList collected.reverse)]

/-- Runs of characters become texts. -/
def group (collected : List Char) : List Piece → List Segment
  | [] => flush collected
  | .char c :: ps => group (c :: collected) ps
  | .code s :: ps => flush collected ++ .code s :: group [] ps

/-- The segments of a body. An empty body is one empty text. -/
def segments (ps : List Piece) : List Segment :=
  match group [] ps with
  | [] => [.text ""]
  | ss => ss

end Piece

/-! ## Escapes -/

/-- The value of hexadecimal digits. -/
def hexValue (ds : List Char) : Nat :=
  ds.foldl (fun v d => 16 * v + (Numeral.digitValue? d).getD 0) 0

/-- The hexadecimal digits at the front, `n` at most. -/
def hexRun (n : Nat) (cs : List Char) : List Char :=
  (cs.take n).takeWhile (Numeral.isDigitIn 16)

/-- The character that the hexadecimal digits `ds` of an escape at `start` stand for. -/
def codePoint (start : Nat) (ds : List Char) : Except Fault Char :=
  if ds.isEmpty then .error ⟨start, .badUnicodeEscape⟩
  else if (hexValue ds).isValidChar then .ok (Char.ofNat (hexValue ds))
  else .error ⟨start, .badCodePoint⟩

/-- The escape whose backslash stands at `start`, with the characters after the backslash: the
text it stands for, and how many of the characters belong to it. -/
def escapeSequence (start : Nat) : List Char → Except Fault (List Char × Nat)
  | [] => .error ⟨start, .unclosedEscape⟩
  | 'n' :: _ => .ok (['\n'], 1)
  | 't' :: _ => .ok (['\t'], 1)
  | 'r' :: _ => .ok (['\r'], 1)
  | '0' :: _ => .ok (['\x00'], 1)
  | 's' :: _ => .ok ([' '], 1)
  | 'e' :: _ => .ok (['\x1b'], 1)
  | 'a' :: _ => .ok (['\x07'], 1)
  | 'b' :: _ => .ok (['\x08'], 1)
  | 'f' :: _ => .ok (['\x0c'], 1)
  | 'v' :: _ => .ok (['\x0b'], 1)
  | '\n' :: _ => .ok ([], 1)
  | 'x' :: cs =>
    let ds := hexRun 2 cs
    if ds.isEmpty then .error ⟨start, .badHexEscape⟩
    else .ok ([Char.ofNat (hexValue ds)], 1 + ds.length)
  | 'u' :: '{' :: cs =>
    let ds := hexRun 6 cs
    if cs[ds.length]? = some '}' then do
      let c ← codePoint start ds
      .ok ([c], ds.length + 3)
    else .error ⟨start, .unclosedUnicodeEscape⟩
  | 'u' :: cs => do
    let ds := hexRun 4 cs
    let c ← codePoint start ds
    .ok ([c], ds.length + 1)
  | c :: _ => .ok ([c], 1)

/-- What a backslash at `start` means in a way of quoting, with the characters after it. -/
def Quoting.escape (q : Quoting) (closing : Char) (start : Nat) (cs : List Char) :
    Except Fault (List Char × Nat) :=
  match q with
  | .double => escapeSequence start cs
  | .single =>
    match cs with
    | c :: _ => if c == '\\' || c == closing then .ok ([c], 1) else .ok (['\\'], 0)
    | [] => .ok (['\\'], 0)
  | .verbatim =>
    match cs with
    | c :: _ => if c == closing then .ok ([c], 1) else .ok (['\\', c], 1)
    | [] => .ok (['\\'], 0)

/-! ## Code inside a literal -/

/-- How many characters stand before the brace that ends the code at the front; `none` if it does
not end. Braces nest, and a quoted run, in which a backslash skips a character, hides them. `quote`
is the delimiter of the run that the front is in. -/
def codeLength (quote : Option Char) (depth : Nat) : List Char → Option Nat
  | [] => none
  | c :: cs =>
    match quote with
    | some q =>
      if c == '\\' then
        match cs with
        | [] => none
        | _ :: cs' => (codeLength (some q) depth cs').map (· + 2)
      else (codeLength (if c == q then none else some q) depth cs).map (· + 1)
    | none =>
      if c == '}' then
        match depth with
        | 0 => some 0
        | d + 1 => (codeLength none d cs).map (· + 1)
      else if c == '{' then (codeLength none (depth + 1) cs).map (· + 1)
      else if c == '\x22' || c == '\x27' then (codeLength (some c) depth cs).map (· + 1)
      else (codeLength none depth cs).map (· + 1)

/-- The code at the cursor, which stands at `#{`: its span, and the cursor after its brace. -/
def interpolation (cur : Cursor) : Except Fault (Span × Cursor) :=
  let body := cur.skip 2
  match codeLength none 0 body.rest with
  | none => .error ⟨cur.offset, .unclosedInterpolation⟩
  | some n => .ok (⟨body.offset, (body.skip n).offset⟩, body.skip (n + 1))

/-! ## Bodies -/

/-- A literal: its delimiters, its way of quoting, and where the opening delimiter stands. -/
structure Literal where
  opening : Char
  closing : Char
  quoting : Quoting
  start : Nat

namespace Literal

/-- The nesting depth after the character `c` of the body. -/
def nest (l : Literal) (depth : Nat) (c : Char) : Nat :=
  if l.opening == l.closing then depth
  else if c == l.opening then depth + 1
  else if c == l.closing then depth - 1
  else depth

/-- The pieces from the cursor up to the closing delimiter, and the cursor after it. At most as
many steps are taken as the first argument says; with the number of characters left this is the
whole body, since every step reads at least one. -/
def pieces (l : Literal) : Nat → Nat → Cursor → Except Fault (List Piece × Cursor)
  | 0, _, _ => .error ⟨l.start, .unclosedString⟩
  | fuel + 1, depth, cur =>
    match cur.rest with
    | [] => .error ⟨l.start, .unclosedString⟩
    | c :: cs =>
      if c == l.closing && depth == 0 then .ok ([], cur.skip 1)
      else if c == '\\' then do
        let (made, n) ← l.quoting.escape l.closing cur.offset cs
        let (ps, after) ← pieces l fuel depth (cur.skip (n + 1))
        .ok (made.map .char ++ ps, after)
      else if c == '#' && l.quoting != .single && cur.peekAt 1 == some '{' then do
        let (span, next) ← interpolation cur
        let (ps, after) ← pieces l fuel depth next
        .ok (.code span :: ps, after)
      else do
        let (ps, after) ← pieces l fuel (l.nest depth c) (cur.skip 1)
        .ok (.char c :: ps, after)

/-- The segments of the body at the cursor, and the cursor after the closing delimiter. -/
def body (l : Literal) (cur : Cursor) : Except Fault (List Segment × Cursor) := do
  let (ps, after) ← l.pieces cur.rest.length 0 cur
  .ok (Piece.segments ps, after)

end Literal

end RubyJs
