import RubyJs.Script.Names

set_option autoImplicit false

/-! # Reading JavaScript

What a text of JavaScript means starts with how it is read: characters make tokens, and tokens make
terms and statements by the precedence of the operators. Here is a reader for a part of the
language, in which the text of simple units stays:

* tokens: words, strings, marks and line ends. The blanks are those of the standard, and which
  letters beyond ASCII can stand in a name is left open (`Letters`), since it changes with Unicode;
* terms: names, `true` and `false`, strings, properties, calls with at most one argument, `!`, `&&`,
  `||`, `? :`, `=`, the comma, and functions that only return;
* statements: `var`, `return`, `if` with `else`, and terms. Each one ends in a semicolon of its own
  or in a brace, so no semicolon has to be put in where a line ends.

Any other text is not read at all. In particular a line end inside a term is refused.
-/

namespace RubyJs.JavaScript

/-! ## Characters -/

/-- The blanks of the standard: five of ASCII's, the mark of byte order and the Unicode spaces. -/
def isBlank (c : Char) : Bool :=
  [0x09, 0x0B, 0x0C, 0x20, 0xA0, 0x1680, 0x202F, 0x205F, 0x3000, 0xFEFF].contains c.toNat ||
    (0x2000 ≤ c.toNat && c.toNat ≤ 0x200A)

/-- The characters that end a line. -/
def isLineEnd (c : Char) : Bool := [0x0A, 0x0D, 0x2028, 0x2029].contains c.toNat

/-- The letters beyond ASCII that names are made of. They are no blanks. -/
structure Letters where
  /-- Whether a name can begin with it. -/
  start : Char → Bool
  /-- Whether it can stand inside of a name. -/
  part : Char → Bool
  part_of_start : ∀ c, start c = true → part c = true
  beyond : ∀ c, part c = true → 128 ≤ c.toNat
  visible : ∀ c, part c = true → isBlank c = false ∧ isLineEnd c = false

namespace Letters

/-- Whether a name can begin with a character. -/
def isStart (L : Letters) (c : Char) : Bool := Script.isIdentStart c || L.start c

/-- Whether a character can stand in a word. -/
def isWord (L : Letters) (c : Char) : Bool := Script.isIdentRest c || L.part c

/-- Whether a word has the form of a name. -/
def isName (L : Letters) (w : String) : Bool :=
  match w.toList with
  | [] => false
  | c :: cs => L.isStart c && cs.all L.isWord

end Letters

/-- The words that are no variables in a script. -/
def reservedWords : List String :=
  ["break", "case", "catch", "class", "const", "continue", "debugger", "default", "delete", "do",
    "else", "enum", "export", "extends", "false", "finally", "for", "function", "if", "import",
    "in", "instanceof", "new", "null", "return", "super", "switch", "this", "throw", "true", "try",
    "typeof", "var", "void", "while", "with"]

/-- Whether a word can be a variable. -/
def Letters.isVariable (L : Letters) (w : String) : Bool :=
  L.isName w && !reservedWords.contains w

/-! ## Tokens -/

inductive Token where
  | word (text : String)
  /-- A string; what it says does not matter here. -/
  | str
  | lparen
  | rparen
  | lbrace
  | rbrace
  | semi
  | comma
  | dot
  | question
  | colon
  | bang
  | assign
  | andAnd
  | orOr
  /-- The end of a line. -/
  | line
  /-- What is not read. -/
  | bad
deriving DecidableEq, Repr

/-- The mark that a character is. Longer operators that begin with one of them, such as `==`, are
read as several marks, which no term allows in a row. -/
def mark? (c : Char) : Option Token :=
  match c with
  | '(' => some .lparen
  | ')' => some .rparen
  | '\x7b' => some .lbrace
  | '\x7d' => some .rbrace
  | ';' => some .semi
  | ',' => some .comma
  | '.' => some .dot
  | '?' => some .question
  | ':' => some .colon
  | '!' => some .bang
  | '=' => some .assign
  | _ => none

/-- Whether a text begins with a character of a word. -/
def Letters.startsWord (L : Letters) (cs : List Char) : Bool := cs.head?.any L.isWord

/-- Puts a character before tokens, into the word at their front if it `joins` that. -/
def joinWord (c : Char) (joins : Bool) (ts : List Token) : List Token :=
  match joins, ts with
  | true, .word w :: rest => .word (String.ofList (c :: w.toList)) :: rest
  | _, ts => .word (String.ofList [c]) :: ts

/-- Where a character stands. -/
inductive Mode where
  | code
  | string
  /-- After a backslash in a string. -/
  | escape
  /-- In the second half of an operator that was read already. -/
  | second

/-- The operator that a character makes together with a second one. -/
def doubled? (c : Char) : Option Token :=
  match c with
  | '&' => some .andAnd
  | '|' => some .orOr
  | _ => none

/-- The tokens of a text. -/
def lex (L : Letters) : Mode → List Char → List Token
  | .code, [] => []
  | _, [] => [.bad]
  | .second, _ :: cs => lex L .code cs
  | .escape, _ :: cs => lex L .string cs
  | .string, c :: cs =>
    if c == '\x22' then .str :: lex L .code cs
    else if c == '\n' || c == '\r' then .bad :: lex L .code cs
    else lex L (if c == '\\' then .escape else .string) cs
  | .code, c :: cs =>
    if L.isWord c then joinWord c (L.startsWord cs) (lex L .code cs)
    else if isBlank c then lex L .code cs
    else if isLineEnd c then .line :: lex L .code cs
    else if c == '\x22' then lex L .string cs
    else if cs.head? == some c && (doubled? c).isSome then
      (doubled? c).getD .bad :: lex L .second cs
    else (mark? c).getD .bad :: lex L .code cs

/-! ## Terms -/

/-- Terms. -/
inductive Term where
  | name (name : String)
  | bool (value : Bool)
  | str
  /-- `object.property` -/
  | member (object : Term) (property : String)
  /-- A call without arguments. -/
  | invoke (function : Term)
  /-- A call with one argument. -/
  | apply (function arg : Term)
  | not (inner : Term)
  | and (left right : Term)
  | or (left right : Term)
  /-- `test ? yes : no` -/
  | choice (test yes no : Term)
  | assign (target value : Term)
  /-- `first, second` -/
  | comma (first second : Term)
  /-- A function that returns `result`. -/
  | func (result : Term)
deriving DecidableEq, Repr

/-- Whether a term can be assigned to. -/
def Term.isTarget : Term → Bool
  | .name _ | .member _ _ => true
  | _ => false

/-- What is read, with the tokens that are left, if the token `t` follows it. -/
def upTo {α : Type} (t : Token) : Option (α × List Token) → Option (α × List Token)
  | some (a, u :: ts) => if u = t then some (a, ts) else none
  | _ => none

/-- The tokens after the token `t`, if it is the first. -/
def after (t : Token) : List Token → Option (List Token)
  | u :: ts => if u = t then some ts else none
  | [] => none

/-- The tokens after the front of a function that only returns. -/
def function? : List Token → Option (List Token)
  | .word w :: .lparen :: .rparen :: .lbrace :: .word r :: ts =>
    if w = "function" ∧ r = "return" then some ts else none
  | _ => none

mutual

/-- Reads a term of a level. The level tells the loosest operators that the term can hold without
parentheses, from the tightest on: properties and calls, `!`, `&&`, `||`, then `? :` and `=`, and
the comma. The first argument bounds the recursion. Chains of `&&` and of `||` are grouped to the right,
which makes no difference to what they mean. -/
def term (L : Letters) : Nat → Nat → List Token → Option (Term × List Token)
  | 0, _, _ => none
  | n + 1, 0, ts => do
    let (e, ts) ← operand L n ts
    accesses L n e ts
  | n + 1, 1, ts =>
    match ts with
    | .bang :: ts => do
      let (e, ts) ← term L n 1 ts
      some (.not e, ts)
    | ts => term L n 0 ts
  | n + 1, 2, ts => do
    let (l, ts) ← term L n 1 ts
    match ts with
    | .andAnd :: ts => do
      let (r, ts) ← term L n 2 ts
      some (.and l r, ts)
    | ts => some (l, ts)
  | n + 1, 3, ts => do
    let (l, ts) ← term L n 2 ts
    match ts with
    | .orOr :: ts => do
      let (r, ts) ← term L n 3 ts
      some (.or l r, ts)
    | ts => some (l, ts)
  | n + 1, 4, ts => do
    match function? ts with
    | some ts => do
      let (e, ts) ← upTo .rbrace (upTo .semi (term L n 5 ts))
      some (.func e, ts)
    | none => do
      let (e, ts) ← term L n 3 ts
      match ts with
      | .question :: ts => do
        let (yes, ts) ← upTo .colon (term L n 4 ts)
        let (no, ts) ← term L n 4 ts
        some (.choice e yes no, ts)
      | .assign :: ts =>
        if e.isTarget then do
          let (v, ts) ← term L n 4 ts
          some (.assign e v, ts)
        else none
      | ts => some (e, ts)
  | n + 1, _, ts => do
    let (e, ts) ← term L n 4 ts
    match ts with
    | .comma :: ts => do
      let (rest, ts) ← term L n 5 ts
      some (.comma e rest, ts)
    | ts => some (e, ts)

/-- Reads a term that no operator stands in. -/
def operand (L : Letters) : Nat → List Token → Option (Term × List Token)
  | n + 1, .lparen :: ts => upTo .rparen (term L n 5 ts)
  | _, .str :: ts => some (.str, ts)
  | _, .word w :: ts =>
    if w = "true" then some (.bool true, ts)
    else if w = "false" then some (.bool false, ts)
    else if L.isVariable w then some (.name w, ts)
    else none
  | _, _ => none

/-- Reads the properties and calls after a term. -/
def accesses (L : Letters) : Nat → Term → List Token → Option (Term × List Token)
  | n + 1, e, .dot :: .word p :: ts =>
    if L.isName p then accesses L n (.member e p) ts else none
  | n + 1, e, .lparen :: .rparen :: ts => accesses L n (.invoke e) ts
  | n + 1, e, .lparen :: ts => do
    let (a, ts) ← upTo .rparen (term L n 4 ts)
    accesses L n (.apply e a) ts
  | _, _, .dot :: _ => none
  | _, _, .lparen :: _ => none
  | _, e, ts => some (e, ts)

end

/-! ## Statements -/

/-- Statements. -/
inductive Stmt where
  /-- The declaration of variables, some with a first value. -/
  | var (items : List (String × Option Term))
  | term (term : Term)
  | ret (value : Term)
  | ifElse (test : Term) (yes no : List Stmt)

/-- Reads the items of a declaration, up to its semicolon. -/
def declaration (L : Letters) : Nat → List Token → Option (List (String × Option Term) × List Token)
  | n + 1, .word x :: ts =>
    if L.isVariable x then do
      let (value, ts) ← match ts with
        | .assign :: ts => do
          let (e, ts) ← term L n 4 ts
          some (some e, ts)
        | ts => some (none, ts)
      match ts with
      | .semi :: ts => some ([(x, value)], ts)
      | .comma :: ts => do
        let (items, ts) ← declaration L n ts
        some ((x, value) :: items, ts)
      | _ => none
    else none
  | _, _ => none

mutual

/-- Reads statements, up to the end or a brace that closes them. -/
def stmts (L : Letters) : Nat → List Token → Option (List Stmt × List Token)
  | 0, _ => none
  | _, [] => some ([], [])
  | _, .rbrace :: ts => some ([], .rbrace :: ts)
  | n + 1, .line :: ts => stmts L n ts
  | n + 1, ts => do
    let (s, ts) ← stmt L n ts
    let (ss, ts) ← stmts L n ts
    some (s :: ss, ts)

/-- Reads a statement. A term that begins with `function` is none. -/
def stmt (L : Letters) : Nat → List Token → Option (Stmt × List Token)
  | 0, _ => none
  | n + 1, .word w :: ts =>
    if w = "var" then do
      let (items, ts) ← declaration L n ts
      some (.var items, ts)
    else if w = "return" then do
      let (e, ts) ← upTo .semi (term L n 5 ts)
      some (.ret e, ts)
    else if w = "if" then do
      let ts ← after .lparen ts
      let (test, ts) ← upTo .lbrace (upTo .rparen (term L n 5 ts))
      branches L n test ts
    else if w = "function" then none
    else do
      let (e, ts) ← upTo .semi (term L n 5 (.word w :: ts))
      some (.term e, ts)
  | n + 1, ts => do
    let (e, ts) ← upTo .semi (term L n 5 ts)
    some (.term e, ts)

/-- Reads the branches of an `if`, from inside of the first one on. -/
def branches (L : Letters) : Nat → Term → List Token → Option (Stmt × List Token)
  | 0, _, _ => none
  | n + 1, test, ts => do
    let (yes, ts) ← upTo .rbrace (stmts L n ts)
    match after (.word "else") ts with
    | some ts => do
      let ts ← after .lbrace ts
      let (no, ts) ← upTo .rbrace (stmts L n ts)
      some (.ifElse test yes no, ts)
    | none => some (.ifElse test yes [], ts)

end

/-- The statements that a text is read as. -/
def read (L : Letters) (text : String) : Option (List Stmt) :=
  let ts := lex L .code text.toList
  match stmts L (8 * ts.length + 8) ts with
  | some (ss, []) => some ss
  | _ => none

end RubyJs.JavaScript
