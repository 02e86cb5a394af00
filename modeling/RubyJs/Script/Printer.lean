import RubyJs.Script
import RubyJs.Script.Names
import RubyJs.Text.Blank

set_option autoImplicit false

/-! # The text of a script

A statement is printed as a list of lines at some indent; a line can hold more than one line of text
when a function or native text stands in it. A function inside a term is printed at the indent of
the line it stands in:

    Opal.send(xs, "$each", [], function(x) {
      if (x == null) x = nil;
      return x;
    });

Native text as a statement is printed by what it looks like: text that is a statement already gets
at most a semicolon, any other text is returned if its value is wanted.
-/

namespace RubyJs.Script

/-- The text of a name. -/
def Name.text : Name → String
  | .user name => localName name
  | .temp index => "$t" ++ toString index
  | .own name => name

/-- The blanks at the start of a line. -/
def pad : Nat → String
  | 0 => ""
  | n + 1 => "  " ++ pad n

/-- Items with commas between them. -/
def commas (items : List String) : String := ", ".intercalate items

/-- A function from its name, its parameters and the lines of its body. -/
def functionText (indent : Nat) (name : Option String) (params : List Name) (lines : List String) :
    String :=
  "function" ++ (match name with | some n => " " ++ n | none => "") ++ "(" ++
    commas (params.map Name.text) ++ ") \x7b\n" ++ "\n".intercalate lines ++ "\n" ++ pad indent ++
    "\x7d"

/-! ## Native text -/

/-- The words that start a statement. -/
def statementWords : List String :=
  ["debugger", "throw", "var", "let", "const", "if", "for", "while", "try", "switch"]

/-- Whether native text starts like a statement. -/
def startsStatement (text : String) : Bool :=
  statementWords.contains (String.ofList (text.toList.takeWhile isIdentRest))

/-- Whether native text ends like a statement. -/
def endsStatement (text : String) : Bool :=
  match text.toList.getLast? with
  | some c => c == ';' || c == '\x7d'
  | none => false

/-- Whether `part` stands somewhere in a text. -/
def occursIn (part : List Char) : List Char → Bool
  | [] => part.isEmpty
  | c :: cs => part.isPrefixOf (c :: cs) || occursIn part cs

/-- Whether native text returns by itself or is more than one statement. -/
def returnsItself (text : String) : Bool :=
  occursIn "return".toList text.toList || text.toList.contains ';'

/-- The lines of native text as a statement. -/
def nativeLines (text : String) (wanted : Bool) : List String :=
  let seen := Text.trim text
  let closed := if endsStatement seen then text else text ++ ";"
  if wanted then
    if startsStatement seen then [closed, "return nil;"]
    else if returnsItself seen then [text]
    else ["return (" ++ text ++ ");"]
  else [closed]

/-! ## Printing -/

/-- The declaration of the variables of a function, if it has any. -/
def varLine (inits : List String) (locals : List String) (temps : Nat) : List String :=
  let vars := inits ++ locals.map (fun x => localName x ++ " = nil") ++
    (List.range temps).map (fun i => (Name.temp (i + 1)).text)
  if vars.isEmpty then [] else ["var " ++ commas vars ++ ";"]

/-- The body of a function, in a handler for returns from inside a block if it needs one. -/
def handlerLines (indent : Nat) (catchesReturn : Bool) (body : List String) : List String :=
  if catchesReturn then
    [pad indent ++ "try \x7b"] ++ body.map ("  " ++ ·) ++
      [pad indent ++ "\x7d catch ($returner) \x7b if ($returner === Opal.returner) \x7b " ++
        "return $returner.$v; \x7d throw $returner; \x7d"]
  else body

mutual

/-- The text of a term in a line at `indent`. -/
def Term.text (indent : Nat) : Term → String
  | .name x => x.text
  | .word w => w
  | .str s => stringLiteral s
  | .paren e => "(" ++ e.text indent ++ ")"
  | .not e => "!" ++ e.text indent
  | .binary op l r => l.text indent ++ " " ++ op ++ " " ++ r.text indent
  | .choice c y n => c.text indent ++ " ? " ++ y.text indent ++ " : " ++ n.text indent
  | .assign t v => t.text indent ++ " = " ++ v.text indent
  | .comma es => commas (termTexts indent es)
  | .call f args => f.text indent ++ "(" ++ commas (termTexts indent args) ++ ")"
  | .member e p => e.text indent ++ "." ++ p
  | .index e k => e.text indent ++ "[" ++ k.text indent ++ "]"
  | .method e m => e.text indent ++ methodAccess m
  | .array es => "[" ++ commas (termTexts indent es) ++ "]"
  | .func f => functionText indent f.name f.params (funcLines indent f)
  | .inline body => "function() \x7b " ++ " ".intercalate (stmtLines 0 body) ++ " \x7d"
  | .native ps => pieceText indent ps

/-- The texts of terms. -/
def termTexts (indent : Nat) : List Term → List String
  | [] => []
  | e :: es => e.text indent :: termTexts indent es

/-- The text of native pieces. -/
def pieceText (indent : Nat) : List (Piece Term) → String
  | [] => ""
  | .text t :: ps => t ++ pieceText indent ps
  | .term e :: ps => e.text indent ++ pieceText indent ps

/-- The lines between the braces of a function that stands in a line at `indent`. -/
def funcLines (indent : Nat) : Func Term Stmt → List String
  | ⟨_, _, constructor, inits, locals, temps, setup, catchesReturn, body⟩ =>
    constructor.toList.map (fun c => pad (indent + 1) ++ "function " ++ c ++ "()\x7b\x7d;") ++
      (varLine (initTexts (indent + 1) inits) locals temps).map (pad (indent + 1) ++ ·) ++
      stmtLines (indent + 1) setup ++
      handlerLines (indent + 1) catchesReturn (stmtLines (indent + 1) body)

/-- The declarations of variables with first values. -/
def initTexts (indent : Nat) : List (Name × Term) → List String
  | [] => []
  | (x, e) :: rest => (x.text ++ " = " ++ e.text indent) :: initTexts indent rest

/-- The lines of a statement at `indent`. -/
def Stmt.lines (indent : Nat) : Stmt → List String
  | .term e => [pad indent ++ e.text indent ++ ";"]
  | .ret e _ => [pad indent ++ "return " ++ e.text indent ++ ";"]
  | .var x e => [pad indent ++ "var " ++ x.text ++ " = " ++ e.text indent ++ ";"]
  | .branches tests otherwise =>
    testLines indent true tests ++ blockLines indent "\x7d else \x7b" otherwise ++
      [pad indent ++ "\x7d"]
  | .loop cond body bodyFirst =>
    if bodyFirst then
      [pad indent ++ "do \x7b"] ++ stmtLines (indent + 1) body ++
        [pad indent ++ "\x7d while (" ++ cond.text indent ++ ");"]
    else
      [pad indent ++ "while (" ++ cond.text indent ++ ") \x7b"] ++ stmtLines (indent + 1) body ++
        [pad indent ++ "\x7d"]
  | .guarded body handler finalizer =>
    [pad indent ++ "try \x7b"] ++ stmtLines (indent + 1) body ++
      blockLines indent "\x7d catch ($err) \x7b" handler ++
      blockLines indent "\x7d finally \x7b" finalizer ++ [pad indent ++ "\x7d"]
  | .rethrow => [pad indent ++ "throw $err;"]
  | .brk => [pad indent ++ "break;"]
  | .goOn => [pad indent ++ "continue;"]
  | .debugger => [pad indent ++ "debugger;"]
  | .orNil x => [pad indent ++ "if (" ++ x.text ++ " == null) " ++ x.text ++ " = nil;"]
  | .orDefault x e =>
    [pad indent ++ "if (" ++ x.text ++ " == null) \x7b " ++ x.text ++ " = " ++ e.text indent ++
      "; \x7d"]
  | .native ps wanted => (nativeLines (pieceText indent ps) wanted).map (pad indent ++ ·)

/-- The lines of statements. -/
def stmtLines (indent : Nat) : List Stmt → List String
  | [] => []
  | s :: ss => s.lines indent ++ stmtLines indent ss

/-- The lines of a group of statements after the line `head`, if there is one. -/
def blockLines (indent : Nat) (head : String) : Option (List Stmt) → List String
  | none => []
  | some body => (pad indent ++ head) :: stmtLines (indent + 1) body

/-- The lines of the tests of an `if` and what they guard. -/
def testLines (indent : Nat) (first : Bool) : List (Term × List Stmt) → List String
  | [] => []
  | (c, body) :: rest =>
    (pad indent ++ (if first then "if (" else "\x7d else if (") ++ c.text indent ++ ") \x7b") ::
      (stmtLines (indent + 1) body ++ testLines indent false rest)

end

-- The equations of the printers are made here, once for all that is proved about them.
attribute [local simp] Term.text termTexts pieceText funcLines initTexts Stmt.lines stmtLines
  blockLines testLines

end RubyJs.Script
