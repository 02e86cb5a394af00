import RubyJs.Syntax.Grammar.Operators

set_option autoImplicit false

/-! # From tokens to a tree

The rules of the grammar fall back on each other. `Rules.level n` are the rules that may do so `n`
deep; since a rule takes a token before it does, a level above the number of bytes of the text is
enough for the whole of it.
-/

namespace RubyJs

namespace Rules

/-- The rules of the unit `file` with the text `text` that fall back on others at most `n` deep. -/
def level (file text : String) : Nat → Rules
  | 0 =>
    { file, text
      stmts := Reading.faultHere .exhausted
      exprStmt := Reading.faultHere .exhausted
      notExpr := Reading.faultHere .exhausted
      expr := Reading.faultHere .exhausted
      ternary := Reading.faultHere .exhausted
      binary := fun _ => Reading.faultHere .exhausted
      unary := Reading.faultHere .exhausted }
  | n + 1 =>
    { file, text
      stmts := fun s => Grammar.stmts (level file text n) s
      exprStmt := fun s => Grammar.exprStmt (level file text n) s
      notExpr := fun s => Grammar.notExpr (level file text n) s
      expr := fun s => Grammar.expr (level file text n) s
      ternary := fun s => Grammar.ternary (level file text n) s
      binary := fun l s => Grammar.binary (level file text n) l s
      unary := fun s => Grammar.unary (level file text n) s }

end Rules

/-- The statements of the unit `file` with the text `text` and the tokens `l`. -/
def readBody (file text : String) (l : Lexed) : Except Fault (List Expr) := do
  let r := Rules.level file text (text.utf8ByteSize + 1)
  let whole : Reading (List Expr) := do
    let body ← Grammar.stmts r
    Reading.expect .eof "end of input"
    return body
  let (body, _) ← whole ⟨Stream.ofLexed l, [⟨[], false⟩], 0⟩
  return body

/-- The tree of the unit `file` with the text `text`. -/
def parse (file text : String) : Except ParseError Program :=
  match lex text with
  | .error f => .error (ParseError.ofFault file text f)
  | .ok l =>
    match readBody file text l with
    | .error f => .error (ParseError.ofFault file text f)
    | .ok body => .ok ⟨body, l.endData⟩

end RubyJs
