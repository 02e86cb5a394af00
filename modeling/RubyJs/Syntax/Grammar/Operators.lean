import RubyJs.Syntax.Grammar.Primary

set_option autoImplicit false

/-! # Operators and statements

Binary operators bind by level, from `||` at 0 to `*` at 8, and group to the left; `**` binds
tighter than all of them and groups to the right. Looser than these are ranges, the conditional
`a ? b : c`, assignment, `not`, and `and` with `or`. A statement may carry modifiers:
`e if c`, `e while c`, `e rescue f`.
-/

namespace RubyJs.Grammar

open Reading

/-! ## Operators -/

/-- A call of `name` on `recv`. -/
def send (recv : Expr) (name : String) (args : List Expr) : Expr :=
  .call { recv := some recv, name, args }

/-- The level of a binary operator and the method it names. -/
def binaryOperator? : TokenKind → Option (Nat × String)
  | .orOr => some (0, "||")
  | .andAnd => some (1, "&&")
  | .cmp => some (2, "<=>")
  | .eq => some (2, "==")
  | .eqq => some (2, "===")
  | .notEq => some (2, "!=")
  | .eqTilde => some (2, "=~")
  | .bangTilde => some (2, "!~")
  | .lt => some (3, "<")
  | .le => some (3, "<=")
  | .gt => some (3, ">")
  | .ge => some (3, ">=")
  | .pipe => some (4, "|")
  | .caret => some (4, "^")
  | .amp => some (5, "&")
  | .shl => some (6, "<<")
  | .shr => some (6, ">>")
  | .plus => some (7, "+")
  | .minus => some (7, "-")
  | .star => some (8, "*")
  | .slash => some (8, "/")
  | .percent => some (8, "%")
  | _ => none

/-- The tree of a binary operator. -/
def combine (op : String) (left right : Expr) : Expr :=
  match op with
  | "||" => .or left right
  | "&&" => .and left right
  | "!~" => .not (send left "=~" [right])
  | op => send left op [right]

/-- The power that `base` is raised to, if `**` follows. -/
def power (r : Rules) (base : Expr) : Reading Expr := do
  if ← eat .pow then return send base "**" [← r.unary] else return base

/-- A number literal with the sign in front of it; `none` for any other token. -/
def signedLiteral? (sign : String) : TokenKind → Option Expr
  | .int t => some (.int (sign ++ t))
  | .float t => some (.float (sign ++ t))
  | _ => none

/-- A sign and its operand; the sign is taken. A sign written at a number is part of it, unless the
number is raised to a power: `-2 ** 2` is `-(2 ** 2)`. -/
def signed (r : Rules) (negative : Bool) : Reading Expr := do
  let tokens := (← get).tokens
  let folds := negative && tokens.second.kind != .pow
  let literal := if tokens.current.spaced then none
    else signedLiteral? (if folds then "-" else "") tokens.current.kind
  match literal with
  | some e =>
    let _ ← advance
    let e ← power r (← trailers r e)
    return if negative && !folds then send e "-@" [] else e
  | none =>
    let operand ← r.unary
    return send operand (if negative then "-@" else "+@") []

/-- An operand with the operators in front of it. -/
def unary (r : Rules) : Reading Expr := do
  match ← peek with
  | .minus =>
    let _ ← advance
    signed r true
  | .plus =>
    let _ ← advance
    signed r false
  | .bang =>
    let _ ← advance
    return .not (← r.unary)
  | .tilde =>
    let _ ← advance
    return send (← r.unary) "~" []
  | _ =>
    let e ← primary r
    power r (← trailers r e)

/-- A chain of binary operators of level `level` or higher. -/
def binary (r : Rules) (level : Nat) : Reading Expr := do
  let first ← unary r
  repeatFrom first fun left => do
    match binaryOperator? (← peek) with
    | none => return .done left
    | some (opLevel, op) =>
      if opLevel < level then return .done left
      let _ ← advance
      skipNewlines
      let right ← r.binary (opLevel + 1)
      return .again (combine op left right)

/-- A range, or an operand of one. -/
def range (r : Rules) : Reading Expr := do
  let first ← binary r 0
  match ← peek with
  | .dot2 =>
    let _ ← advance
    return .range first (← binary r 0) false
  | .dot3 =>
    let _ ← advance
    return .range first (← binary r 0) true
  | _ => return first

/-- A conditional `a ? b : c`, or an operand of one. -/
def ternary (r : Rules) : Reading Expr := do
  let cond ← range r
  if !(← eat .question) then return cond
  skipNewlines
  let thenExpr ← r.ternary
  skipNewlines
  expect .colon "':' in ternary"
  skipNewlines
  let elseExpr ← r.ternary
  return .ternary cond thenExpr elseExpr

/-! ## Assignment -/

/-- What an assignment to `e`, which begins at offset `start`, writes to. A name that was a call
becomes a local variable. -/
def target (e : Expr) (start : Nat) : Reading (Target Expr) := do
  match e with
  | .lvar n => return .lvar n
  | .ivar n => return .ivar n
  | .gvar n => return .gvar n
  | .const base n => return .const base n
  | .call c =>
    if c.isBare && isLocalName c.name then
      declare c.name
      return .lvar c.name
    else
      match c with
      | ⟨some recv, name, args, none, none⟩ =>
        if name == "[]" then return .index recv args
        else if args.isEmpty && isLocalName name then return .attr recv name
        else faultAt start .notAssignable
      | _ => faultAt start .notAssignable
  | _ => faultAt start .notAssignable

/-- An assignment, or what can stand on its left. -/
def expr (r : Rules) : Reading Expr := do
  let start := (← currentToken).span.start
  let left ← ternary r
  match ← peek with
  | .assign =>
    let t ← target left start
    let _ ← advance
    return .assign t (← r.expr)
  | .opAssign op =>
    let t ← target left start
    let _ ← advance
    return .opAssign t op (← r.expr)
  | _ => return left

/-! ## Statements -/

/-- An expression with `not` in front. -/
def notExpr (r : Rules) : Reading Expr := do
  if ← eatKeyword .notKw then return .not (← r.notExpr) else expr r

/-- A chain of `and` and `or`, which bind alike and group to the left. -/
def exprStmt (r : Rules) : Reading Expr := do
  let first ← notExpr r
  repeatFrom first fun left => do
    if ← eatKeyword .andKw then return .again (.and left (← notExpr r))
    else if ← eatKeyword .orKw then return .again (.or left (← notExpr r))
    else return .done left

/-- The loop that a modifier makes of `e`: after a plain `begin … end` the body runs first. -/
def modifierLoop (e cond : Expr) (isUntil : Bool) : Expr :=
  match unguarded? e with
  | some body => .loop cond body isUntil true
  | none => .loop cond [e] isUntil false

/-- A statement with its modifiers. -/
def stmt (r : Rules) : Reading Expr := do
  let first ← exprStmt r
  repeatFrom first fun e => do
    match ← peek with
    | .keyword .ifKw =>
      let _ ← advance
      return .again (.ifElse (← exprStmt r) [e] [])
    | .keyword .unlessKw =>
      let _ ← advance
      return .again (.ifElse (← exprStmt r) [] [e])
    | .keyword .whileKw =>
      let _ ← advance
      return .again (modifierLoop e (← exprStmt r) false)
    | .keyword .untilKw =>
      let _ ← advance
      return .again (modifierLoop e (← exprStmt r) true)
    | .keyword .rescueKw =>
      let _ ← advance
      let fallback ← exprStmt r
      return .again (.begin [e] [⟨[], none, [fallback]⟩] none none)
    | _ => return .done e

/-- Whether a list of statements ends before a token of this kind. -/
def endsBody : TokenKind → Bool
  | .eof | .rbrace | .rparen => true
  | .keyword w =>
    (w matches .endKw | .elseKw | .elsifKw | .whenKw | .rescueKw | .ensureKw)
  | _ => false

/-- Statements up to a token that ends them. -/
def stmts (r : Rules) : Reading (List Expr) :=
  repeatFrom [] fun body => do
    skipTerminators
    if endsBody (← peek) then return .done body.reverse
    let e ← stmt r
    if !isTerminator (← peek) && !endsBody (← peek) then unexpected
    return .again (e :: body)

end RubyJs.Grammar
