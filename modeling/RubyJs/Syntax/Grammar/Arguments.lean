import RubyJs.Syntax.Grammar.Rules

set_option autoImplicit false

/-! # Arguments, parameters and blocks

Arguments stand between delimiters or, without them, after a blank. Pairs `key => value` and
`key: value` are collected into one hash, the last argument.
-/

namespace RubyJs.Grammar

open Reading

/-! ## Arguments -/

/-- The arguments read so far. -/
structure Arguments where
  values : List Expr := []
  pairs : List (Expr × Expr) := []
  blockArg : Option Expr := none

namespace Arguments

/-- The arguments of the call, the pairs as a last hash. -/
def list (a : Arguments) : List Expr :=
  if a.pairs.isEmpty then a.values else a.values ++ [.hash a.pairs]

/-- Adds an argument. -/
def addValue (a : Arguments) (e : Expr) : Arguments := { a with values := a.values ++ [e] }

/-- Adds a pair. -/
def addPair (a : Arguments) (key value : Expr) : Arguments :=
  { a with pairs := a.pairs ++ [(key, value)] }

end Arguments

/-- Reads one argument and adds it. -/
def argument (r : Rules) (a : Arguments) : Reading Arguments := do
  match ← peek with
  | .star =>
    let _ ← advance
    return a.addValue (.splat (← r.ternary))
  | .amp =>
    let _ ← advance
    return { a with blockArg := some (← r.ternary) }
  | .label name =>
    let _ ← advance
    skipNewlines
    return a.addPair (.sym name) (← r.expr)
  | _ =>
    let e ← r.expr
    if ← eat .arrow then
      skipNewlines
      return a.addPair e (← r.expr)
    else return a.addValue e

/-- The arguments up to the delimiter `close`; the opening one is taken. -/
def delimitedArguments (r : Rules) (close : TokenKind) : Reading Arguments :=
  withDoTaken false do
    repeatFrom {} fun a => do
      skipNewlines
      if ← eat close then return .done a
      let a ← argument r a
      skipNewlines
      if ← eat .comma then return .again a
      skipNewlines
      expect close "closing delimiter of argument list"
      return .done a

/-- The arguments of a call without parentheses. A `do` after them belongs to the call. -/
def commandArguments (r : Rules) : Reading Arguments :=
  withDoTaken true do
    repeatFrom {} fun a => do
      let a ← argument r a
      if ← eat .comma then
        skipNewlines
        return .again a
      else return .done a

/-- Whether a parenthesis follows directly, so that it opens the arguments. -/
def parenFollows : Reading Bool := do
  let t ← currentToken
  return t.kind == .lparen && !t.spaced

/-- Whether an argument without parentheses can begin with a token of this kind after a blank.
`glued` says that no blank follows the token, which tells `f -1` from `f - 1`. -/
def beginsArgument (kind : TokenKind) (glued : Bool) : Bool :=
  match kind with
  | .int _ | .float _ | .str _ | .xstr _ | .symbol _ | .dsymbol _ | .words _ | .ident _
  | .const _ | .ivar _ | .gvar _ | .label _ | .lbracket | .lparen => true
  | .keyword w =>
    (w matches .nilKw | .trueKw | .falseKw | .selfKw | .fileKw | .notKw | .superKw | .yieldKw
      | .caseKw | .beginKw)
  | .colonColon | .bang | .tilde | .minus | .star | .amp => glued
  | _ => false

/-- Whether arguments without parentheses follow. -/
def commandFollows : Reading Bool := do
  let tokens := (← get).tokens
  return tokens.current.spaced && beginsArgument tokens.current.kind (!tokens.second.spaced)

/-- The arguments after a name, if there are any. -/
def arguments? (r : Rules) : Reading (Option Arguments) := do
  if ← parenFollows then
    let _ ← advance
    return some (← delimitedArguments r .rparen)
  else if ← commandFollows then return some (← commandArguments r)
  else return none

/-! ## Parameters -/

/-- A named parameter, with its default if an equals sign follows. -/
def namedParameter (default_ : Reading Expr) (p : Params Expr) (name : String) :
    Reading (Params Expr) := do
  declare name
  if ← eat .assign then
    return { p with optional := p.optional ++ [(name, ← default_)] }
  else return { p with required := p.required ++ [name] }

/-- The parameters of a block; the bar that opens them is taken. -/
def blockParameters (r : Rules) : Reading (Params Expr) :=
  repeatFrom {} fun p => do
    skipNewlines
    if ← eat .pipe then return .done p
    let p ← match ← advance with
      | .ident name => namedParameter r.unary p name
      | .star => pure { p with rest := some (← parameterName) }
      | .amp => pure { p with block := some (← parameterName) }
      | .lparen => faultBefore .destructuring
      | _ => faultBefore .blockParameter
    if ← eat .comma then return .again p
    skipNewlines
    expect .pipe "'|' after block parameters"
    return .done p

/-- The parameters of a method, at least one. Between parentheses lines may end. -/
def someParameters (r : Rules) (closed : Bool) : Reading (Params Expr) :=
  repeatFrom {} fun p => do
    if closed then skipNewlines
    let p ← match ← advance with
      | .ident name => namedParameter r.ternary p name
      | .star => pure { p with rest := some (← parameterName) }
      | .amp => pure { p with block := some (← parameterName) }
      | .label _ => faultBefore .keywordParameter
      | _ => faultBefore .methodParameter
    if ← eat .comma then return .again p else return .done p

/-- The parameters of a method, in parentheses, bare or none. -/
def methodParameters (r : Rules) : Reading (Params Expr) := do
  if ← eat .lparen then
    skipNewlines
    if ← eat .rparen then return {}
    let p ← someParameters r true
    skipNewlines
    expect .rparen "')' after method parameters"
    return p
  else if ← atTerminator then return {}
  else someParameters r false

/-! ## Blocks and calls -/

/-- What stands in a block: its parameters and its body, up to `close`. -/
def blockContents (r : Rules) (close : TokenKind) : Reading (Block Expr) := do
  let params ← if ← eat .pipe then blockParameters r
    else do
      let _ ← eat .orOr
      pure {}
  let body ← r.stmts
  expect close "end of block"
  return ⟨params, body⟩

/-- The block at the current token, up to `close`. -/
def block (r : Rules) (close : TokenKind) : Reading (Block Expr) := do
  let _ ← advance
  inScope true (withDoTaken false (blockContents r close))

/-- The block of a call, if there is one. -/
def block? (r : Rules) : Reading (Option (Block Expr)) := do
  if ← atKind .lbrace then return some (← block r .rbrace)
  else if (← atKeyword .doKw) && (← get).noDo == 0 then
    return some (← block r (.keyword .endKw))
  else return none

/-- The rest of a call after its name: arguments and block. -/
def callRest (r : Rules) (recv : Option Expr) (name : String) : Reading Expr := do
  let args := (← arguments? r).getD {}
  let block ← block? r
  return .call { recv, name, args := args.list, block, blockArg := args.blockArg }

end RubyJs.Grammar
