import RubyJs.Syntax.Grammar.Arguments
import RubyJs.Token.Lexer

set_option autoImplicit false

/-! # Operands

An operand begins with a literal, a name, an opening delimiter or a reserved word. What follows it
(calls after a dot, constants after `::`, indices) is read by `trailers`.
-/

namespace RubyJs.Grammar

open Reading

/-! ## Literals -/

/-- The statements of an interpolation. They see and change the local variables around it. -/
def embedded (r : Rules) (span : Span) : Reading (List Expr) := do
  match lexRange r.text span with
  | .error f => throw f
  | .ok l =>
    let outer := (← get).tokens
    modify fun s => { s with tokens := Stream.ofLexed l }
    let body ← withDoTaken false do
      let body ← r.stmts
      expect .eof "'\x7d'"
      pure body
    modify fun s => { s with tokens := outer }
    return body

/-- The parts of a literal. -/
def parts (r : Rules) : List Segment → Reading (List (Part Expr))
  | [] => return []
  | .text t :: ss => do
    let ps ← parts r ss
    return .lit t :: ps
  | .code span :: ss => do
    let body ← embedded r span
    let ps ← parts r ss
    return .code body :: ps

/-- The text of parts without code. -/
def plainText? : List (Part Expr) → Option String
  | [] => some ""
  | .lit t :: ps => (plainText? ps).map (t ++ ·)
  | .code _ :: _ => none

/-- A string, and those that follow it directly: they are one. -/
def strings (r : Rules) (segments : List Segment) : Reading Expr := do
  let first ← parts r segments
  let all ← repeatFrom first fun ps => do
    match ← peek with
    | .str ss =>
      let _ ← advance
      return .again (ps ++ (← parts r ss))
    | _ => return .done ps
  match plainText? all with
  | some t => return .str t
  | none => return .dstr all

/-- A hash literal; its brace is taken. -/
def hashLiteral (r : Rules) : Reading Expr :=
  withDoTaken false do
    repeatFrom [] fun pairs => do
      skipNewlines
      if ← eat .rbrace then return .done (.hash pairs)
      let key ← hashKey
      skipNewlines
      let value ← r.expr
      let pairs := pairs ++ [(key, value)]
      skipNewlines
      if ← eat .comma then return .again pairs
      skipNewlines
      expect .rbrace "'\x7d' after hash literal"
      return .done (.hash pairs)
where
  /-- A label, or a key with its arrow. -/
  hashKey : Reading Expr := do
    match ← peek with
    | .label name =>
      let _ ← advance
      return .sym name
    | _ =>
      let key ← r.expr
      skipNewlines
      expect .arrow "'=>' in hash literal"
      return key

/-- Statements between parentheses; the opening one is taken. -/
def parenthesised (r : Rules) : Reading Expr :=
  withDoTaken false do
    let body ← r.stmts
    expect .rparen "')'"
    match body with
    | [] => return .nil
    | [e] => return e
    | es => return .seq es

/-! ## Conditions and clauses -/

/-- What divides a condition from its body: `then`, or the end of the line and perhaps `then`. -/
def thenWord : Reading Unit := do
  if !(← eatKeyword .thenKw) then
    requireTerminator
    let _ ← eatKeyword .thenKw

/-- A condition and its body. -/
def branch (r : Rules) : Reading (Expr × List Expr) := do
  let cond ← r.exprStmt
  thenWord
  let body ← r.stmts
  return (cond, body)

/-- The branches after the first, as the body of its `else`. -/
def elseBranches (r : Rules) : Reading (List Expr) :=
  repeatFrom [] fun (branches : List (Expr × List Expr)) => do
    if ← eatKeyword .elsifKw then return .again ((← branch r) :: branches)
    else
      let last ← if ← eatKeyword .elseKw then r.stmts else pure []
      return .done (branches.foldl (fun rest b => [.ifElse b.1 b.2 rest]) last)

/-- An `if` or, with `negated`, an `unless`; the word is taken. -/
def ifExpr (r : Rules) (negated : Bool) : Reading Expr := do
  let (cond, body) ← branch r
  let other ← elseBranches r
  expectKeyword .endKw
  return if negated then .ifElse cond other body else .ifElse cond body other

/-- A `while` or, with `isUntil`, an `until`; the word is taken. -/
def loopExpr (r : Rules) (isUntil : Bool) : Reading Expr := do
  let cond ← withDoTaken true r.exprStmt
  if !(← eatKeyword .doKw) then requireTerminator
  let body ← r.stmts
  expectKeyword .endKw
  return .loop cond body isUntil false

/-- The body after the word `w`, if it is there. -/
def body? (r : Rules) (w : Keyword) : Reading (Option (List Expr)) := do
  if ← eatKeyword w then return some (← r.stmts) else return none

/-- The values of a `when`. -/
def whenValues (r : Rules) : Reading (List Expr) :=
  repeatFrom [] fun values => do
    let value ← if ← eat .star then pure (.splat (← r.ternary)) else r.ternary
    let values := values ++ [value]
    if ← eat .comma then
      skipNewlines
      return .again values
    else return .done values

/-- The clauses of a `case`. -/
def whenClauses (r : Rules) : Reading (List (When Expr)) :=
  repeatFrom [] fun whens => do
    if ← eatKeyword .whenKw then
      let values ← whenValues r
      thenWord
      let body ← r.stmts
      return .again (whens ++ [⟨values, body⟩])
    else return .done whens

/-- A `case`; the word is taken. -/
def caseExpr (r : Rules) : Reading Expr := do
  let subject ← if ← atTerminator then pure none else pure (some (← r.exprStmt))
  skipTerminators
  let whens ← whenClauses r
  if whens.isEmpty then faultHere .caseWithoutWhen
  let elseBody ← body? r .elseKw
  expectKeyword .endKw
  return .caseOf subject whens elseBody

/-- The classes of a `rescue`. -/
def rescueClasses (r : Rules) : Reading (List Expr) :=
  repeatFrom [] fun classes => do
    if (← atTerminator) || (← atKind .arrow) || (← atKeyword .thenKw) then
      return .done classes
    let classes := classes ++ [← r.ternary]
    if ← eat .comma then return .again classes else return .done classes

/-- The clauses that handle errors. -/
def rescueClauses (r : Rules) : Reading (List (Rescue Expr)) :=
  repeatFrom [] fun rescues => do
    if ← eatKeyword .rescueKw then
      let classes ← rescueClasses r
      let var ← if ← eat .arrow then pure (some (← parameterName)) else pure none
      thenWord
      let body ← r.stmts
      return .again (rescues ++ [⟨classes, var, body⟩])
    else return .done rescues

/-- The body of a `begin` or a definition, with its clauses, up to its `end`. -/
def guardedBody (r : Rules) : Reading Expr := do
  let body ← r.stmts
  let rescues ← rescueClauses r
  let elseBody ← body? r .elseKw
  let ensureBody ← body? r .ensureKw
  expectKeyword .endKw
  return .begin body rescues elseBody ensureBody

/-- The body of a `begin` without clauses. -/
def unguarded? : Expr → Option (List Expr)
  | .begin body [] none none => some body
  | _ => none

/-! ## Definitions -/

/-- The object whose method is defined, if one is written: `def self.a`. -/
def singleton? : Reading (Option Expr) := do
  let tokens := (← get).tokens
  if tokens.second.kind != .dot then return none
  let target ← match tokens.current.kind with
    | .keyword .selfKw => pure (some .selfRef)
    | .const n => pure (some (.const .lexical n))
    | .ident n => do
      if ← isLocal n then pure (some (.lvar n))
      else pure (some (.call { recv := none, name := n }))
    | _ => pure none
  if target.isSome then
    let _ ← advance
    let _ ← advance
  return target

/-- What stands in a method: its parameters and its body, up to its `end`. -/
def methodContents (r : Rules) : Reading (Params Expr × List Expr) := do
  let params ← methodParameters r
  let whole ← guardedBody r
  return (params, (unguarded? whole).getD [whole])

/-- A method definition; the word is taken. -/
def defineExpr (r : Rules) : Reading Expr := do
  let singleton ← singleton?
  let name ← definedName
  let (params, body) ← inScope false (methodContents r)
  return .define singleton name params body

/-- The body of a class or module, in a scope of its own, up to its `end`. -/
def scopedBody (r : Rules) : Reading (List Expr) :=
  inScope false do
    let body ← r.stmts
    expectKeyword .endKw
    return body

/-- A class, or the singleton class of an object; the word is taken. -/
def classExpr (r : Rules) : Reading Expr := do
  if ← eat .shl then
    let target ← r.expr
    return .singletonDef target (← scopedBody r)
  else
    let (base, name) ← constantPath
    let superclass ← if ← eat .lt then pure (some (← r.expr)) else pure none
    return .classDef base name superclass (← scopedBody r)

/-- A module; the word is taken. -/
def moduleExpr (r : Rules) : Reading Expr := do
  let (base, name) ← constantPath
  return .moduleDef base name (← scopedBody r)

/-! ## Jumps and other words -/

/-- Whether a value can follow `return`, `break` and `next`. -/
def beginsValue : TokenKind → Bool
  | .keyword w =>
    !(w matches .ifKw | .unlessKw | .whileKw | .untilKw | .rescueKw | .andKw | .orKw | .thenKw
      | .doKw | .elseKw | .elsifKw | .whenKw | .ensureKw | .endKw)
  | .eof | .newline | .semi | .rbrace | .rparen | .rbracket | .comma | .colon => false
  | _ => true

/-- The value of a jump, if there is one. Several values are an array. -/
def jumpValue (r : Rules) : Reading (Option Expr) := do
  if !beginsValue (← peek) then return none
  let first ← r.expr
  if !(← atKind .comma) then return some first
  repeatFrom [first] fun values => do
    if ← eat .comma then return .again (values ++ [← r.expr])
    else return .done (some (.array values))

/-- The names after `undef`. -/
def undefNames : Reading (List String) := do
  let first ← methodOperand
  repeatFrom [first] fun names => do
    if ← eat .comma then return .again (names ++ [← methodOperand])
    else return .done names

/-- An operand that begins with a reserved word. -/
def keywordExpr (r : Rules) (w : Keyword) : Reading Expr := do
  match w with
  | .nilKw => single .nil
  | .trueKw => single (.bool true)
  | .falseKw => single (.bool false)
  | .selfKw => single .selfRef
  | .fileKw => single (.str r.file)
  | .ifKw => taken (ifExpr r false)
  | .unlessKw => taken (ifExpr r true)
  | .whileKw => taken (loopExpr r false)
  | .untilKw => taken (loopExpr r true)
  | .caseKw => taken (caseExpr r)
  | .beginKw => taken (guardedBody r)
  | .defKw => taken (defineExpr r)
  | .classKw => taken (classExpr r)
  | .moduleKw => taken (moduleExpr r)
  | .returnKw => taken do return .ret (← jumpValue r)
  | .breakKw => taken do return .brk (← jumpValue r)
  | .nextKw => taken do return .nxt (← jumpValue r)
  | .yieldKw => taken do
    let args ← arguments? r
    return .yield (args.getD {}).list
  | .superKw => taken do
    let args ← arguments? r
    let block ← block? r
    return .super (args.map (·.list)) block (args.bind (·.blockArg))
  | .aliasKw => taken do
    let newName ← methodOperand
    let oldName ← methodOperand
    return .aliasMethod newName oldName
  | .undefKw => taken do return .undef (← undefNames)
  | .notKw => taken do return .not (← r.expr)
  | _ => unexpected
where
  /-- The word alone. -/
  single (e : Expr) : Reading Expr := do
    let _ ← advance
    return e
  /-- What follows the word. -/
  taken (p : Reading Expr) : Reading Expr := do
    let _ ← advance
    p

/-! ## Operands -/

/-- An operand without what follows it. -/
def primary (r : Rules) : Reading Expr := do
  let start := (← currentToken).span.start
  match ← peek with
  | .int t => taken (return .int t)
  | .float t => taken (return .float t)
  | .str ss => taken (strings r ss)
  | .xstr ss => taken do return .xstr (← parts r ss)
  | .symbol n => taken (return .sym n)
  | .dsymbol ss => taken do
    let ps ← parts r ss
    match plainText? ps with
    | some t => return .sym t
    | none => return .dsym ps
  | .words ws => taken (return .array (ws.map .str))
  | .ivar n => taken (return .ivar n)
  | .gvar n => taken (return .gvar n)
  | .const n => taken do
    if ← parenFollows then callRest r none n else return .const .lexical n
  | .ident n => taken do
    if (← isLocal n) && !(← parenFollows) then return .lvar n else callRest r none n
  | .colonColon => taken do
    match ← advance with
    | .const n => return .const .top n
    | _ => faultBefore .constantAfterColons
  | .lparen => taken (parenthesised r)
  | .lbracket => taken do
    let args ← delimitedArguments r .rbracket
    if args.blockArg.isSome then faultAt start .blockInArray
    return .array args.list
  | .lbrace => taken (hashLiteral r)
  | .keyword w => keywordExpr r w
  | _ => unexpected
where
  /-- Takes the first token and reads on. -/
  taken (p : Reading Expr) : Reading Expr := do
    let _ ← advance
    p

/-- What follows an operand: calls, constants and indices. A bracket after a blank is an index only
of a local variable. -/
def trailers (r : Rules) (e : Expr) : Reading Expr :=
  repeatFrom e fun e => do
    let t ← currentToken
    match t.kind with
    | .dot =>
      let _ ← advance
      skipNewlines
      let name ← methodNameAfterDot
      return .again (← callRest r (some e) name)
    | .colonColon =>
      let _ ← advance
      match ← advance with
      | .const name =>
        if ← parenFollows then return .again (← callRest r (some e) name)
        else return .again (.const (.within e) name)
      | .ident name => return .again (← callRest r (some e) name)
      | _ => faultBefore .nameAfterColons
    | .lbracket =>
      if !t.spaced || (e matches .lvar _) then
        let _ ← advance
        let args ← delimitedArguments r .rbracket
        return .again
          (.call { recv := some e, name := "[]", args := args.list, blockArg := args.blockArg })
      else return .done e
    | _ => return .done e

end RubyJs.Grammar
