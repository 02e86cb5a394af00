import RubyJs.Emission

set_option autoImplicit false

/-! # Emissions of control flow

Branches, loops, handlers and jumps. A jump is a plain `break`, `continue` or `return` where the
function it stands in is the one it is about; out of a block it goes through the runtime.
-/

namespace RubyJs.Emission

open Script (Term Stmt)

/-! ## Branches -/

/-- `if cond … else … end` -/
def ifElse (cond : Emission) (thenBody elseBody : List Emission) : Emission :=
  let value : Gen Term := do
    let c ← cond.test
    let t ← sequence thenBody
    let e ← sequence elseBody
    pure (.paren (.choice c t e))
  { ofValue true value with
    stmts ret := do
      let c ← cond.test
      let t ← body thenBody ret
      if ret || !elseBody.isEmpty then
        let e ← body elseBody ret
        pure [.branches [(c, t)] (some e)]
      else pure [.branches [(c, t)] none] }

/-- Whether a clause's value takes the subject of the `case`, or is true if there is no subject. -/
def whenTest (subject : Option Term) (e : Emission) : Gen Term :=
  match e.splat?, subject with
  | some (value, _), some s => do
    let v ← value
    pure (.truthy (.runtime "splat_eqq" [v, s]))
  | none, some s => do
    let v ← e.recv
    pure (.truthy (.call (.method v "===") [s]))
  | some (_, test), none => test
  | none, none => e.test

/-- The tests of the values of a clause. -/
def whenTests (subject : Option Term) : List Emission → Gen (List Term)
  | [] => pure []
  | e :: es => do
    let t ← whenTest subject e
    let ts ← whenTests subject es
    pure (t :: ts)

/-- Whether one of the tests holds. -/
def anyOf : List Term → Term
  | [] => .bool false
  | t :: ts => .chain "||" t ts

/-- The clauses of a `case`. -/
def whenClauses (subject : Option Term) (ret : Bool) :
    List (When Emission) → Gen (List (Term × List Stmt))
  | [] => pure []
  | w :: ws => do
    let tests ← whenTests subject w.values
    let b ← body w.body ret
    let rest ← whenClauses subject ret ws
    pure ((anyOf tests, b) :: rest)

/-- The body of an `else`. Without one, `nil` is returned if a value is wanted. -/
def elseClause (elseBody : Option (List Emission)) (ret : Bool) : Gen (Option (List Stmt)) :=
  match elseBody with
  | some b => do pure (some (← body b ret))
  | none => pure (if ret then some (returnNil true) else none)

/-- `case subject when … else … end` -/
def caseOf (subject : Option Emission) (whens : List (When Emission))
    (elseBody : Option (List Emission)) : Emission :=
  ofStmts fun ret =>
    match subject with
    | some s => do
      let v ← s.value
      let t ← Gen.temp
      let tests ← whenClauses (some (.temp t)) ret whens
      let e ← elseClause elseBody ret
      pure [.term (.assign (.temp t) v), .branches tests e]
    | none => do
      let tests ← whenClauses none ret whens
      let e ← elseClause elseBody ret
      pure [.branches tests e]

/-! ## Loops -/

/-- `while cond … end` and `until cond … end` -/
def loop (cond : Emission) (loopBody : List Emission) (isUntil bodyFirst : Bool) : Emission :=
  ofStmts fun ret => do
    let c ← cond.test
    let b ← Gen.inLoop (body loopBody false)
    pure (.loop (if isUntil then .not c else c) b bodyFirst :: returnNil ret)

/-! ## Handlers -/

/-- The classes that a clause handles. -/
def rescueClasses (classes : List Emission) : Gen (List Term) :=
  if classes.isEmpty then pure [.call (.member .scope "get") [.str "StandardError"]]
  else values classes

/-- The clauses of a handler. -/
def rescueClauses (ret : Bool) : List (Rescue Emission) → Gen (List (Term × List Stmt))
  | [] => pure []
  | r :: rs => do
    let classes ← rescueClasses r.classes
    let bound ← match r.var with
      | some x => do
        Gen.declareLocal x
        pure [Stmt.term (.assign (.user x) (.own "$err"))]
      | none => pure []
    let b ← body r.body ret
    let rest ← rescueClauses ret rs
    pure ((.runtime "rescue" [.own "$err", .array classes], bound ++ b) :: rest)

/-- The body of a `begin` and the body of its `else` after it. -/
def guardedBody (main : List Emission) (elseBody : Option (List Emission)) (ret : Bool) :
    Gen (List Stmt) :=
  match elseBody with
  | some e => do
    let first ← body main false
    let second ← body e ret
    pure (first ++ second)
  | none => body main ret

/-- `begin … rescue … else … ensure … end` -/
def begin (main : List Emission) (rescues : List (Rescue Emission))
    (elseBody ensureBody : Option (List Emission)) : Emission :=
  ofStmts fun ret =>
    if rescues.isEmpty && ensureBody.isNone then guardedBody main elseBody ret
    else do
      let b ← guardedBody main elseBody ret
      let handler ← if rescues.isEmpty then pure none else do
        let clauses ← rescueClauses ret rescues
        pure (some [Stmt.branches clauses (some [.rethrow])])
      let finalizer ← match ensureBody with
        | some e => do pure (some (← body e false))
        | none => pure none
      pure [.guarded b handler finalizer]

/-- Statements between parentheses. -/
def seq (es : List Emission) : Emission := { ofValue false (sequence es) with stmts := body es }

/-! ## Jumps -/

/-- `return value`. In a block or wrapper it leaves the function around it. -/
def ret (value : Option Emission) : Emission :=
  { ofValue false (do
      let v ← optionalValue value
      Gen.markReturn
      pure (.runtime "ret" [v])) with
    stmts _ := do
      let v ← optionalValue value
      let s ← get
      if s.frame.kind.seesOuter then
        Gen.markReturn
        pure [.term (.runtime "ret" [v])]
      else pure [.ret v true] }

/-- A `break` (or else a `next`) as a statement. In a loop its value is dropped. -/
def jump (isBreak : Bool) (value : Option Emission) : Gen (List Stmt) := do
  let s ← get
  if s.frame.loops > 0 then pure [if isBreak then .brk else .goOn]
  else if s.frame.kind != .block then
    Gen.refuse (.strayJump (if isBreak then "break" else "next"))
  else
    let v ← optionalValue value
    pure [.ret (if isBreak then .runtime "brk" [v] else v) false]

/-- `break value`. As a value it can stand in a block, outside of loops. -/
def brk (value : Option Emission) : Emission :=
  { ofValue false (do
      let s ← get
      if s.frame.kind == .block && s.frame.loops == 0 then
        pure (.runtime "brk" [← optionalValue value])
      else Gen.refuse .jumpValue) with
    stmts _ := jump true value }

/-- `next value`. It is no value. -/
def nxt (value : Option Emission) : Emission :=
  { ofValue false (Gen.refuse .jumpValue) with stmts _ := jump false value }

end RubyJs.Emission
