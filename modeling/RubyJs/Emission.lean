import RubyJs.Emission.Frame

set_option autoImplicit false

/-! # Emissions

What an expression can be turned into, depending on where it stands: the term for its value, a term
that tells whether the value counts as true, or statements. Statements return the value when it is
wanted there:

    if a; b; end      value       (Opal.truthy(a) ? b : nil)
                      statement   if (Opal.truthy(a)) { b; }
                      returned    if (Opal.truthy(a)) { return b; } else { return nil; }

The emission of a construct is made from the emissions of its parts. They are not run when it is
made, so the parts are generated in the order in which the construct asks for them.
-/

namespace RubyJs

open Script (Term Stmt Piece Name)

/-- The ways to generate an expression. -/
structure Emission where
  value : Gen Term
  /-- A term that is `true` or `false`; a `!` can stand before it. -/
  test : Gen Term
  /-- Statements, which return the value if the flag says so. -/
  stmts : Bool → Gen (List Stmt)
  /-- Whether the value can stand before a dot without parentheses. -/
  bare : Bool
  /-- For `*e`, the value and the test of `e`. -/
  splat? : Option (Gen Term × Gen Term) := none

namespace Emission

/-- The statement for a value. -/
def valueStmt (value : Term) (ret : Bool) : Stmt := if ret then .ret value false else .term value

/-- The emission of an expression that is a value above all. -/
def ofValue (bare : Bool) (value : Gen Term) : Emission where
  value
  test := do pure (.truthy (← value))
  stmts ret := do pure [valueStmt (← value) ret]
  bare

/-- The emission of an expression that is a value with a test of its own. -/
def ofTest (bare : Bool) (value test : Gen Term) : Emission := { ofValue bare value with test }

/-- The value as a receiver. -/
def recv (e : Emission) : Gen Term := do
  let v ← e.value
  pure (if e.bare then v else .paren v)

/-- The value of an optional expression. -/
def optionalValue : Option Emission → Gen Term
  | some e => e.value
  | none => pure .nil

/-- The values of expressions. -/
def values : List Emission → Gen (List Term)
  | [] => pure []
  | e :: es => do
    let v ← e.value
    let vs ← values es
    pure (v :: vs)

/-- The statements of a body; if its value is wanted, the last expression returns it. -/
def body : List Emission → Bool → Gen (List Stmt)
  | [], ret => pure (if ret then [.ret .nil false] else [])
  | [e], ret => e.stmts ret
  | e :: es, ret => do
    let first ← e.stmts false
    let rest ← body es ret
    pure (first ++ rest)

/-- The value of a body in the place of a value. -/
def sequence : List Emission → Gen Term
  | [] => pure .nil
  | [e] => e.value
  | es => do pure (.paren (.comma (← values es)))

/-- The value of statements in the place of a value: a function around them that is called. -/
def wrapped (stmts : Bool → Gen (List Stmt)) : Gen Term := do
  let (body, frame) ← Gen.inFrame { kind := .wrapper } (stmts true)
  pure (.call (.paren (.func (frame.function [] [] body))) [])

/-- The emission of an expression that is made of statements. -/
def ofStmts (stmts : Bool → Gen (List Stmt)) : Emission :=
  { ofValue false (wrapped stmts) with stmts }

/-- The statements that return `nil`, if a value is wanted. -/
def returnNil (ret : Bool) : List Stmt := if ret then [.ret .nil false] else []

/-! ## Arguments -/

/-- An argument's value, and whether it stands for all items of a list. -/
def argument (e : Emission) : Gen (Bool × Term) :=
  match e.splat? with
  | some (value, _) => do pure (true, ← value)
  | none => do pure (false, ← e.value)

/-- The values of arguments. -/
def argumentList : List Emission → Gen (List (Bool × Term))
  | [] => pure []
  | e :: es => do
    let a ← argument e
    let rest ← argumentList es
    pure (a :: rest)

/-- The lists that arguments are made of: a list for each run of plain ones (`plain` is the run read
so far), and the splatted ones. -/
def argumentRuns (plain : List Term) : List (Bool × Term) → List Term
  | [] => run plain
  | (true, v) :: rest => run plain ++ .runtime "to_a" [v] :: argumentRuns [] rest
  | (false, v) :: rest => argumentRuns (plain ++ [v]) rest
where
  /-- A run as a list, unless it is empty. -/
  run : List Term → List Term
    | [] => []
    | vs => [.array vs]

/-- The list of all arguments. -/
def argumentArray (items : List Emission) : Gen Term := do
  match argumentRuns [] (← argumentList items) with
  | [] => pure (.array [])
  | [one] => pure one
  | first :: rest => pure (.call (.member first "concat") rest)

end Emission

end RubyJs
