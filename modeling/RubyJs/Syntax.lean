set_option autoImplicit false

/-! # Syntax trees

The tree of a unit. The parts that hold expressions (parameters, blocks, calls, clauses, …) are
types over the expressions they hold, so that a walk over the tree can use the same shapes for its
results:

    Call Expr      a call with its argument trees
    Call α         the same call with an `α` for each of them

Number literals keep their text. `Expr.begin` with no clauses is a plain `begin … end`.
-/

namespace RubyJs

/-- A piece of a string-like literal: text, or statements whose value is put in. -/
inductive Part (ε : Type) where
  | lit (text : String)
  | code (body : List ε)

/-- Where a constant is looked up. -/
inductive Base (ε : Type) where
  /-- In the enclosing scopes, then among the global names. -/
  | lexical
  /-- Among the global names: `::Name`. -/
  | top
  /-- In the value of an expression: `Scope::Name`. -/
  | within (scope : ε)

/-- The parameters of a method or block. -/
structure Params (ε : Type) where
  required : List String := []
  /-- The parameters with a default. -/
  optional : List (String × ε) := []
  /-- The parameter that takes the remaining arguments. -/
  rest : Option String := none
  /-- The parameter that takes the block. -/
  block : Option String := none

namespace Params

/-- Whether there are no parameters. -/
def isEmpty {ε : Type} (p : Params ε) : Bool :=
  p.required.isEmpty && p.optional.isEmpty && p.rest.isNone && p.block.isNone

end Params

/-- A block: `{ |a| … }` or `do |a| … end`. -/
structure Block (ε : Type) where
  params : Params ε
  body : List ε

/-- A method call. -/
structure Call (ε : Type) where
  recv : Option ε
  name : String
  args : List ε := []
  block : Option (Block ε) := none
  /-- The argument written `&e`. -/
  blockArg : Option ε := none

namespace Call

/-- Whether the call is written as a name alone. -/
def isBare {ε : Type} (c : Call ε) : Bool :=
  c.recv.isNone && c.args.isEmpty && c.block.isNone && c.blockArg.isNone

end Call

/-- What an assignment writes to. -/
inductive Target (ε : Type) where
  | lvar (name : String)
  | ivar (name : String)
  | gvar (name : String)
  | const (base : Base ε) (name : String)
  | attr (recv : ε) (name : String)
  | index (recv : ε) (args : List ε)

/-- A clause of a `case`. -/
structure When (ε : Type) where
  values : List ε
  body : List ε

/-- A clause of a `begin` that handles errors of the `classes`. Without classes it handles standard
errors. -/
structure Rescue (ε : Type) where
  classes : List ε
  var : Option String
  body : List ε

/-- Expressions. Every statement is one. -/
inductive Expr where
  | nil
  | bool (value : Bool)
  | selfRef
  /-- An integer as written, with its sign and radix. -/
  | int (text : String)
  /-- A float as written. -/
  | float (text : String)
  | str (text : String)
  | dstr (parts : List (Part Expr))
  /-- Text of the target language. -/
  | xstr (parts : List (Part Expr))
  | sym (name : String)
  | dsym (parts : List (Part Expr))
  | array (items : List Expr)
  | hash (pairs : List (Expr × Expr))
  | range (first last : Expr) (exclusive : Bool)
  | lvar (name : String)
  | ivar (name : String)
  | gvar (name : String)
  | const (base : Base Expr) (name : String)
  | assign (target : Target Expr) (value : Expr)
  /-- `target op= value`. -/
  | opAssign (target : Target Expr) (op : String) (value : Expr)
  | call (call : Call Expr)
  | splat (inner : Expr)
  | not (inner : Expr)
  | and (left right : Expr)
  | or (left right : Expr)
  | ifElse (cond : Expr) (thenBody elseBody : List Expr)
  | ternary (cond thenExpr elseExpr : Expr)
  /-- A loop. `until` loops end when the condition holds; with `bodyFirst` the body runs before the
  first test. -/
  | loop (cond : Expr) (body : List Expr) (isUntil bodyFirst : Bool)
  | caseOf (subject : Option Expr) (whens : List (When Expr)) (elseBody : Option (List Expr))
  | begin (body : List Expr) (rescues : List (Rescue Expr))
      (elseBody ensureBody : Option (List Expr))
  /-- Statements between parentheses. -/
  | seq (body : List Expr)
  | ret (value : Option Expr)
  | brk (value : Option Expr)
  | nxt (value : Option Expr)
  | yield (args : List Expr)
  /-- `super`; without arguments it passes on those of the method. -/
  | super (args : Option (List Expr)) (block : Option (Block Expr)) (blockArg : Option Expr)
  | define (singleton : Option Expr) (name : String) (params : Params Expr) (body : List Expr)
  | classDef (base : Base Expr) (name : String) (superclass : Option Expr) (body : List Expr)
  | moduleDef (base : Base Expr) (name : String) (body : List Expr)
  /-- `class << target`. -/
  | singletonDef (target : Expr) (body : List Expr)
  | aliasMethod (newName oldName : String)
  | undef (names : List String)

namespace Expr

/-- Whether the expression is a call of the method `name`. -/
def isCall (e : Expr) (name : String) : Bool :=
  match e with
  | .call c => c.name == name
  | _ => false

/-- The text of a plain string or symbol. -/
def literal? : Expr → Option String
  | .str t | .sym t => some t
  | _ => none

/-- Whether the expression is `*e`. -/
def isSplat : Expr → Bool
  | .splat _ => true
  | _ => false

end Expr

/-- The tree of a unit. -/
structure Program where
  body : List Expr
  /-- The text after the marker line. -/
  endData : Option String

end RubyJs
