set_option autoImplicit false

/-! # Scripts

The part of JavaScript that the output is made of: terms, statements and functions. A function
carries its variables in three groups, in the order in which they are declared:

    var self = this, x = nil, $t1;
        ─┬─────────  ─┬─────  ─┬─
        inits        locals   temps

Names keep their kind (a variable of the program, a temporary, a name of the compiler), so that a
script can be asked which of them it uses. Parentheses are part of a script: it is printed as it is.
-/

namespace RubyJs.Script

/-- A name in a script. -/
inductive Name where
  /-- A local variable of the program. -/
  | user (name : String)
  /-- A temporary; they are counted from one in each function. -/
  | temp (index : Nat)
  /-- A name that the compiler brings in, such as `self` or `$scope`. -/
  | own (name : String)
deriving DecidableEq, Repr

/-- A piece of native text: written in the program, or a term put in. -/
inductive Piece (τ : Type) where
  | text (text : String)
  | term (term : τ)

/-- A function with terms `τ` and statements `σ`. -/
structure Func (τ σ : Type) where
  name : Option String := none
  params : List Name := []
  /-- The name of an empty function that is declared first. -/
  constructor : Option String := none
  /-- The variables of the compiler with their first values. -/
  inits : List (Name × τ) := []
  /-- The variables of the program; they start as `nil`. -/
  locals : List String := []
  /-- The number of temporaries. -/
  temps : Nat := 0
  /-- What runs before the body. -/
  setup : List σ := []
  /-- Whether the body stands in a handler for a return from inside a block. -/
  catchesReturn : Bool := false
  body : List σ

mutual

/-- Terms. -/
inductive Term where
  | name (name : Name)
  /-- A number or another word that is written as it is. -/
  | word (text : String)
  | str (text : String)
  | paren (inner : Term)
  | not (inner : Term)
  | binary (op : String) (left right : Term)
  /-- `cond ? yes : no` -/
  | choice (cond yes no : Term)
  | assign (target value : Term)
  | comma (items : List Term)
  | call (function : Term) (args : List Term)
  /-- `object.property` -/
  | member (object : Term) (property : String)
  /-- `object[key]` -/
  | index (object key : Term)
  /-- The method `name` of an object of the program. -/
  | method (recv : Term) (name : String)
  | array (items : List Term)
  | func (function : Func Term Stmt)
  /-- A function written on one line. -/
  | inline (body : List Stmt)
  /-- Text of the program that is JavaScript already. -/
  | native (pieces : List (Piece Term))

/-- Statements. -/
inductive Stmt where
  | term (term : Term)
  /-- `return value;`. It is `explicit` if the program says `return` there. -/
  | ret (value : Term) (explicit : Bool)
  | var (name : Name) (value : Term)
  /-- `if (…) { … } else if (…) { … } else { … }` -/
  | branches (tests : List (Term × List Stmt)) (otherwise : Option (List Stmt))
  /-- A loop; with `bodyFirst` the test stands after the body. -/
  | loop (cond : Term) (body : List Stmt) (bodyFirst : Bool)
  /-- `try { … } catch ($err) { … } finally { … }` -/
  | guarded (body : List Stmt) (handler finalizer : Option (List Stmt))
  /-- `throw $err;` -/
  | rethrow
  | brk
  | goOn
  | debugger
  /-- Gives a parameter without an argument the value `nil`. -/
  | orNil (name : Name)
  /-- Gives a parameter without an argument its default. -/
  | orDefault (name : Name) (value : Term)
  /-- Native text as a statement; with `wanted` its value is returned if it has one. -/
  | native (pieces : List (Piece Term)) (wanted : Bool)

end

/-! ## Abbreviations -/

namespace Term

/-- A name of the compiler. -/
def own (name : String) : Term := .name (.own name)

/-- A local variable of the program. -/
def user (name : String) : Term := .name (.user name)

/-- A temporary. -/
def temp (index : Nat) : Term := .name (.temp index)

def nil : Term := own "nil"
def self : Term := own "self"
def scope : Term := own "$scope"
def opal : Term := own "Opal"
def null : Term := .word "null"

/-- A word for a truth value. -/
def bool (b : Bool) : Term := .word (if b then "true" else "false")

/-- A call of a function of the runtime. -/
def runtime (function : String) (args : List Term) : Term := .call (.member opal function) args

/-- Whether a value counts as true. -/
def truthy (value : Term) : Term := runtime "truthy" [value]

/-- The property name of a method, as a string. -/
def methodName (name : String) : Term := .str ("$" ++ name)

/-- The value of a place that may never have been written. -/
def orNil (place : Term) : Term := .paren (.choice (.binary "==" place null) nil place)

/-- An operator between all items. -/
def chain (op : String) : Term → List Term → Term
  | first, [] => first
  | first, next :: rest => chain op (.binary op first next) rest

end Term

end RubyJs.Script
