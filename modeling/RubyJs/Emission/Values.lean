import RubyJs.Decimal.Numbers
import RubyJs.Emission
import RubyJs.Script.Names

set_option autoImplicit false

/-! # Emissions of values

Literals, variables, constants, assignments and the logical operators.
-/

namespace RubyJs.Emission

open Script (Term Stmt Piece Name)

/-! ## Literals -/

/-- `nil` -/
def nil : Emission := ofTest true (pure .nil) (pure (.bool false))

/-- `true` and `false` -/
def bool (b : Bool) : Emission := ofTest true (pure (.bool b)) (pure (.bool b))

/-- An integer. -/
def int (text : String) : Emission :=
  ofValue false <|
    match Numbers.integerText? text with
    | some t => pure (.word t)
    | none => Gen.refuse (.integerRange text)

/-- A float. -/
def float (text : String) : Emission := ofValue false (pure (.word (Numbers.floatText text)))

/-- A string or symbol without parts to put in. -/
def str (text : String) : Emission := ofValue true (pure (.str text))

/-- The parts of a string, each as a term. -/
def stringParts : List (Part Emission) → Gen (List Term)
  | [] => pure []
  | .lit t :: ps => do
    let rest ← stringParts ps
    pure (.str t :: rest)
  | .code b :: ps => do
    let v ← sequence b
    let rest ← stringParts ps
    pure (.call (.member (.paren v) "$to_s") [] :: rest)

/-- A string or symbol with parts to put in. -/
def interpolated (parts : List (Part Emission)) : Emission :=
  ofValue true do
    match ← stringParts parts with
    | [] => pure (.str "")
    | first :: rest => pure (.paren (.chain "+" first rest))

/-- The pieces of native text. -/
def nativePieces : List (Part Emission) → Gen (List (Piece Term))
  | [] => pure []
  | .lit t :: ps => do
    let rest ← nativePieces ps
    pure (.text t :: rest)
  | .code b :: ps => do
    let v ← sequence b
    let rest ← nativePieces ps
    pure (.term v :: rest)

/-- Native text. -/
def native (parts : List (Part Emission)) : Emission :=
  { ofValue true (do pure (.paren (.native (← nativePieces parts)))) with
    stmts ret := do pure [.native (← nativePieces parts) ret] }

/-- A list. -/
def array (items : List Emission) : Emission := ofValue true (argumentArray items)

/-- The keys and the values of a hash. -/
def hashItems : List (Emission × Emission) → Gen (List Term × List Term)
  | [] => pure ([], [])
  | (k, v) :: ps => do
    let key ← k.value
    let value ← v.value
    let (keys, values) ← hashItems ps
    pure (key :: keys, value :: values)

/-- A hash. -/
def hash (pairs : List (Emission × Emission)) : Emission :=
  ofValue true do
    let (keys, values) ← hashItems pairs
    pure (.runtime "hash" [.array keys, .array values])

/-- A range. -/
def range (first last : Emission) (exclusive : Bool) : Emission :=
  ofValue true do
    let a ← first.value
    let b ← last.value
    pure (.runtime "range" [a, b, .bool exclusive])

/-- `*e` -/
def splat (e : Emission) : Emission :=
  { ofValue false (do pure (.runtime "to_a" [← e.value])) with splat? := some (e.value, e.test) }

/-! ## Variables and constants -/

/-- Where an instance variable is kept. -/
def instancePlace (name : String) : Term := .member .self (Script.instanceProperty name)

/-- Where a global variable is kept. -/
def globalPlace (name : String) : Term := .index (.member .opal "gvars") (.str name)

/-- `self` -/
def selfRef : Emission := ofValue true (pure .self)

/-- A local variable. -/
def lvar (name : String) : Emission := ofValue true (pure (.user name))

/-- An instance variable. -/
def ivar (name : String) : Emission := ofValue true (pure (.orNil (instancePlace name)))

/-- A global variable. -/
def gvar (name : String) : Emission := ofValue true (pure (.orNil (globalPlace name)))

/-- The global object. -/
def globalObject : Term := .member .opal "Object"

/-- The scope of global names. -/
def globalScope : Term := .member globalObject "$$scope"

/-- The object that holds the text after the marker line. -/
def endObject : Term := .own "$__END__"

/-- The value of a constant. `DATA` is the text after the marker line, if there is one. -/
def constantValue (hasEndData : Bool) (base : Base Emission) (name : String) : Gen Term :=
  match base with
  | .lexical =>
    if name == "DATA" && hasEndData then pure endObject
    else pure (.call (.member .scope "get") [.str name])
  | .top => pure (.call (.member globalScope "get") [.str name])
  | .within e => do
    let scope ← e.value
    pure (.runtime "const_get_qualified" [scope, .str name])

/-- The scope that a constant is written to. -/
def constantScope : Base Emission → Gen Term
  | .lexical => pure .scope
  | .top => pure globalScope
  | .within e => do pure (.member (← e.recv) "$$scope")

/-- The object that a class or module is defined under. -/
def constantOwner : Base Emission → Gen Term
  | .lexical => pure .self
  | .top => pure globalObject
  | .within e => e.value

/-- A constant. -/
def const (hasEndData : Bool) (base : Base Emission) (name : String) : Emission :=
  ofValue true (constantValue hasEndData base name)

/-! ## Assignment -/

/-- A place that can be written and read. -/
structure Place where
  /-- The temporaries that hold the parts of the place, with their values. -/
  setup : List (Nat × Term) := []
  /-- The term that writes a value. -/
  write : Term → Term
  /-- The term that reads the value. -/
  read : Gen Term

/-- The arguments of an index that is assigned to, each in a temporary. -/
def indexArguments : List Emission → Gen (List (Nat × Term))
  | [] => pure []
  | e :: es =>
    match e.splat? with
    | some _ => Gen.refuse .splatIndex
    | none => do
      let v ← e.value
      let t ← Gen.temp
      let rest ← indexArguments es
      pure ((t, v) :: rest)

/-- The place that a target means. A local variable is declared here. -/
def place (hasEndData : Bool) : Target Emission → Gen Place
  | .lvar name => do
    Gen.declareLocal name
    pure { write := .assign (.user name), read := pure (.user name) }
  | .ivar name =>
    pure { write := .assign (instancePlace name), read := pure (.orNil (instancePlace name)) }
  | .gvar name =>
    pure { write := .assign (globalPlace name), read := pure (.orNil (globalPlace name)) }
  | .const base name => do
    let scope ← constantScope base
    pure
      { write := fun v => .runtime "cdecl" [scope, .str name, v]
        read := constantValue hasEndData base name }
  | .attr recv name => do
    let r ← recv.recv
    let t ← Gen.temp
    pure
      { setup := [(t, r)]
        write := fun v => .call (.method (.temp t) (name ++ "=")) [v]
        read := pure (.call (.method (.temp t) name) []) }
  | .index recv args => do
    let r ← recv.recv
    let t ← Gen.temp
    let items ← indexArguments args
    let temps := items.map fun item => Term.temp item.1
    pure
      { setup := (t, r) :: items
        write := fun v => .call (.method (.temp t) "[]=") (temps ++ [v])
        read := pure (.call (.method (.temp t) "[]") temps) }

/-- A term after the temporaries it uses are set. -/
def withSetup (setup : List (Nat × Term)) (result : Term) : Term :=
  if setup.isEmpty then result
  else .paren (.comma (setup.map (fun item => .assign (.temp item.1) item.2) ++ [result]))

/-- `target = value` -/
def assign (hasEndData : Bool) (target : Target Emission) (value : Emission) : Emission :=
  ofValue false do
    let p ← place hasEndData target
    let v ← value.value
    pure (withSetup p.setup (p.write v))

/-- `target op= value`. With `||` and `&&` the place is written only if it has to be. -/
def opAssign (hasEndData : Bool) (target : Target Emission) (op : String) (value : Emission) :
    Emission :=
  ofValue false do
    let p ← place hasEndData target
    let r ← p.read
    let v ← value.value
    let result : Term :=
      if op == "||" then .paren (.choice (.truthy r) r (p.write v))
      else if op == "&&" then .paren (.choice (.truthy r) (p.write v) r)
      else p.write (.call (.method r op) [v])
    pure (withSetup p.setup result)

/-! ## Logical operators -/

/-- `!e` -/
def not (e : Emission) : Emission :=
  ofTest false (do pure (.not (← e.test))) (do pure (.not (← e.test)))

/-- The statement that runs `e` if a test holds. -/
def onlyIf (cond : Term) (e : Emission) : Gen (List Stmt) := do
  let b ← e.stmts false
  pure [.branches [(cond, b)] none]

/-- `left && right` -/
def and (left right : Emission) : Emission :=
  let value : Gen Term := do
    let l ← left.value
    let r ← right.value
    let t ← Gen.temp
    pure (.paren (.choice (.truthy (.assign (.temp t) l)) r (.temp t)))
  let test : Gen Term := do
    let l ← left.test
    let r ← right.test
    pure (.paren (.binary "&&" l r))
  { ofTest true value test with
    stmts ret := do
      if ret then pure [valueStmt (← value) true]
      else
        let c ← left.test
        onlyIf c right }

/-- `left || right` -/
def or (left right : Emission) : Emission :=
  let value : Gen Term := do
    let l ← left.value
    let r ← right.value
    let t ← Gen.temp
    pure (.paren (.choice (.truthy (.assign (.temp t) l)) (.temp t) r))
  let test : Gen Term := do
    let l ← left.test
    let r ← right.test
    pure (.paren (.binary "||" l r))
  { ofTest true value test with
    stmts ret := do
      if ret then pure [valueStmt (← value) true]
      else
        let c ← left.test
        onlyIf (.not c) right }

end RubyJs.Emission
