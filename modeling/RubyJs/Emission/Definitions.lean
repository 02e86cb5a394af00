import RubyJs.Emission.Calls
import RubyJs.Emission.Values

set_option autoImplicit false

/-! # Emissions of definitions

Methods are named functions handed to the runtime. The bodies of classes and modules are functions
that run at once, with `self` and the scope of constants set for them.
-/

namespace RubyJs.Emission

open Script (Term Stmt Name)

/-! ## Methods -/

/-- The arguments that a `super` without arguments passes on. -/
def forwarded (p : Params Emission) : Term :=
  let list : Term := .array ((positional p).map Term.user)
  match p.rest with
  | some x => .call (.member list "concat") [.user x]
  | none => list

/-- The body of a method. -/
def methodBody (p : Params Emission) (main : List Emission) : Gen (List Stmt) := do
  let setup ← paramSetup p
  let bound ← match p.block with
    | some x => do
      Gen.declareLocal x
      pure [Stmt.term (.assign (.user x) (.own "$iter"))]
    | none => pure []
  let stmts ← body main true
  pure (setup ++ bound ++ stmts)

/-- The function of a method. If the method uses its block, the block is taken from the function's
property, where a call leaves it. -/
def methodFunction (name : String) (p : Params Emission) (main : List Emission) : Gen Term := do
  let function := Script.functionName name
  let method : MethodInfo := { name, function, forwarded := forwarded p }
  let (stmts, frame) ← Gen.inFrame
    { kind := .method, params := positional p, method := some method } (methodBody p main)
  let slot : Term := .member (.own function) "$$p"
  let usesBlock := frame.usesIter || p.block.isSome
  let inits : List (Name × Term) := (.own "self", .own "this") ::
    (if usesBlock then [(.own "$iter", .binary "||" slot .nil)] else [])
  let setup : List Stmt := if usesBlock then [.term (.assign slot .null)] else []
  pure (.func
    { frame.function inits setup stmts with
      name := some function, params := (positional p).map Name.user })

/-- `def name(…) … end`, or with a singleton `def target.name(…) … end` -/
def define (singleton : Option Emission) (name : String) (p : Params Emission)
    (main : List Emission) : Emission :=
  ofValue false do
    match singleton with
    | some e => do
      let target ← e.value
      let f ← methodFunction name p main
      pure (.runtime "defs" [target, .methodName name, f])
    | none => do
      let f ← methodFunction name p main
      pure (.runtime "defn" [.self, .methodName name, f])

/-! ## Classes and modules -/

/-- The variables that the bodies of classes and modules have besides `self`. -/
def bodyInits : List (Name × Term) :=
  [(.own "def", .member .self "$$proto"), (.own "$scope", .member .self "$$scope")]

/-- `class Base::Name < Superclass … end` -/
def classDef (base : Base Emission) (name : String) (superclass : Option Emission)
    (main : List Emission) : Emission :=
  ofValue true do
    let owner ← constantOwner base
    let parent ← match superclass with
      | some e => e.value
      | none => pure .null
    let constructor := "$" ++ name
    let (stmts, frame) ← Gen.inFrame { kind := .classBody } (body main true)
    let made : Term := .runtime "klass"
      [.own "$base", .own "$super", .str name, .own constructor]
    let inits := (.own "self", .assign (.own constructor) made) :: bodyInits
    let f : Term := .func
      { frame.function inits [] stmts with
        params := [.own "$base", .own "$super"], constructor := some constructor }
    pure (.call (.paren f) [owner, parent])

/-- `module Base::Name … end` -/
def moduleDef (base : Base Emission) (name : String) (main : List Emission) : Emission :=
  ofValue true do
    let owner ← constantOwner base
    let (stmts, frame) ← Gen.inFrame { kind := .moduleBody } (body main true)
    let made : Term := .runtime "module" [.own "$base", .str name]
    let f : Term := .func
      { frame.function ((.own "self", made) :: bodyInits) [] stmts with params := [.own "$base"] }
    pure (.call (.paren f) [owner])

/-- `class << target … end` -/
def singletonDef (target : Emission) (main : List Emission) : Emission :=
  ofValue true do
    let t ← target.value
    let (stmts, frame) ← Gen.inFrame { kind := .singletonBody } (body main true)
    let f : Term := .func { frame.function bodyInits [] stmts with params := [.own "self"] }
    pure (.call (.paren f) [.runtime "get_singleton_class" [t]])

/-- `alias newName oldName` -/
def aliasMethod (newName oldName : String) : Emission :=
  ofValue false (pure (.runtime "alias" [.self, .methodName newName, .methodName oldName]))

/-- `undef names` -/
def undef (names : List String) : Emission :=
  ofValue false <| pure <|
    match names.map (fun n => Term.runtime "udef" [.self, .methodName n]) with
    | [one] => one
    | many => .paren (.comma many)

end RubyJs.Emission
