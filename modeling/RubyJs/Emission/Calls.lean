import RubyJs.Emission
import RubyJs.Script.Names

set_option autoImplicit false

/-! # Emissions of calls

A call is a property of the receiver that is called, or goes through the runtime if it has a block
or a splat. The receiver is generated first, then the block, then the arguments.

    a.b(1)          a.$b(1)
    a.b(*c)         Opal.send(a, "$b", Opal.to_a(c), nil)
-/

namespace RubyJs.Emission

open Script (Term Stmt Name)

/-! ## Parameters and blocks -/

/-- The parameters that the function takes by position. -/
def positional (p : Params Emission) : List String := p.required ++ p.optional.map (·.1)

/-- The statements that give parameters their defaults. -/
def defaults : List (String × Emission) → Gen (List Stmt)
  | [] => pure []
  | (x, e) :: rest => do
    let v ← e.value
    let others ← defaults rest
    pure (.orDefault (.user x) v :: others)

/-- The statements that set the parameters with a default and the one for the remaining
arguments. -/
def paramSetup (p : Params Emission) : Gen (List Stmt) := do
  let optional ← defaults p.optional
  match p.rest with
  | none => pure optional
  | some x => do
    Gen.declareLocal x
    let slice : Term := .member (.member (.member (.own "Array") "prototype") "slice") "call"
    let rest : Term := .call slice [.own "arguments", .word (toString (positional p).length)]
    pure (optional ++ [.term (.assign (.user x) rest)])

/-- The body of a block. -/
def blockBody (b : Block Emission) : Gen (List Stmt) := do
  let setup ← paramSetup b.params
  match b.params.block with
  | some x => Gen.declareLocal x
  | none => pure ()
  let main ← body b.body true
  pure (b.params.required.map (fun x => Stmt.orNil (.user x)) ++ setup ++ main)

/-- The function that a block is. -/
def block (b : Block Emission) : Gen Term := do
  let names := positional b.params
  let (stmts, frame) ← Gen.inFrame { kind := .block, params := names } (blockBody b)
  pure (.func { frame.function [] [] stmts with params := names.map Name.user })

/-- The block that a call is given. -/
def givenBlock (b : Option (Block Emission)) (arg : Option Emission) : Gen (Option Term) :=
  match b, arg with
  | some b, _ => do pure (some (← block b))
  | none, some e => do pure (some (← e.value))
  | none, none => pure none

/-! ## Calls -/

/-- The block of the method around the current place. -/
def iter : Gen Term := do
  if ← Gen.useIter then pure (.own "$iter") else pure .nil

/-- Whether the method around the current place was given a block. -/
def blockGiven : Gen Term := do
  if ← Gen.useIter then pure (.paren (.binary "!==" (.own "$iter") .nil)) else pure (.bool false)

/-- A call of a method. -/
def send (recv : Term) (name : String) (args : List Emission) (block : Option Term) : Gen Term := do
  if args.any (·.splat?.isSome) || block.isSome then
    let list ← argumentArray args
    pure (.runtime "send" [recv, .methodName name, list, block.getD .nil])
  else
    let vs ← values args
    pure (.call (.method recv name) vs)

/-- A call without a meaning of its own. -/
def ordinaryCall (c : Call Emission) : Gen Term := do
  let r ← match c.recv with
    | some e => e.recv
    | none => pure .self
  let b ← givenBlock c.block c.blockArg
  send r c.name c.args b

/-- The call that a declaration becomes; `none` if it stays the call that it is. -/
def declarationTerm (d : Declaration) : Option Term :=
  match d.kind with
  | .direct => some (.call (.method .self "require") [.str d.name])
  | .tree => some (.call (.method .self "require_tree") [.str d.name])
  | .autoload => none

/-- The value of a call. -/
def callValue (builtin : Option Builtin) (declared : Bool → Option Declaration)
    (c : Call Emission) : Gen Term := do
  match builtin with
  | some .debugger => pure (.call (.paren (.inline [.debugger, .ret .nil false])) [])
  | some .blockGiven => blockGiven
  | _ => do
    match declared (← get).inClassBody with
    | none => ordinaryCall c
    | some d => do
      Gen.record d
      match declarationTerm d with
      | some t => pure t
      | none => ordinaryCall c

/-- A call. `builtin` is the meaning of its own that it has, `declared` what it declares, which may
hang on whether it stands in the body of a class or module. -/
def call (builtin : Option Builtin) (declared : Bool → Option Declaration) (c : Call Emission) :
    Emission :=
  let plain := ofValue true (callValue builtin declared c)
  match builtin with
  | some .debugger => { plain with stmts := fun ret => pure (.debugger :: returnNil ret) }
  | some .blockGiven => { plain with test := blockGiven }
  | _ => plain

/-- `yield args` -/
def yield (args : List Emission) : Emission :=
  ofValue true do
    let i ← iter
    let list ← argumentArray args
    pure (.runtime "yieldX" [i, list])

/-- `super`: the method of the same name further up. -/
def super (args : Option (List Emission)) (b : Option (Block Emission)) (arg : Option Emission) :
    Emission :=
  ofValue true do
    match (← get).method? with
    | none => Gen.refuse .straySuper
    | some m => do
      let list ← match args with
        | some items => argumentArray items
        | none => pure m.forwarded
      let given ← match ← givenBlock b arg with
        | some t => pure t
        | none => iter
      pure (.runtime "zuper" [.self, .methodName m.name, .own m.function, list, given])

end RubyJs.Emission
