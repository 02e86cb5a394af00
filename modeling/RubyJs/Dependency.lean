import RubyJs.LogicalName
import RubyJs.Syntax

set_option autoImplicit false

/-! # Dependencies

A few calls without a receiver mean something to the compiler: the `require` family declares what a
unit needs, the rest have a form of their own in the output. Only literal arguments count; whether
the call is ever reached does not.
-/

namespace RubyJs

/-! ## Special calls -/

/-- The calls with a meaning of their own. -/
inductive Builtin where
  /-- `require "name"` -/
  | require
  /-- `require_relative "name"`, seen from the unit it stands in. -/
  | requireRelative
  /-- `require_tree "dir"`: every unit below a directory. -/
  | requireTree
  /-- `autoload Const, "name"` in the body of a class or module. -/
  | autoload
  /-- `debugger`: a breakpoint. -/
  | debugger
  /-- `block_given?`: whether the method was given a block. -/
  | blockGiven
deriving DecidableEq, Repr

namespace Builtin

/-- Every special call. -/
def all : List Builtin := [require, requireRelative, requireTree, autoload, debugger, blockGiven]

/-- The method as it is written. -/
def name : Builtin → String
  | require => "require"
  | requireRelative => "require_relative"
  | requireTree => "require_tree"
  | autoload => "autoload"
  | debugger => "debugger"
  | blockGiven => "block_given?"

/-- The number of arguments; with any other number the call is an ordinary one. -/
def arity : Builtin → Nat
  | require | requireRelative | requireTree => 1
  | autoload => 2
  | debugger | blockGiven => 0

/-- Whether the call declares a dependency. -/
def declares : Builtin → Bool
  | require | requireRelative | requireTree | autoload => true
  | debugger | blockGiven => false

/-- The special call of this name. -/
def ofName? (name : String) : Option Builtin := all.find? (·.name == name)

end Builtin

/-- The special call that a call is, if it is one: no receiver, no block, the right number of
arguments. -/
def Call.builtin? {ε : Type} (c : Call ε) : Option Builtin :=
  if c.recv.isSome || c.block.isSome || c.blockArg.isSome then none
  else (Builtin.ofName? c.name).filter (·.arity == c.args.length)

/-! ## Declarations and edges -/

/-- How a unit needs another. -/
inductive EdgeKind where
  | direct
  /-- As one of the units below a directory. -/
  | tree
  /-- By `autoload`, which loads like a direct need. -/
  | autoload
deriving DecidableEq, Repr

/-- The word for a kind. -/
def EdgeKind.text : EdgeKind → String
  | direct => "direct"
  | tree => "tree"
  | autoload => "autoload"

/-- A need that a unit declares: a logical name, or with `tree` a directory. -/
structure Declaration where
  name : String
  kind : EdgeKind
deriving DecidableEq, Repr

/-- That the unit `source` needs the unit `target`. -/
structure Edge where
  source : String
  target : String
  kind : EdgeKind
deriving DecidableEq, Repr

/-- An edge as it is listed. -/
def Edge.text (e : Edge) : String :=
  e.source ++ " -> " ++ e.target ++ " (" ++ e.kind.text ++ ")"

/-- What a call in the unit `file` declares. `inClass` says that the nearest scope around it that is
no block is the body of a class or module. -/
def Call.declaration? (c : Call Expr) (file : String) (inClass : Bool) : Option Declaration :=
  match c.builtin?, c.args with
  | some .require, [a] => a.literal?.map fun t => ⟨LogicalName.normalize t, .direct⟩
  | some .requireRelative, [a] => a.literal?.map fun t => ⟨LogicalName.relativeTo file t, .direct⟩
  | some .requireTree, [a] => a.literal?.map fun t => ⟨LogicalName.relativeTo file t, .tree⟩
  | some .autoload, [_, a] =>
    if inClass then a.literal?.map fun t => ⟨LogicalName.normalize t, .autoload⟩ else none
  | _, _ => none

end RubyJs
