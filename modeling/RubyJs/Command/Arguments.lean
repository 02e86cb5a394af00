import RubyJs.Path

set_option autoImplicit false

/-! # Arguments of the command

Options take a value, flags do not. A value stands in the next argument or is attached:

    --input main.rb    --input=main.rb    -i main.rb    -imain.rb    -i=main.rb

Short flags can be written together, the last one may be an option: `-vvi main.rb`. An argument that
starts with a dash is never the value of the option before it. A value in the next argument is
looked at when the next option, a flag or the end is reached; so an unknown argument after it is
reported first.
-/

namespace RubyJs.Command

/-! ## Options -/

/-- What the command writes. -/
inductive Emit where
  /-- The entry and all it needs. -/
  | bundle
  /-- The entry alone. -/
  | unit
  /-- The edges between the units. -/
  | deps
deriving DecidableEq, Repr

/-- What the value of `--emit` means. -/
def Emit.ofText? (text : String) : Option Emit :=
  if text == "bundle" then some .bundle
  else if text == "unit" then some .unit
  else if text == "deps" then some .deps
  else none

/-- The options. -/
inductive ValueOption where
  | input
  | entry
  | output
  | includeDir
  | stdlib
  | stub
  | prerequire
  | preload
  | emit
deriving DecidableEq, Repr

/-- The flags. -/
inductive Flag where
  | noStdlib
  | requirable
  | noBanner
  | verbose
  | help
  | version
deriving DecidableEq, Repr

/-- An option or a flag. -/
inductive Switch where
  | option (option : ValueOption)
  | flag (flag : Flag)
deriving DecidableEq, Repr

namespace Switch

/-- The switch with a long name. -/
def ofLong? (name : String) : Option Switch :=
  match name with
  | "input" => some (option .input)
  | "entry" => some (option .entry)
  | "output" => some (option .output)
  | "include" => some (option .includeDir)
  | "stdlib" => some (option .stdlib)
  | "stub" => some (option .stub)
  | "prerequire" => some (option .prerequire)
  | "preload" => some (option .preload)
  | "emit" => some (option .emit)
  | "no-stdlib" => some (flag .noStdlib)
  | "requirable" => some (flag .requirable)
  | "no-banner" => some (flag .noBanner)
  | "verbose" => some (flag .verbose)
  | "help" => some (flag .help)
  | "version" => some (flag .version)
  | _ => none

/-- The switch with a short name. -/
def ofShort? (name : Char) : Option Switch :=
  match name with
  | 'i' => some (option .input)
  | 'e' => some (option .entry)
  | 'o' => some (option .output)
  | 'I' => some (option .includeDir)
  | 'v' => some (flag .verbose)
  | 'h' => some (flag .help)
  | 'V' => some (flag .version)
  | _ => none

end Switch

/-! ## Invocations -/

/-- What the command is asked to do. -/
structure Invocation where
  input : Option Path := none
  entry : Option String := none
  output : Option Path := none
  includes : List Path := []
  stdlib : Option Path := none
  noStdlib : Bool := false
  stubs : List String := []
  prerequired : List String := []
  preload : List String := []
  emit : Option Emit := none
  requirable : Bool := false
  noBanner : Bool := false
  verbose : Nat := 0

/-- Why arguments are not taken. The last two are no errors, but ask for a text instead of a run. -/
inductive UsageError where
  | unknownArgument
  /-- A value is missing, or the option does not take it. -/
  | invalidValue
  /-- Two arguments exclude each other, or one is given twice. -/
  | argumentConflict
  /-- A flag has a value. -/
  | tooManyValues
  | help
  | version
deriving DecidableEq, Repr

namespace Invocation

/-- A value for something that can be given once. -/
def once {α : Type} (old : Option α) (new : Except UsageError α) : Except UsageError (Option α) :=
  match old with
  | some _ => .error .argumentConflict
  | none => new.map some

/-- A path, which is never empty. -/
def pathValue (value : String) : Except UsageError Path :=
  if value.isEmpty then .error .invalidValue else .ok ⟨value⟩

/-- What `--emit` is given. -/
def emitValue (value : String) : Except UsageError Emit :=
  match Emit.ofText? value with
  | some e => .ok e
  | none => .error .invalidValue

/-- Sets an option. -/
def setOption (i : Invocation) (o : ValueOption) (value : String) : Except UsageError Invocation :=
  match o with
  | .input => do pure { i with input := ← once i.input (pathValue value) }
  | .entry => do pure { i with entry := ← once i.entry (.ok value) }
  | .output => do pure { i with output := ← once i.output (pathValue value) }
  | .includeDir => do pure { i with includes := i.includes ++ [← pathValue value] }
  | .stdlib => do pure { i with stdlib := ← once i.stdlib (pathValue value) }
  | .stub => .ok { i with stubs := i.stubs ++ [value] }
  | .prerequire => .ok { i with prerequired := i.prerequired ++ [value] }
  | .preload => .ok { i with preload := i.preload ++ [value] }
  | .emit => do pure { i with emit := ← once i.emit (emitValue value) }

/-- Sets a flag. -/
def setFlag (i : Invocation) : Flag → Except UsageError Invocation
  | .noStdlib => if i.noStdlib then .error .argumentConflict else .ok { i with noStdlib := true }
  | .requirable =>
    if i.requirable then .error .argumentConflict else .ok { i with requirable := true }
  | .noBanner => if i.noBanner then .error .argumentConflict else .ok { i with noBanner := true }
  | .verbose => .ok { i with verbose := i.verbose + 1 }
  | .help => .error .help
  | .version => .error .version

/-- Whether two of the arguments exclude each other. -/
def hasConflict (i : Invocation) : Bool :=
  (i.entry.isSome && i.input.isSome) || (i.noStdlib && i.stdlib.isSome)

end Invocation

/-! ## Reading -/

/-- The arguments read so far. -/
structure ArgState where
  invocation : Invocation := {}
  /-- An option that is not set yet, with its value if that was read. -/
  pending : Option (ValueOption × Option String) := none
  /-- Whether `--` was read: after it nothing is a switch. -/
  ended : Bool := false

namespace ArgState

/-- Sets the option that is pending. -/
def settle (s : ArgState) : Except UsageError ArgState :=
  match s.pending with
  | none => .ok s
  | some (_, none) => .error .invalidValue
  | some (o, some value) => do
    let i ← s.invocation.setOption o value
    pure { s with invocation := i, pending := none }

/-- Reads an option, with its value if that is attached. -/
def readOption (s : ArgState) (o : ValueOption) (attached : Option String) :
    Except UsageError ArgState := do
  let s ← s.settle
  match attached with
  | none => pure { s with pending := some (o, none) }
  | some value => do
    let i ← s.invocation.setOption o value
    pure { s with invocation := i }

/-- Reads a flag. -/
def readFlag (s : ArgState) (f : Flag) : Except UsageError ArgState := do
  let s ← s.settle
  let i ← s.invocation.setFlag f
  pure { s with invocation := i }

/-- A name and the value attached to it. -/
def splitValue (cs : List Char) : String × Option String :=
  let name := cs.takeWhile (· != '=')
  match cs.drop name.length with
  | [] => (String.ofList name, none)
  | _ :: value => (String.ofList name, some (String.ofList value))

/-- Reads what follows two dashes. -/
def readLong (s : ArgState) (cs : List Char) : Except UsageError ArgState :=
  let (name, value) := splitValue cs
  match Switch.ofLong? name, value with
  | some (.option o), value => s.readOption o value
  | some (.flag f), none => s.readFlag f
  | some (.flag _), some _ => .error .tooManyValues
  | none, _ => .error .unknownArgument

/-- The value attached to a short option. -/
def shortValue : List Char → Option String
  | [] => none
  | '=' :: cs => some (String.ofList cs)
  | cs => some (String.ofList cs)

/-- Reads what follows one dash. -/
def readShort (s : ArgState) : List Char → Except UsageError ArgState
  | [] => .ok s
  | c :: cs =>
    match Switch.ofShort? c with
    | some (.option o) => s.readOption o (shortValue cs)
    | some (.flag f) => do
      let s ← s.readFlag f
      s.readShort cs
    | none => .error .unknownArgument

/-- Reads an argument that is no switch: the value of the option before it. -/
def readValue (s : ArgState) (arg : String) : Except UsageError ArgState :=
  match s.pending with
  | some (o, none) => .ok { s with pending := some (o, some arg) }
  | _ => .error .unknownArgument

/-- Reads an argument. -/
def read (s : ArgState) (arg : String) : Except UsageError ArgState :=
  if s.ended then .error .unknownArgument
  else
    match arg.toList with
    | ['-', '-'] => .ok { s with ended := true }
    | '-' :: '-' :: cs => s.readLong cs
    | '-' :: c :: cs => s.readShort (c :: cs)
    | _ => s.readValue arg

/-- Reads arguments. -/
def readAll (s : ArgState) : List String → Except UsageError ArgState
  | [] => .ok s
  | arg :: args => do
    let s ← s.read arg
    s.readAll args

end ArgState

/-- What the arguments ask for. -/
def Invocation.ofArgs (args : List String) : Except UsageError Invocation := do
  let s ← ArgState.readAll {} args
  let s ← s.settle
  if s.invocation.hasConflict then .error .argumentConflict else .ok s.invocation

end RubyJs.Command
