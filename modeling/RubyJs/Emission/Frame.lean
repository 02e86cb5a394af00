import RubyJs.Dependency
import RubyJs.Script

set_option autoImplicit false

/-! # Frames

The state of code generation. Every function of the output is generated in a frame that collects its
variables and what it needs; the frames of the functions around it wait outside. Blocks, and the
functions wrapped around a statement that is used as a value, see the variables of the function
around them; a `return` in them leaves that function.

    top          self.$foo(…)
    └ method       function $$foo(a) { … }
      └ block        function(x) { … }        a, x are known here
-/

namespace RubyJs

/-- What a function of the output stands for. -/
inductive FrameKind where
  | top
  | classBody
  | moduleBody
  | singletonBody
  | method
  | block
  /-- A function around a statement that is used as a value. -/
  | wrapper
deriving DecidableEq, Repr

namespace FrameKind

/-- Whether the function belongs to the function around it: it sees its variables, and a `return`
leaves both. -/
def seesOuter : FrameKind → Bool
  | block | wrapper => true
  | _ => false

/-- Whether the function is the body of a class or module. -/
def isClassLike : FrameKind → Bool
  | classBody | moduleBody | singletonBody => true
  | _ => false

end FrameKind

/-- The method that a function is. -/
structure MethodInfo where
  name : String
  /-- The name of the function. -/
  function : String
  /-- The arguments that a `super` without arguments passes on. -/
  forwarded : Script.Term

/-- A function that is being generated. -/
structure Frame where
  kind : FrameKind
  params : List String := []
  method : Option MethodInfo := none
  /-- The variables of the program that the function declares, in the order of their first
  assignment. -/
  locals : List String := []
  /-- The number of temporaries taken so far. -/
  temps : Nat := 0
  /-- The number of loops around the current place. -/
  loops : Nat := 0
  /-- Whether the block given to the method is used. -/
  usesIter : Bool := false
  /-- Whether a block returns from the function. -/
  catchesReturn : Bool := false

namespace Frame

/-- Whether a variable is a parameter or a declared variable of the function. -/
def declares (f : Frame) (name : String) : Bool := f.params.contains name || f.locals.contains name

/-- Whether the function is one that a `return` leaves. -/
def ownsReturn (f : Frame) : Bool := !f.kind.seesOuter

/-- The finished function. -/
def function (f : Frame) (inits : List (Script.Name × Script.Term))
    (setup body : List Script.Stmt) : Script.Func Script.Term Script.Stmt :=
  { inits, locals := f.locals, temps := f.temps, setup, catchesReturn := f.catchesReturn, body }

end Frame

/-- Why a tree has no script. -/
inductive Refusal where
  /-- A `break` or `next` that stands in no loop and no block. -/
  | strayJump (word : String)
  /-- A `break` or `next` in the place of a value. -/
  | jumpValue
  /-- A `super` outside of a method. -/
  | straySuper
  /-- A splat among the arguments of an index that is assigned to. -/
  | splatIndex
  /-- An integer of more than 128 bits. -/
  | integerRange (text : String)
  /-- The end of a function that has no function around it. -/
  | unbalanced
deriving DecidableEq, Repr

/-- The text of a refusal. -/
def Refusal.message : Refusal → String
  | .strayJump word => "`" ++ word ++ "` used outside of a loop or block"
  | .jumpValue => "`break` or `next` used as a value"
  | .straySuper => "`super` outside of a method body"
  | .splatIndex => "splat in an index assignment"
  | .integerRange text => "integer literal " ++ text ++ " is out of range"
  | .unbalanced => "unbalanced scope stack"

/-- The state of code generation. -/
structure GenState where
  /-- The function being generated. -/
  frame : Frame
  /-- The functions around it, from the inside out. -/
  outer : List Frame := []
  /-- The declarations met so far, each once. -/
  declarations : List Declaration := []

namespace GenState

/-- Whether a variable is known in one of these frames, from the inside out. -/
def knownIn (name : String) : List Frame → Bool
  | [] => false
  | f :: fs => f.declares name || (f.kind.seesOuter && knownIn name fs)

/-- Changes the first frame that `p` holds of. -/
def changeFirst (p : Frame → Bool) (change : Frame → Frame) : List Frame → List Frame
  | [] => []
  | f :: fs => if p f then change f :: fs else f :: changeFirst p change fs

/-- Changes the nearest frame that `p` holds of. -/
def changeNearest (p : Frame → Bool) (change : Frame → Frame) (s : GenState) : GenState :=
  if p s.frame then { s with frame := change s.frame }
  else { s with outer := changeFirst p change s.outer }

/-- The nearest function that a `return` leaves. -/
def returnFrame? (s : GenState) : Option Frame := (s.frame :: s.outer).find? Frame.ownsReturn

/-- The method around the current place, if the nearest function that is no block is one. -/
def method? (s : GenState) : Option MethodInfo :=
  match s.returnFrame? with
  | some f => if f.kind == .method then f.method else none
  | none => none

/-- Whether the nearest function that is no block is the body of a class or module. -/
def inClassBody (s : GenState) : Bool :=
  match s.returnFrame? with
  | some f => f.kind.isClassLike
  | none => false

/-- Declares a variable of the program, unless it is known here. It belongs to the nearest function
that is no wrapper. -/
def declareLocal (name : String) (s : GenState) : GenState :=
  if knownIn name (s.frame :: s.outer) then s
  else s.changeNearest (·.kind != .wrapper) fun f => { f with locals := f.locals ++ [name] }

/-- Notes a declaration, unless it was met before. -/
def record (d : Declaration) (s : GenState) : GenState :=
  if s.declarations.contains d then s else { s with declarations := s.declarations ++ [d] }

end GenState

/-- Generation of an `α`. -/
abbrev Gen (α : Type) := StateT GenState (Except Refusal) α

namespace Gen

/-- Gives up. -/
def refuse {α : Type} (r : Refusal) : Gen α := fun _ => .error r

/-- The index of a new temporary of the current function. -/
def temp : Gen Nat := do
  let s ← get
  set { s with frame := { s.frame with temps := s.frame.temps + 1 } }
  pure (s.frame.temps + 1)

/-- Declares a variable of the program. -/
def declareLocal (name : String) : Gen Unit := modify (GenState.declareLocal name)

/-- Notes a declaration. -/
def record (d : Declaration) : Gen Unit := modify (GenState.record d)

/-- Notes that a block or wrapper returns from the function around it. -/
def markReturn : Gen Unit :=
  modify (GenState.changeNearest Frame.ownsReturn fun f => { f with catchesReturn := true })

/-- Notes that the block of the method around the current place is used, if there is a method. -/
def useIter : Gen Bool := do
  let s ← get
  match s.method? with
  | some _ =>
    set (s.changeNearest Frame.ownsReturn fun f => { f with usesIter := true })
    pure true
  | none => pure false

/-- Generates the body of a loop. -/
def inLoop {α : Type} (g : Gen α) : Gen α := do
  modify fun s => { s with frame := { s.frame with loops := s.frame.loops + 1 } }
  let a ← g
  modify fun s => { s with frame := { s.frame with loops := s.frame.loops - 1 } }
  pure a

/-- Generates something in a new frame inside the current one. The result comes with the finished
frame. -/
def inFrame {α : Type} (f : Frame) (g : Gen α) : Gen (α × Frame) := fun s =>
  match g { s with frame := f, outer := s.frame :: s.outer } with
  | .error r => .error r
  | .ok (a, t) =>
    match t.outer with
    | [] => .error .unbalanced
    | o :: os => .ok ((a, t.frame), { t with frame := o, outer := os })

end Gen

end RubyJs
