import RubyJs.Proofs.Exceptions.Programs
import RubyJs.Script

set_option autoImplicit false

/-! # Running scripts with handlers

The meaning of the scripts that calls and handlers become. A term is evaluated from left to right
and gives a value or throws an error; a statement ends normally, returns from its function or throws:

    try { … }             an error goes to the `catch`, if there is one
    catch ($err) { … }    `$err` is the error in here, and what it was before afterwards
    finally { … }         runs in any case; unless it ends normally, its end is the one that counts

There is no rule for what does not come up in such scripts: then there is no result. Of the runtime
these things count: its objects `top` and `nil`, `get`, which finds the class `StandardError`, and
`rescue`, which tells whether an error belongs to one of some classes. The errors of calls all are
standard errors.
-/

namespace RubyJs.Exceptions

open Script (Name Term Stmt Func)

variable {ν ε α β : Type}

/-! ## Values and effects -/

/-- The values of a script. -/
inductive Value (ν ε : Type) where
  | undefined
  /-- An object of the program. -/
  | object (value : ν)
  /-- An error that was caught. -/
  | error (error : ε)
  /-- The object that the calls go to. -/
  | top
  | runtime
  /-- The class that all errors of calls belong to. -/
  | standardError
  | bool (value : Bool)
  | str (text : String)
  | array (items : List (Value ν ε))
  /-- Any other object or function. -/
  | other

/-- Whether a value is the class of standard errors. -/
def Value.isStandardError : Value ν ε → Bool
  | .standardError => true
  | _ => false

/-- The variables of a script, and the calls that were made. -/
structure State (ν ε : Type) where
  vars : Name → Value ν ε
  calls : List String

namespace State

/-- The state after a variable got a value. -/
def set (s : State ν ε) (x : Name) (v : Value ν ε) : State ν ε :=
  { s with vars := fun y => if y = x then v else s.vars y }

/-- The state in which some variables are what they were before. -/
def restore (s before : State ν ε) (names : List Name) : State ν ε :=
  { s with vars := fun y => if y ∈ names then before.vars y else s.vars y }

end State

/-- An evaluation: it gives a result or throws an error, if there is a rule for it. -/
def Eval (ν ε α : Type) := State ν ε → Option (Except ε α × State ν ε)

namespace Eval

instance : Monad (Eval ν ε) where
  pure a := fun s => some (.ok a, s)
  bind x f := fun s =>
    match x s with
    | none => none
    | some (.error e, t) => some (.error e, t)
    | some (.ok a, t) => f a t

theorem bind_of_ok {x : Eval ν ε α} {f : α → Eval ν ε β} {s t : State ν ε} {a : α}
    (h : x s = some (.ok a, t)) : (x >>= f) s = f a t := by
  simp only [bind, h]

theorem bind_of_error {x : Eval ν ε α} {f : α → Eval ν ε β} {s t : State ν ε} {e : ε}
    (h : x s = some (.error e, t)) : (x >>= f) s = some (.error e, t) := by
  simp only [bind, h]

/-- There is no rule. -/
def stuck : Eval ν ε α := fun _ => none

/-- Throws an error. -/
def throws (e : ε) : Eval ν ε α := fun s => some (.error e, s)

/-- The value of a variable. -/
def load (x : Name) : Eval ν ε (Value ν ε) := fun s => some (.ok (s.vars x), s)

/-- Gives a variable a value. -/
def store (x : Name) (v : Value ν ε) : Eval ν ε Unit := fun s => some (.ok (), s.set x v)

/-- An evaluation with variables of its own. -/
def within (names : List Name) (x : Eval ν ε α) : Eval ν ε α := fun s =>
  match x s with
  | none => none
  | some (r, t) => some (r, t.restore s names)

end Eval

open Eval

/-! ## Objects -/

/-- The property of a value. -/
def property (w : World ν ε) : Value ν ε → String → Eval ν ε (Value ν ε)
  | .runtime, p =>
    pure (if p = "top" then .top else if p = "nil" then .object w.nil else .other)
  | .other, _ => pure .other
  | _, _ => stuck

/-- The call of a function that is the property of a value. -/
def callProperty : Value ν ε → String → List (Value ν ε) → Eval ν ε (Value ν ε)
  | .runtime, "get", [.str "StandardError"] => pure .standardError
  | .runtime, "rescue", [.error _, .array classes] =>
    pure (.bool (classes.any Value.isStandardError))
  | .other, _, _ => pure .other
  | _, _, _ => stuck

/-- The call of a method of the program. -/
def callMethod (w : World ν ε) : Value ν ε → String → List (Value ν ε) → Eval ν ε (Value ν ε)
  | .top, name, [] => fun s =>
    some ((w.answer s.calls name).map .object, { s with calls := s.calls ++ [name] })
  | _, _, _ => stuck

/-! ## Statements -/

/-- How a statement ends that does not throw. -/
inductive Completion (ν ε : Type) where
  | normal
  | returned (value : Value ν ε)

/-- The value of a call of a function whose body ends so. -/
def Completion.value : Completion ν ε → Value ν ε
  | .normal => .undefined
  | .returned v => v

/-- The variable that a caught error is bound to. -/
def errorName : Name := .own "$err"

/-- `try { … } catch ($err) { … }` -/
def catching (body : Eval ν ε α) : Option (Eval ν ε α) → Eval ν ε α
  | none => body
  | some handler => fun s =>
    match body s with
    | some (.error e, t) => within [errorName] (store errorName (.error e) >>= fun _ => handler) t
    | result => result

/-- `try { … } finally { … }` -/
def finalizing (body : Eval ν ε (Completion ν ε)) :
    Option (Eval ν ε (Completion ν ε)) → Eval ν ε (Completion ν ε)
  | none => body
  | some finalizer => fun s =>
    match body s with
    | none => none
    | some (r, t) =>
      match finalizer t with
      | some (.ok .normal, u) => some (r, u)
      | abrupt => abrupt

/-- The variables that a function declares. -/
def declared (inits : List (Name × Term)) (locals : List String) (temps : Nat) : List Name :=
  inits.map (·.1) ++ locals.map .user ++ (List.range temps).map fun i => .temp (i + 1)

/-- The variables of the program start as `nil`. -/
def startLocals : List String → Eval ν ε Unit
  | [] => pure ()
  | x :: xs => do
    store (.user x) (← load (.own "nil"))
    startLocals xs

mutual

/-- The value of a term. -/
def eval (w : World ν ε) : Term → Eval ν ε (Value ν ε)
  | .name x => load x
  | .str t => pure (.str t)
  | .paren e => eval w e
  | .assign (.name x) e => do
    let v ← eval w e
    store x v
    pure v
  | .assign (.member o _) e => do
    let _ ← eval w o
    eval w e
  | .call f args => do
    let callee ← evalCallee w f
    let vs ← evalAll w args
    callee vs
  | .member e p => do
    let v ← eval w e
    property w v p
  | .array es => do
    let vs ← evalAll w es
    pure (.array vs)
  | .inline _ => pure .other
  | _ => stuck

/-- The values of terms. -/
def evalAll (w : World ν ε) : List Term → Eval ν ε (List (Value ν ε))
  | [] => pure []
  | e :: es => do
    let v ← eval w e
    let vs ← evalAll w es
    pure (v :: vs)

/-- What is called, as a function of its arguments. -/
def evalCallee (w : World ν ε) : Term → Eval ν ε (List (Value ν ε) → Eval ν ε (Value ν ε))
  | .paren f => evalCallee w f
  | .func f => pure fun _ => callFunc w f
  | .member e p => do
    let v ← eval w e
    pure (callProperty v p)
  | .method e name => do
    let v ← eval w e
    pure (callMethod w v name)
  | _ => stuck

/-- The call of a function without parameters. -/
def callFunc (w : World ν ε) : Func Term Stmt → Eval ν ε (Value ν ε)
  | ⟨_, [], none, inits, locals, temps, setup, false, body⟩ =>
    within (declared inits locals temps) do
      evalInits w inits
      startLocals locals
      let _ ← execAll w setup
      let c ← execAll w body
      pure c.value
  | _ => stuck

/-- The first values of variables. -/
def evalInits (w : World ν ε) : List (Name × Term) → Eval ν ε Unit
  | [] => pure ()
  | (x, e) :: rest => do
    let v ← eval w e
    store x v
    evalInits w rest

/-- Runs a statement. -/
def exec (w : World ν ε) : Stmt → Eval ν ε (Completion ν ε)
  | .term e => do
    let _ ← eval w e
    pure .normal
  | .ret e _ => do
    let v ← eval w e
    pure (.returned v)
  | .var x e => do
    let v ← eval w e
    store x v
    pure .normal
  | .branches tests otherwise => execTests w tests ((execBlock? w otherwise).getD (pure .normal))
  | .guarded body handler finalizer =>
    finalizing (catching (execAll w body) (execBlock? w handler)) (execBlock? w finalizer)
  | .rethrow => do
    match ← load errorName with
    | .error e => throws e
    | _ => stuck
  | _ => stuck

/-- Runs statements, up to the first one that does not end normally. -/
def execAll (w : World ν ε) : List Stmt → Eval ν ε (Completion ν ε)
  | [] => pure .normal
  | s :: ss => do
    match ← exec w s with
    | .normal => execAll w ss
    | .returned v => pure (.returned v)

/-- Runs a group of statements, if there is one. -/
def execBlock? (w : World ν ε) : Option (List Stmt) → Option (Eval ν ε (Completion ν ε))
  | none => none
  | some ss => some (execAll w ss)

/-- Runs the statements after the first test that holds. -/
def execTests (w : World ν ε) :
    List (Term × List Stmt) → Eval ν ε (Completion ν ε) → Eval ν ε (Completion ν ε)
  | [], otherwise => otherwise
  | (c, body) :: rest, otherwise => do
    match ← eval w c with
    | .bool true => execAll w body
    | .bool false => execTests w rest otherwise
    | _ => stuck

end

/-- How an evaluation ends, and the calls made then. -/
def ending (x : Eval ν ε α) (s : State ν ε) : Option (Except ε α × List String) :=
  (x s).map fun (r, t) => (r, t.calls)

/-- The state before a script runs: there is nothing but the runtime. -/
def State.start : State ν ε where
  vars x := if x = .own "Opal" then .runtime else .undefined
  calls := []

/-- How the script of a unit ends, and the calls that it makes. -/
def run (w : World ν ε) (script : Func Term Stmt) : Option (Except ε (Value ν ε) × List String) :=
  ending (callFunc w script) State.start

end RubyJs.Exceptions
