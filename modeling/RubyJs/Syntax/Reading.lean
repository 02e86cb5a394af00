import RubyJs.Fault
import RubyJs.Syntax
import RubyJs.Syntax.Stream

set_option autoImplicit false

/-! # Reading tokens

`Reading α` reads tokens and gives an `α` or a fault. Beside the tokens it knows the local variables
assigned so far, by scope, because they decide whether a name is a variable or a call, and whether
a `do` belongs to a construct further out.
-/

namespace RubyJs

/-- The local variables of one scope. A block sees those of the scope it stands in. -/
structure LocalScope where
  names : List String
  inherits : Bool

/-- What reading depends on and changes. -/
structure ReadState where
  tokens : Stream
  /-- The scopes, innermost first. -/
  scopes : List LocalScope
  /-- How many constructs around take a `do` for themselves. With none, a `do` here begins a block. -/
  noDo : Nat

/-- Reads tokens for an `α`. -/
abbrev Reading := StateT ReadState (Except Fault)

namespace Reading

/-! ## Faults -/

/-- A fault at the offset `offset`. -/
def faultAt {α : Type} (offset : Nat) (cause : Cause) : Reading α :=
  throw ⟨offset, cause⟩

/-- A fault at the current token. -/
def faultHere {α : Type} (cause : Cause) : Reading α := do
  faultAt (← get).tokens.current.span.start cause

/-- A fault at the token before the current one. -/
def faultBefore {α : Type} (cause : Cause) : Reading α := do
  faultAt (← get).tokens.before.span.start cause

/-! ## Tokens -/

/-- The current token. -/
def currentToken : Reading Token := return (← get).tokens.current

/-- What the current token is. -/
def peek : Reading TokenKind := return (← get).tokens.current.kind

/-- Takes the current token. -/
def advance : Reading TokenKind := do
  let s ← get
  set { s with tokens := s.tokens.next }
  return s.tokens.current.kind

/-- Whether the current token is `kind`. -/
def atKind (kind : TokenKind) : Reading Bool := return (← peek) == kind

/-- Whether the current token is the reserved word `w`. -/
def atKeyword (w : Keyword) : Reading Bool := atKind (.keyword w)

/-- Takes the current token if it is `kind`, and says whether it was. -/
def eat (kind : TokenKind) : Reading Bool := do
  if ← atKind kind then
    let _ ← advance
    return true
  else return false

/-- Takes the current token if it is the reserved word `w`, and says whether it was. -/
def eatKeyword (w : Keyword) : Reading Bool := eat (.keyword w)

/-- The current token is not what it has to be. -/
def unexpected {α : Type} : Reading α := do
  faultHere (.unexpected (← peek))

/-- Takes the token `kind`, which has to be there; a fault calls it `what`. -/
def expect (kind : TokenKind) (what : String) : Reading Unit := do
  if !(← eat kind) then faultHere (.expected what (← peek))

/-- Takes the reserved word `w`, which has to be there. -/
def expectKeyword (w : Keyword) : Reading Unit :=
  expect (.keyword w) ("'" ++ w.text ++ "'")

/-- Whether a token ends a statement. -/
def isTerminator (k : TokenKind) : Bool := k == .newline || k == .semi

/-- Whether the current token ends a statement. -/
def atTerminator : Reading Bool := return isTerminator (← peek)

/-- Skips tokens that end a statement. -/
def skipTerminators : Reading Unit :=
  modify fun s => { s with tokens := s.tokens.skipWhile isTerminator }

/-- Skips line ends. -/
def skipNewlines : Reading Unit :=
  modify fun s => { s with tokens := s.tokens.skipWhile (· == .newline) }

/-- Skips tokens that end a statement; there has to be one. -/
def requireTerminator : Reading Unit := do
  if ← atTerminator then skipTerminators else unexpected

/-! ## Local variables -/

/-- Whether `name` is a local variable in the innermost of `scopes`. -/
def isLocalIn (name : String) : List LocalScope → Bool
  | [] => false
  | s :: outer => s.names.contains name || (s.inherits && isLocalIn name outer)

/-- Whether `name` is a local variable here. -/
def isLocal (name : String) : Reading Bool := return isLocalIn name (← get).scopes

/-- The scopes after `name` is assigned to. -/
def declareIn (name : String) (scopes : List LocalScope) : List LocalScope :=
  if isLocalIn name scopes then scopes
  else
    match scopes with
    | [] => []
    | s :: outer => { s with names := name :: s.names } :: outer

/-- Makes `name` a local variable here. -/
def declare (name : String) : Reading Unit :=
  modify fun s => { s with scopes := declareIn name s.scopes }

/-- Enters a scope. -/
def enterScope (inherits : Bool) : Reading Unit :=
  modify fun s => { s with scopes := ⟨[], inherits⟩ :: s.scopes }

/-- Leaves the innermost scope. The outermost one is never left. -/
def leaveScope : Reading Unit := do
  match (← get).scopes with
  | _ :: around :: outer => modify fun s => { s with scopes := around :: outer }
  | _ => faultHere .unbalanced

/-- Reads in a scope of its own. -/
def inScope {α : Type} (inherits : Bool) (p : Reading α) : Reading α := do
  enterScope inherits
  let a ← p
  leaveScope
  return a

/-- Takes a `do` that follows for a construct further out. -/
def takeDo : Reading Unit := modify fun s => { s with noDo := s.noDo + 1 }

/-- Takes back what the last `takeDo` did. -/
def releaseDo : Reading Unit := do
  match (← get).noDo with
  | n + 1 => modify fun s => { s with noDo := n }
  | 0 => faultHere .unbalanced

/-- Reads where a `do` belongs to a construct further out, or, with `false`, to the nearest. -/
def withDoTaken {α : Type} (taken : Bool) (p : Reading α) : Reading α :=
  if taken then do
    takeDo
    let a ← p
    releaseDo
    return a
  else do
    let saved := (← get).noDo
    modify fun s => { s with noDo := 0 }
    let a ← p
    modify fun s => { s with noDo := saved }
    return a

/-! ## Repetition -/

/-- Whether a repetition goes on, and with what. -/
inductive Step (σ α : Type) where
  | again (state : σ)
  | done (result : α)

/-- Runs `body` until it is done, a bounded number of times. -/
def iterate {σ α : Type} (body : σ → Reading (Step σ α)) : Nat → σ → Reading α
  | 0, _ => faultHere .exhausted
  | n + 1, s => do
    match ← body s with
    | .again s' => iterate body n s'
    | .done a => return a

/-- Runs `body` until it is done. A `body` that goes on takes a token, so the number of tokens left
bounds the repetition. -/
def repeatFrom {σ α : Type} (s : σ) (body : σ → Reading (Step σ α)) : Reading α := do
  iterate body ((← get).tokens.length + 1) s

end Reading

end RubyJs
