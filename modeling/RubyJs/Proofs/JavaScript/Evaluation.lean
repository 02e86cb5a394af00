import RubyJs.Proofs.JavaScript.Reader

set_option autoImplicit false

/-! # Running JavaScript

The meaning of the terms and statements that are read. A term is evaluated from left to right and
gives a value, or nothing where a run would fail: a variable that is not declared, a property of a
value that has none. The variables of a script are declared before it runs, and are `undefined`
until they get a value.

Of the runtime `Opal` two things count: its `nil`, an object like any other to JavaScript, and
`truthy`, which is false of `nil` and of `false` only. All other objects are one to the rules here.
-/

namespace RubyJs.JavaScript

/-- Values. -/
inductive Value where
  | undefined
  | nil
  | bool (value : Bool)
  /-- The runtime. -/
  | runtime
  /-- The function of the runtime that tells what counts as true in a program. -/
  | truthy
  /-- Any other object or function. -/
  | object
deriving DecidableEq, Repr

namespace Value

/-- Whether a value counts as true in JavaScript. -/
def toBool : Value → Bool
  | undefined => false
  | bool b => b
  | _ => true

/-- Whether a value counts as true in a program. -/
def isTruthy (v : Value) : Bool := v != nil && v != bool false

/-- The property of a value. -/
def property? : Value → String → Option Value
  | runtime, p => some (if p = "nil" then nil else if p = "truthy" then truthy else object)
  | object, _ => some object
  | _, _ => none

/-- The result of a call; the argument is there if the function asks for one. -/
def call? : Value → Option Value → Option Value
  | truthy, some v => some (bool v.isTruthy)
  | object, _ => some object
  | _, _ => none

end Value

/-- The variables that are declared, with their values. -/
abbrev Env := String → Option Value

namespace Env

/-- The environment after a variable got a value. -/
def set (σ : Env) (x : String) (v : Value) : Env := fun y => if y = x then some v else σ y

/-- Writes to a variable, which has to be declared. -/
def assign? (σ : Env) (x : String) (v : Value) : Option Env :=
  match σ x with
  | some _ => some (σ.set x v)
  | none => none

/-- What is declared stays declared. -/
theorem isSome_set {σ : Env} {w : String} (h : (σ w).isSome) (x : String) (v : Value) :
    (σ.set x v w).isSome := by
  unfold set
  split
  · rfl
  · exact h

end Env

/-! ## Terms -/

namespace Term

/-- The value of a term, and the environment after it. -/
def eval : Term → Env → Option (Value × Env)
  | .name x, σ => do
    let v ← σ x
    some (v, σ)
  | .bool b, σ => some (.bool b, σ)
  | .str, _ => none
  | .member e p, σ => do
    let (v, σ) ← e.eval σ
    let w ← v.property? p
    some (w, σ)
  | .invoke f, σ => do
    let (v, σ) ← f.eval σ
    let w ← v.call? none
    some (w, σ)
  | .apply f a, σ => do
    let (v, σ) ← f.eval σ
    let (u, σ) ← a.eval σ
    let w ← v.call? (some u)
    some (w, σ)
  | .not e, σ => do
    let (v, σ) ← e.eval σ
    some (.bool (!v.toBool), σ)
  | .and l r, σ => do
    let (v, σ) ← l.eval σ
    if v.toBool then r.eval σ else some (v, σ)
  | .or l r, σ => do
    let (v, σ) ← l.eval σ
    if v.toBool then some (v, σ) else r.eval σ
  | .choice c y n, σ => do
    let (v, σ) ← c.eval σ
    if v.toBool then y.eval σ else n.eval σ
  | .assign (.name x) e, σ => do
    let (v, σ) ← e.eval σ
    let σ ← σ.assign? x v
    some (v, σ)
  | .assign (.member o _) e, σ => do
    -- An object of its own gets the property; the variables stay as they are.
    let (u, σ) ← o.eval σ
    let (v, σ) ← e.eval σ
    if u = .object then some (v, σ) else none
  | .assign _ _, _ => none
  | .comma a b, σ => do
    let (_, σ) ← a.eval σ
    b.eval σ
  | .func _, σ => some (.object, σ)

variable {c l r y n : Term} {σ σ' : Env} {b : Bool}

theorem eval_choice (h : c.eval σ = some (.bool b, σ')) :
    (choice c y n).eval σ = if b then y.eval σ' else n.eval σ' := by
  rw [eval, h]
  rfl

theorem eval_and (h : l.eval σ = some (.bool b, σ')) :
    (and l r).eval σ = if b then r.eval σ' else some (.bool false, σ') := by
  rw [eval, h]
  cases b <;> rfl

theorem eval_or (h : l.eval σ = some (.bool b, σ')) :
    (or l r).eval σ = if b then some (.bool true, σ') else r.eval σ' := by
  rw [eval, h]
  cases b <;> rfl

end Term

/-! ## Statements -/

/-- Gives variables their first values, in order. -/
def declare : List (String × Option Term) → Env → Option Env
  | [], σ => some σ
  | (_, none) :: items, σ => declare items σ
  | (x, some e) :: items, σ => do
    let (v, σ) ← e.eval σ
    let σ ← σ.assign? x v
    declare items σ

/-- A first value that is computed from variables only. -/
theorem declare_value {x : String} {e : Term} {items : List (String × Option Term)} {σ : Env}
    {v old : Value} (he : e.eval σ = some (v, σ)) (hx : σ x = some old) :
    declare ((x, some e) :: items) σ = declare items (σ.set x v) := by
  rw [declare, he]
  simp only [Env.assign?, hx, Option.bind_eq_bind, Option.bind_some]

theorem declare_names (xs : List String) (σ : Env) :
    declare (xs.map fun x => (x, none)) σ = some σ := by
  induction xs with
  | nil => rfl
  | cons x xs ih => exact ih

mutual

/-- Runs a statement: the value that it returns, if it does, and the environment after it. -/
def Stmt.exec : Stmt → Env → Option (Option Value × Env)
  | .var items, σ => do
    let σ ← declare items σ
    some (none, σ)
  | .term e, σ => do
    let (_, σ) ← e.eval σ
    some (none, σ)
  | .ret e, σ => do
    let (v, σ) ← e.eval σ
    some (some v, σ)
  | .ifElse c yes no, σ => do
    let (v, σ) ← c.eval σ
    if v.toBool then execAll yes σ else execAll no σ

/-- Runs statements until one returns. -/
def execAll : List Stmt → Env → Option (Option Value × Env)
  | [], σ => some (none, σ)
  | s :: ss, σ => do
    let (r, σ) ← s.exec σ
    match r with
    | some v => some (some v, σ)
    | none => execAll ss σ

end

theorem execAll_singleton (s : Stmt) (σ : Env) : execAll [s] σ = s.exec σ := by
  rw [execAll]
  cases s.exec σ with
  | none => rfl
  | some result =>
      obtain ⟨r, σ'⟩ := result
      cases r <;> rfl

/-- Statements after others that do not return. -/
theorem execAll_append {ss ss' : List Stmt} {σ σ' : Env} (h : execAll ss σ = some (none, σ')) :
    execAll (ss ++ ss') σ = execAll ss' σ' := by
  induction ss generalizing σ with
  | nil =>
      rw [← (Prod.mk.inj (Option.some.inj h)).2]
      rfl
  | cons s ss ih =>
      rw [List.cons_append, execAll]
      rw [execAll] at h
      cases hs : s.exec σ with
      | none =>
          rw [hs] at h
          cases h
      | some result =>
          obtain ⟨r, σ₁⟩ := result
          rw [hs] at h
          cases r with
          | none => exact ih h
          | some v => cases h

theorem exec_ifElse {c : Term} {yes no : List Stmt} {σ σ' : Env} {b : Bool}
    (h : c.eval σ = some (.bool b, σ')) :
    (Stmt.ifElse c yes no).exec σ = if b then execAll yes σ' else execAll no σ' := by
  rw [Stmt.exec, h]
  rfl

mutual

/-- The variables that a statement declares. -/
def Stmt.declared : Stmt → List String
  | .var items => items.map (·.1)
  | .ifElse _ yes no => declaredAll yes ++ declaredAll no
  | _ => []

/-- The variables that statements declare. -/
def declaredAll : List Stmt → List String
  | [] => []
  | s :: ss => s.declared ++ declaredAll ss

end

theorem declaredAll_append (ss ss' : List Stmt) :
    declaredAll (ss ++ ss') = declaredAll ss ++ declaredAll ss' := by
  induction ss with
  | nil => rfl
  | cons s ss ih => rw [List.cons_append, declaredAll, declaredAll, ih, List.append_assoc]

/-- The environment that statements start in, given the runtime. -/
def initial (ss : List Stmt) : Env := fun x =>
  if x = "Opal" then some .runtime else if x ∈ declaredAll ss then some .undefined else none

theorem isSome_initial {ss : List Stmt} {w : String} (h : w ∈ declaredAll ss) :
    (initial ss w).isSome := by
  rw [initial, if_pos h]
  split <;> rfl

/-- Runs the body of a function with the runtime: what it returns, and its variables in the end. -/
def run (L : Letters) (text : String) : Option (Value × Env) := do
  let ss ← read L text
  let (r, σ) ← execAll ss (initial ss)
  some (r.getD .undefined, σ)

end RubyJs.JavaScript
