import RubyJs.Syntax

set_option autoImplicit false

/-! # Logical programs

A part of the language that knows truth values and `nil` only: literals, local variables and
assignments to them, the logical operators, branches and sequences. `Logical` tells the expressions
of this part, and `evaluate` what they mean: the value that an expression has, and the variables
after it.

    x = nil || false; x ? y = true : (y = x)       has the value `false`

Only one side of a logical operator may be evaluated, and only one branch. Variables are `nil` until
they are assigned to.
-/

namespace RubyJs.Logic

/-! ## Meaning -/

/-- Values. -/
inductive Value where
  | nil
  | bool (value : Bool)
deriving DecidableEq, Repr

/-- Whether a value counts as true. -/
def Value.isTruthy : Value → Bool
  | .nil => false
  | .bool b => b

/-- The values of the variables. -/
abbrev Store := String → Value

/-- The variables before a program. -/
def Store.fresh : Store := fun _ => .nil

/-- The variables after one of them was assigned to. -/
def Store.set (ρ : Store) (x : String) (v : Value) : Store := fun y => if y = x then v else ρ y

/-- What an expression means: the value that it has, and the variables after it. -/
abbrev Meaning := Store → Value × Store

namespace Meaning

/-- A value that is there already. -/
def constant (v : Value) : Meaning := fun ρ => (v, ρ)

/-- The value of a variable. -/
def load (x : String) : Meaning := fun ρ => (ρ x, ρ)

/-- Assigns the value to a variable. -/
def store (x : String) (f : Meaning) : Meaning := fun ρ => ((f ρ).1, (f ρ).2.set x (f ρ).1)

/-- Whether the value counts as true. -/
def truth (f : Meaning) : Meaning := fun ρ => (.bool (f ρ).1.isTruthy, (f ρ).2)

/-- Whether the value does not count as true. -/
def negation (f : Meaning) : Meaning := fun ρ => (.bool (!(f ρ).1.isTruthy), (f ρ).2)

/-- The first value unless it counts as true, and then the second one. -/
def both (f g : Meaning) : Meaning := fun ρ => if (f ρ).1.isTruthy then g (f ρ).2 else f ρ

/-- The first value if it counts as true, and else the second one. -/
def either (f g : Meaning) : Meaning := fun ρ => if (f ρ).1.isTruthy then f ρ else g (f ρ).2

/-- One of two values, after a test. -/
def branch (c f g : Meaning) : Meaning := fun ρ =>
  if (c ρ).1.isTruthy then f (c ρ).2 else g (c ρ).2

/-- The second value, after the first one was computed. -/
def follow (f g : Meaning) : Meaning := fun ρ => g (f ρ).2

section Cases

variable {c f g : Meaning} {ρ : Store}

theorem isTruthy_negation : (negation f ρ).1.isTruthy = !(f ρ).1.isTruthy := rfl

theorem both_true (h : (f ρ).1.isTruthy = true) : both f g ρ = g (f ρ).2 := if_pos h

theorem both_false (h : (f ρ).1.isTruthy = false) : both f g ρ = f ρ := if_neg (by simp [h])

theorem either_true (h : (f ρ).1.isTruthy = true) : either f g ρ = f ρ := if_pos h

theorem either_false (h : (f ρ).1.isTruthy = false) : either f g ρ = g (f ρ).2 :=
  if_neg (by simp [h])

theorem branch_true (h : (c ρ).1.isTruthy = true) : branch c f g ρ = f (c ρ).2 := if_pos h

theorem branch_false (h : (c ρ).1.isTruthy = false) : branch c f g ρ = g (c ρ).2 :=
  if_neg (by simp [h])

end Cases

end Meaning

open Meaning

mutual

/-- The meaning of an expression. For one that is not logical it says nothing. -/
def evaluate : Expr → Meaning
  | .bool b => constant (.bool b)
  | .lvar x => load x
  | .assign (.lvar x) e => store x (evaluate e)
  | .not e => negation (evaluate e)
  | .and l r => both (evaluate l) (evaluate r)
  | .or l r => either (evaluate l) (evaluate r)
  | .ternary c t e => branch (evaluate c) (evaluate t) (evaluate e)
  | .ifElse c t e => branch (evaluate c) (evaluateAll t) (evaluateAll e)
  | .seq es => evaluateAll es
  | _ => constant .nil

/-- The meaning of expressions one after the other: the value is that of the last one. -/
def evaluateAll : List Expr → Meaning
  | [] => constant .nil
  | [e] => evaluate e
  | e :: e' :: es => follow (evaluate e) (evaluateAll (e' :: es))

end

/-! ## The fragment -/

/-- The logical expressions with variables among `vars`. -/
inductive Logical (vars : List String) : Expr → Prop
  | nil : Logical vars .nil
  | bool (b : Bool) : Logical vars (.bool b)
  | lvar {x : String} (hx : x ∈ vars) : Logical vars (.lvar x)
  | assign {x : String} {e : Expr} (hx : x ∈ vars) (he : Logical vars e) :
      Logical vars (.assign (.lvar x) e)
  | not {e : Expr} (he : Logical vars e) : Logical vars (.not e)
  | and {l r : Expr} (hl : Logical vars l) (hr : Logical vars r) : Logical vars (.and l r)
  | or {l r : Expr} (hl : Logical vars l) (hr : Logical vars r) : Logical vars (.or l r)
  | ternary {c t e : Expr} (hc : Logical vars c) (ht : Logical vars t) (he : Logical vars e) :
      Logical vars (.ternary c t e)
  | ifElse {c : Expr} {t e : List Expr} (hc : Logical vars c) (ht : ∀ a ∈ t, Logical vars a)
      (he : ∀ a ∈ e, Logical vars a) : Logical vars (.ifElse c t e)
  | seq {es : List Expr} (h : ∀ e ∈ es, Logical vars e) : Logical vars (.seq es)

end RubyJs.Logic
