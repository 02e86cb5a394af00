import RubyJs.Proofs.Syntax.Parts

set_option autoImplicit false

/-! # The local variables of an expression

An expression uses the local variables that it reads or assigns to, itself or in a part that shares
its variables:

    x = f(y) { z }       uses x and y, not z
-/

namespace RubyJs

namespace Occurs

variable {via via' : Place → Site → Bool} {e e' : Expr} {p q : Place}

/-- What occurs by some ways occurs by more. -/
theorem mono (hvia : ∀ p s, via p s = true → via' p s = true) (h : Occurs via e p e' q) :
    Occurs via' e p e' q := by
  induction h with
  | here => exact .here
  | inside hpart hpasses _ ih => exact .inside hpart (hvia _ _ hpasses) ih

/-- What occurs at a place occurs at every other one that is like it on the way. -/
theorem elsewhere {R : Place → Place → Prop}
    (henter : ∀ p p' n, R p p' → R (p.enter n) (p'.enter n))
    (hvia : ∀ p p' s, R p p' → via p s = via p' s) (h : Occurs via e p e' q) {p' : Place}
    (hp : R p p') : ∃ q', Occurs via e p' e' q' := by
  induction h generalizing p' with
  | here => exact ⟨p', .here⟩
  | inside hpart hpasses _ ih =>
      obtain ⟨q', hrest⟩ := ih (henter _ _ _ hp)
      exact ⟨q', .inside hpart (hvia _ _ _ hp ▸ hpasses) hrest⟩

end Occurs

/-- Passes the parts that share the variables of the whole. -/
def ownParts (_ : Place) (s : Site) : Bool := s.nesting.isOwn

/-- Which variables are shared does not hang on the place. -/
theorem elsewhere_own {e e' : Expr} {p q : Place} (h : Occurs ownParts e p e' q) (p' : Place) :
    ∃ q', Occurs ownParts e p' e' q' :=
  h.elsewhere (R := fun _ _ => True) (fun _ _ _ _ => trivial) (fun _ _ _ _ => rfl) trivial

/-- The local variable that an expression is, or those that it assigns to itself. -/
def Expr.variables : Expr → List String
  | lvar x => [x]
  | e => e.binds

/-- That `names` gives `x` for an expression or for one inside of it that shares its variables. -/
def Expr.Has (names : Expr → List String) (e : Expr) (x : String) : Prop :=
  ∃ e' q, Occurs ownParts e {} e' q ∧ x ∈ names e'

/-- That an expression reads or assigns to `x`, a variable of the scope that it stands in. -/
abbrev Expr.Uses (e : Expr) (x : String) : Prop := e.Has Expr.variables x

/-- That an expression assigns to `x`, a variable of the scope that it stands in. -/
abbrev Expr.Assigned (e : Expr) (x : String) : Prop := e.Has binds x

theorem Expr.has_iff {names : Expr → List String} {e : Expr} {x : String} :
    e.Has names x ↔ x ∈ names e ∨ ∃ s ∈ e.parts, s.nesting.isOwn = true ∧ s.expr.Has names x := by
  constructor
  · rintro ⟨e', q, hocc, hx⟩
    rcases occurs_iff.mp hocc with ⟨rfl, rfl⟩ | ⟨s, hs, hown, hrest⟩
    · exact Or.inl hx
    · obtain ⟨q', hrest⟩ := elsewhere_own hrest {}
      exact Or.inr ⟨s, hs, hown, e', q', hrest, hx⟩
  · rintro (hx | ⟨s, hs, hown, e', q, hrest, hx⟩)
    · exact ⟨e, {}, .here, hx⟩
    · obtain ⟨q', hrest⟩ := elsewhere_own hrest (Place.enter {} s.nesting)
      exact ⟨e', q', .inside hs hown hrest, hx⟩

/-- What an expression assigns to it uses. -/
theorem Expr.Assigns.uses {via : Place → Site → Bool} {e : Expr} {p : Place} {x : String}
    (h : e.Assigns via p x) : e.Uses x := by
  obtain ⟨e', q, hocc, hx⟩ := h
  have hown : Occurs ownParts e p e' q := hocc.mono fun p s h => (Bool.and_eq_true_iff.mp h).2
  obtain ⟨q', hocc⟩ := elsewhere_own hown {}
  refine ⟨e', q', hocc, ?_⟩
  cases e' with
  | lvar y => exact absurd hx List.not_mem_nil
  | _ => exact hx

end RubyJs
