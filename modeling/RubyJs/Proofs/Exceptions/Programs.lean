import RubyJs.Dependency

set_option autoImplicit false

/-! # Programs that raise errors

A part of the language in which only the flow of errors counts: calls without a receiver and without
arguments, and `begin` with its clauses. A call returns a value or raises an error. `Handling` tells
the expressions of this part, and `evaluate` what they mean: how an expression ends, and which calls
were made until then.

    begin                a        if it raises, `b` is next
      a
    rescue
      b
    else
      c                  c        after `a` only; an error of it leaves the `begin`
    ensure
      d                  d        in any case, at last
    end

A `rescue` without classes handles every error of a call, so a second one is never reached.
-/

namespace RubyJs.Exceptions

variable {ν ε : Type}
variable {calls : List String}

/-- The objects that a program runs on, with values `ν` and errors `ε`. -/
structure World (ν ε : Type) where
  nil : ν
  /-- What a call of a method comes to, after the calls before it. -/
  answer : List String → String → Except ε ν

/-- What an expression means: from the calls made before it, how it ends and the calls made then. -/
abbrev Meaning (ν ε : Type) := List String → Except ε ν × List String

namespace Meaning

/-- A value that is there already. -/
def constant (v : ν) : Meaning ν ε := fun calls => (.ok v, calls)

/-- The call of a method. -/
def perform (w : World ν ε) (name : String) : Meaning ν ε :=
  fun calls => (w.answer calls name, calls ++ [name])

/-- The second one after the first, unless that raises an error. -/
def follow (f g : Meaning ν ε) : Meaning ν ε := fun calls =>
  match f calls with
  | (.ok _, calls) => g calls
  | (.error x, calls) => (.error x, calls)

/-- The first one; the handler after an error of it. -/
def rescued (f handler : Meaning ν ε) : Meaning ν ε := fun calls =>
  match f calls with
  | (.ok v, calls) => (.ok v, calls)
  | (.error _, calls) => handler calls

/-- The first one, and one of the two others: the handler after an error of it. -/
def decided (f otherwise handler : Meaning ν ε) : Meaning ν ε := fun calls =>
  match f calls with
  | (.ok _, calls) => otherwise calls
  | (.error _, calls) => handler calls

/-- The first one and then the second in any case. The second one counts only if it raises. -/
def ensured (f last : Meaning ν ε) : Meaning ν ε := fun calls =>
  match f calls with
  | (r, calls) =>
    match last calls with
    | (.ok _, calls) => (r, calls)
    | (.error x, calls) => (.error x, calls)

theorem ensured_congr {f f' last last' : Meaning ν ε} (hf : f calls = f' calls)
    (hlast : last (f' calls).2 = last' (f' calls).2) :
    ensured f last calls = ensured f' last' calls := by
  simp only [ensured, hf, hlast]

/-- A body with the clauses that it has. Without a handler, what comes `otherwise` just follows. -/
def guarded (f : Meaning ν ε) : Option (Meaning ν ε) → Option (Meaning ν ε) → Meaning ν ε
  | none, none => f
  | none, some otherwise => follow f otherwise
  | some handler, none => rescued f handler
  | some handler, some otherwise => decided f otherwise handler

/-- After a body that ends well comes what stands `otherwise`. -/
theorem guarded_of_ok {f : Meaning ν ε} {handler otherwise : Option (Meaning ν ε)}
    {calls' : List String} {v : ν} (h : f calls = (.ok v, calls')) :
    guarded f handler otherwise calls = otherwise.elim (.ok v, calls') (· calls') := by
  cases handler <;> cases otherwise <;> simp [guarded, follow, rescued, decided, h]

/-- After an error comes the handler. -/
theorem guarded_of_error {f : Meaning ν ε} {handler otherwise : Option (Meaning ν ε)}
    {calls' : List String} {x : ε} (h : f calls = (.error x, calls')) :
    guarded f handler otherwise calls = handler.elim (.error x, calls') (· calls') := by
  cases handler <;> cases otherwise <;> simp [guarded, follow, rescued, decided, h]

/-- A meaning with what is to come in any case, if there is something. -/
def finished (f : Meaning ν ε) : Option (Meaning ν ε) → Meaning ν ε
  | none => f
  | some last => ensured f last

end Meaning

open Meaning

mutual

/-- The meaning of an expression. For one that is not of this part it says nothing. -/
def evaluate (w : World ν ε) : Expr → Meaning ν ε
  | .call c => perform w c.name
  | .begin b rs e f =>
    finished (guarded (evaluateAll w b) (evaluateRescues w rs) (evaluateBody? w e))
      (evaluateBody? w f)
  | _ => constant w.nil

/-- The meaning of expressions one after the other: the value is that of the last one. -/
def evaluateAll (w : World ν ε) : List Expr → Meaning ν ε
  | [] => constant w.nil
  | [e] => evaluate w e
  | e :: e' :: es => follow (evaluate w e) (evaluateAll w (e' :: es))

/-- The meaning of the body of a clause, if there is one. -/
def evaluateBody? (w : World ν ε) : Option (List Expr) → Option (Meaning ν ε)
  | none => none
  | some es => some (evaluateAll w es)

/-- The meaning of a handler: that of its first clause. -/
def evaluateRescues (w : World ν ε) : List (Rescue Expr) → Option (Meaning ν ε)
  | [] => none
  | ⟨_, _, b⟩ :: _ => some (evaluateAll w b)

end

/-- The expressions made of calls and handlers. The calls have no meaning to the compiler, and the
clauses that handle errors name no classes. -/
inductive Handling : Expr → Prop
  | call {name : String} (h : (Call.mk none name [] none none : Call Expr).builtin? = none) :
      Handling (.call ⟨none, name, [], none, none⟩)
  | begin {b : List Expr} {rs : List (Rescue Expr)} {e f : Option (List Expr)}
      (hb : ∀ a ∈ b, Handling a) (hclasses : ∀ r ∈ rs, r.classes = [])
      (hrs : ∀ r ∈ rs, ∀ a ∈ r.body, Handling a) (he : ∀ es ∈ e, ∀ a ∈ es, Handling a)
      (hf : ∀ es ∈ f, ∀ a ∈ es, Handling a) : Handling (.begin b rs e f)

/-- Whether an expression is made of calls and handlers, down to a depth that has to be enough. -/
def isHandling : Nat → Expr → Bool
  | 0, _ => false
  | _ + 1, .call c =>
    c.recv.isNone && c.args.isEmpty && c.block.isNone && c.blockArg.isNone && c.builtin?.isNone
  | depth + 1, .begin b rs e f =>
    b.all (isHandling depth) && rs.all (fun r => r.classes.isEmpty && r.body.all (isHandling depth))
      && (e.getD []).all (isHandling depth) && (f.getD []).all (isHandling depth)
  | _, _ => false

theorem handling_of_isHandling (depth : Nat) {e : Expr} (h : isHandling depth e = true) :
    Handling e := by
  induction depth generalizing e with
  | zero => cases h
  | succ depth ih =>
      cases e with
      | call c =>
          obtain ⟨recv, name, args, block, blockArg⟩ := c
          simp only [isHandling, Bool.and_eq_true, Option.isNone_iff_eq_none, List.isEmpty_iff] at h
          obtain ⟨⟨⟨⟨rfl, rfl⟩, rfl⟩, rfl⟩, hbuiltin⟩ := h
          exact .call hbuiltin
      | begin b rs e f =>
          simp only [isHandling, Bool.and_eq_true, List.all_eq_true, List.isEmpty_iff] at h
          obtain ⟨⟨⟨hb, hrs⟩, he⟩, hf⟩ := h
          refine .begin (fun a ha => ih (hb a ha)) (fun r hr => (hrs r hr).1)
            (fun r hr a ha => ih ((hrs r hr).2 a ha)) ?_ ?_
          · rintro es rfl a ha
            exact ih (he a ha)
          · rintro es rfl a ha
            exact ih (hf a ha)
      | _ => cases h

/-! ## Handlers that cover the `else` body -/

mutual

/-- The expression in which every `else` body is the end of the body before it, so that the clauses
of its `begin` handle its errors, too. -/
def coverElse : Expr → Expr
  | .begin b rs none f => .begin (coverAll b) (coverRescues rs) none (coverBody? f)
  | .begin b rs (some e) f =>
    .begin [.begin (coverAll b) [] (some (coverAll e)) none] (coverRescues rs) none (coverBody? f)
  | e => e

/-- The same for each of many expressions. -/
def coverAll : List Expr → List Expr
  | [] => []
  | e :: es => coverElse e :: coverAll es

/-- The same in the body of a clause, if there is one. -/
def coverBody? : Option (List Expr) → Option (List Expr)
  | none => none
  | some es => some (coverAll es)

/-- The same in the clauses of a handler. -/
def coverRescues : List (Rescue Expr) → List (Rescue Expr)
  | [] => []
  | ⟨classes, var, b⟩ :: rs => ⟨classes, var, coverAll b⟩ :: coverRescues rs

end

mutual

/-- Whether no `else` body raises an error that clauses of its `begin` would handle if they covered
it. -/
def calm (w : World ν ε) : Expr → List String → Bool
  | .begin b rs e f, calls =>
    calmAll w b calls &&
      (match evaluateAll w b calls with
      | (.ok _, calls) => calmElse w rs.isEmpty e calls
      | (.error _, calls) => calmRescues w rs calls) &&
      calmBody? w f
        (guarded (evaluateAll w b) (evaluateRescues w rs) (evaluateBody? w e) calls).2
  | _, _ => true

/-- The same for expressions one after the other, up to the first error. -/
def calmAll (w : World ν ε) : List Expr → List String → Bool
  | [], _ => true
  | e :: es, calls =>
    calm w e calls &&
      match evaluate w e calls with
      | (.ok _, calls) => calmAll w es calls
      | (.error _, _) => true

/-- The same for the body of a clause, if there is one. -/
def calmBody? (w : World ν ε) : Option (List Expr) → List String → Bool
  | none, _ => true
  | some es, calls => calmAll w es calls

/-- The same for an `else` body, which must not raise if there are clauses that handle errors. -/
def calmElse (w : World ν ε) (free : Bool) : Option (List Expr) → List String → Bool
  | none, _ => true
  | some es, calls => calmAll w es calls && (free || (evaluateAll w es calls).1.isOk)

/-- The same for the clause that handles an error. -/
def calmRescues (w : World ν ε) : List (Rescue Expr) → List String → Bool
  | [], _ => true
  | ⟨_, _, b⟩ :: _, calls => calmAll w b calls

end

/-- That covering the `else` bodies of an expression makes no difference where it is calm. -/
def Unaffected (w : World ν ε) (e : Expr) : Prop :=
  ∀ calls, calm w e calls = true → evaluate w (coverElse e) calls = evaluate w e calls

section Unaffected

variable {w : World ν ε} {b : List Expr} {rs : List (Rescue Expr)} {e f : Option (List Expr)}

theorem unaffected_all (h : ∀ a ∈ b, Unaffected w a) (calls : List String)
    (hcalm : calmAll w b calls = true) :
    evaluateAll w (coverAll b) calls = evaluateAll w b calls := by
  induction b generalizing calls with
  | nil => rfl
  | cons a b ih =>
      obtain ⟨ha, hb⟩ := List.forall_mem_cons.mp h
      rw [calmAll, Bool.and_eq_true] at hcalm
      obtain ⟨hhere, hrest⟩ := hcalm
      have hfirst := ha calls hhere
      cases b with
      | nil => exact hfirst
      | cons a' b =>
          show follow _ (evaluateAll w (coverAll (a' :: b))) calls = follow _ _ calls
          simp only [follow, hfirst]
          cases hrun : evaluate w a calls with
          | mk r calls' =>
          rw [hrun] at hrest
          cases r with
          | ok v => exact ih hb calls' hrest
          | error x => rfl

/-- An `else` body is the end of the body before it. -/
theorem evaluate_coverElse_begin :
    evaluate w (coverElse (.begin b rs e f)) =
      finished (guarded (guarded (evaluateAll w (coverAll b)) none (evaluateBody? w (coverBody? e)))
        (evaluateRescues w (coverRescues rs)) none) (evaluateBody? w (coverBody? f)) := by
  cases e with
  | none => rfl
  | some es => rfl

/-- The body and what follows it end alike if the clauses do not handle errors of the `else`
body. -/
theorem unaffected_guarded (hb : ∀ a ∈ b, Unaffected w a)
    (hrs : ∀ r ∈ rs, ∀ a ∈ r.body, Unaffected w a) (he : ∀ es ∈ e, ∀ a ∈ es, Unaffected w a)
    (hbody : calmAll w b calls = true)
    (hrest : (match evaluateAll w b calls with
      | (.ok _, calls) => calmElse w rs.isEmpty e calls
      | (.error _, calls) => calmRescues w rs calls) = true) :
    guarded (guarded (evaluateAll w (coverAll b)) none (evaluateBody? w (coverBody? e)))
        (evaluateRescues w (coverRescues rs)) none calls
      = guarded (evaluateAll w b) (evaluateRescues w rs) (evaluateBody? w e) calls := by
  have hfirst := unaffected_all hb calls hbody
  cases hrun : evaluateAll w b calls with
  | mk r calls' =>
  rw [hrun] at hfirst hrest
  cases r with
  | error x =>
      have hinner : guarded (evaluateAll w (coverAll b)) none (evaluateBody? w (coverBody? e)) calls
          = (.error x, calls') := guarded_of_error hfirst
      rw [guarded_of_error hinner, guarded_of_error hrun]
      cases rs with
      | nil => rfl
      | cons r rs => exact unaffected_all (hrs r List.mem_cons_self) calls' hrest
  | ok v =>
      rw [guarded_of_ok hrun]
      cases e with
      | none => exact guarded_of_ok hfirst
      | some es =>
          simp only [calmElse, Bool.and_eq_true, Bool.or_eq_true] at hrest
          obtain ⟨hcalm, hfree⟩ := hrest
          have hlast : evaluateAll w (coverAll es) calls' = evaluateAll w es calls' :=
            unaffected_all (he es rfl) calls' hcalm
          have hinner : guarded (evaluateAll w (coverAll b)) none (some (evaluateAll w (coverAll es)))
              calls = evaluateAll w es calls' := (guarded_of_ok hfirst).trans hlast
          show guarded (guarded _ none (some _)) _ none calls = evaluateAll w es calls'
          cases hend : evaluateAll w es calls' with
          | mk r calls'' =>
          rw [hend] at hinner hfree
          cases r with
          | ok v => exact guarded_of_ok hinner
          | error x =>
              -- The error is one that no clause could handle.
              obtain rfl : rs = [] := List.isEmpty_iff.mp (hfree.resolve_right Bool.false_ne_true)
              exact guarded_of_error hinner

theorem unaffected_begin (hb : ∀ a ∈ b, Unaffected w a)
    (hrs : ∀ r ∈ rs, ∀ a ∈ r.body, Unaffected w a) (he : ∀ es ∈ e, ∀ a ∈ es, Unaffected w a)
    (hf : ∀ es ∈ f, ∀ a ∈ es, Unaffected w a) : Unaffected w (.begin b rs e f) := by
  intro calls hcalm
  rw [calm, Bool.and_eq_true, Bool.and_eq_true] at hcalm
  obtain ⟨⟨hbody, hrest⟩, hfinal⟩ := hcalm
  have hguarded := unaffected_guarded hb hrs he hbody hrest
  rw [evaluate_coverElse_begin, evaluate]
  cases f with
  | none => exact hguarded
  | some es =>
      have hlast := unaffected_all (hf es rfl) _ hfinal
      exact ensured_congr hguarded hlast

end Unaffected

/-- Where an expression is calm, it does not matter whether clauses cover `else` bodies. -/
theorem Handling.unaffected (w : World ν ε) {e : Expr} (h : Handling e) : Unaffected w e := by
  induction h with
  | call h => exact fun _ _ => rfl
  | begin hb hclasses hrs he hf ihb ihrs ihe ihf => exact unaffected_begin ihb ihrs ihe ihf

end RubyJs.Exceptions
