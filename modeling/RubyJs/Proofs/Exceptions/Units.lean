import Mathlib.Control.Monad.Basic
import RubyJs.Proofs.Exceptions.Emissions
import RubyJs.Syntax.Parser

set_option autoImplicit false

/-! # Errors in units

The script of a program made of calls and handlers makes the calls of the program and ends as it
does, if no `else` body raises an error (`generate_keeps_errors`). An error of an `else` body goes to
the clauses of its own `begin` (`else_error_rescued`), since the `else` body is the end of the `try`.
-/

namespace RubyJs.Exceptions

open Meaning Eval
open Script (Name Term Stmt Func)

variable {ν ε : Type} {w : World ν ε}

/-- The end of an expression as that of a script. -/
def ended (r : Except ε ν × List String) : Except ε (Value ν ε) × List String :=
  (r.1.map .object, r.2)

theorem Follows.ending_eq {x : Eval ν ε (Value ν ε)} {m : Meaning ν ε} (h : Follows w x m .object)
    {s : State ν ε} (hs : Ready w s) : ending x s = some (ended (m s.calls)) := by
  obtain ⟨t, hrun, hcalls, -⟩ := h s hs
  rw [ending, hrun, ended, ← hcalls]
  rfl

/-- The variables around a unit's body are set first. -/
theorem evalInits_unit : ∃ s, evalInits w unitInits State.start = some (.ok (), s) ∧ s.calls = [] ∧
    Ready w s := by
  refine ⟨_, rfl, rfl, ?_⟩
  simp [Ready, known, State.set, State.start]

theorem follows_endDataSetup (data : Option String) :
    Follows w (execAll w (endDataSetup data)) (constant w.nil) fun _ => .normal := by
  intro s hs
  cases data with
  | none => exact ⟨s, rfl, rfl, hs⟩
  | some data =>
      have hopal := hs.opal
      have hend : Ready w (s.set (.own "$__END__") .other) := hs.set (by simp [known]) _
      refine ⟨s.set (.own "$__END__") .other, ?_, rfl, hend⟩
      simp [endDataSetup, Emission.globalObject, Emission.endObject, execAll, exec, eval, evalAll,
        evalCallee, bind, Pure.pure, load, store, Term.opal, Term.own, hopal, property,
        callProperty, Except.map, constant]

/-- The script of a unit does what the statements of its body do. -/
theorem ending_unit {m : Meaning ν ε} {ss : List Stmt}
    (h : Follows w (execAll w ss) m (completion true)) {f : Frame}
    (hcatches : f.catchesReturn = false) (data : Option String) :
    run w (f.function unitInits (endDataSetup data) ss) = some (ended (m [])) := by
  obtain ⟨s, hinits, hcalls, hs⟩ := evalInits_unit (w := w)
  have hbody : Follows w (do
      startLocals f.locals
      let _ ← execAll w (endDataSetup data)
      let c ← execAll w ss
      pure c.value) m .object := by
    refine (follows_startLocals f.locals).after ?_
    refine (follows_endDataSetup data).after ?_
    exact h.map fun _ => rfl
  obtain ⟨t, hrun, hcalled, -⟩ := hbody s hs
  rw [hcalls] at hrun hcalled
  unfold run ending Frame.function
  rw [hcatches, callFunc, within, bind_of_ok hinits, hrun, ended, ← hcalled]
  rfl

/-- The script of a program can be generated, and it does what the program means when `else` bodies
are covered. -/
theorem run_generate (w : World ν ε) {program : Program} (h : ∀ e ∈ program.body, Handling e)
    (file : String) : ∃ g, generate program file = .ok g ∧
      run w g.script = some (ended (evaluateAll w (coverAll program.body) [])) := by
  obtain ⟨ss, s, hgen, hhandlers, hss⟩ :=
    generates_body (fun e he => (h e he).emitted w ⟨file, program.endData.isSome⟩) true
      { frame := { kind := .top } }
  have hcatches : s.frame.catchesReturn = false := (List.cons.inj hhandlers).1
  refine ⟨⟨s.frame.function unitInits (endDataSetup program.endData) ss, s.declarations⟩, ?_, ?_⟩
  · simp only [generate, hgen]
  · exact ending_unit hss hcatches program.endData

/-- The script of a program made of calls and handlers can be generated. It makes the calls of the
program and ends with its value or its error, if the clauses of each `begin` are taken to cover its
`else` body. This makes no difference as long as no `else` body raises an error where there are
clauses. The same holds of the term for an expression in the place of a value. -/
theorem generate_keeps_errors (w : World ν ε) (program : Program) (file : String)
    (h : ∀ e ∈ program.body, Handling e) :
    (∃ g, generate program file = .ok g ∧
      run w g.script = some (ended (evaluateAll w (coverAll program.body) [])) ∧
      (calmAll w program.body [] = true →
        run w g.script = some (ended (evaluateAll w program.body [])))) ∧
    ∀ e ∈ program.body, ∀ u s, ∃ t s', (emit u e).value s = .ok (t, s') ∧
      ∀ σ, Ready w σ →
        ending (eval w t) σ = some (ended (evaluate w (coverElse e) σ.calls)) ∧
        (calm w e σ.calls = true →
          ending (eval w t) σ = some (ended (evaluate w e σ.calls))) := by
  constructor
  · obtain ⟨g, hgen, hrun⟩ := run_generate w h file
    refine ⟨g, hgen, hrun, fun hcalm => ?_⟩
    rw [← unaffected_all (fun e he => (h e he).unaffected w) [] hcalm]
    exact hrun
  · intro e he u s
    obtain ⟨t, s', hgen, -, ht⟩ := ((h e he).emitted w u).value s
    refine ⟨t, s', hgen, fun σ hσ => ⟨ht.ending_eq hσ, fun hcalm => ?_⟩⟩
    rw [← (h e he).unaffected w σ.calls hcalm]
    exact ht.ending_eq hσ

/-- Objects whose methods return their names, but for one that raises an error. -/
def failing (method : String) : World String String where
  nil := "nil"
  answer _ name := if name = method then .error name else .ok name

/-- A handler with all clauses around a body with a finalizer of its own. -/
def nestedText : String :=
  "begin\n a\n begin\n b\n ensure\n c\n end\nrescue => e\n d\nelse\n f\nensure\n g\nend"

/-- The error of `b` passes the inner `ensure` and goes to the clause around it, and the outer
`ensure` comes last. -/
theorem generate_keeps_errors_nested : ∃ program g, parse "main" nestedText = .ok program ∧
    (∀ e ∈ program.body, Handling e) ∧ generate program "main" = .ok g ∧
    calmAll (failing "b") program.body [] = true ∧
    run (failing "b") g.script = some (.ok (.object "d"), ["a", "b", "c", "d", "g"]) := by
  have hparses : ∃ program, parse "main" nestedText = .ok program ∧
      program.body.all (isHandling 3) = true ∧ calmAll (failing "b") program.body [] = true ∧
      evaluateAll (failing "b") program.body [] = (.ok "d", ["a", "b", "c", "d", "g"]) :=
    exists_ok_of_any (by decide +kernel)
  obtain ⟨program, hparse, hbody, hcalm, hmeaning⟩ := hparses
  have h : ∀ e ∈ program.body, Handling e := fun e he =>
    handling_of_isHandling 3 (List.all_eq_true.mp hbody e he)
  obtain ⟨⟨g, hgen, -, hrun⟩, -⟩ := generate_keeps_errors (failing "b") program "main" h
  refine ⟨program, g, hparse, h, hgen, hcalm, ?_⟩
  rw [hrun hcalm, hmeaning]
  rfl

/-- The error of the `else` body leaves the `begin`, but in the script it is handled. -/
theorem else_error_rescued : ∃ program g,
    parse "main" "begin\n a\nrescue\n b\nelse\n c\nend" = .ok program ∧
    (∀ e ∈ program.body, Handling e) ∧ generate program "main" = .ok g ∧
    evaluateAll (failing "c") program.body [] = (.error "c", ["a", "c"]) ∧
    run (failing "c") g.script = some (.ok (.object "b"), ["a", "c", "b"]) := by
  have hparses : ∃ program, parse "main" "begin\n a\nrescue\n b\nelse\n c\nend" = .ok program ∧
      program.body.all (isHandling 2) = true ∧
      evaluateAll (failing "c") program.body [] = (.error "c", ["a", "c"]) ∧
      evaluateAll (failing "c") (coverAll program.body) [] = (.ok "b", ["a", "c", "b"]) :=
    exists_ok_of_any (by decide +kernel)
  obtain ⟨program, hparse, hbody, hmeaning, hcovered⟩ := hparses
  have h : ∀ e ∈ program.body, Handling e := fun e he =>
    handling_of_isHandling 2 (List.all_eq_true.mp hbody e he)
  obtain ⟨g, hgen, hrun⟩ := run_generate (failing "c") h "main"
  refine ⟨program, g, hparse, h, hgen, hmeaning, ?_⟩
  rw [hrun, hcovered]
  rfl

end RubyJs.Exceptions
