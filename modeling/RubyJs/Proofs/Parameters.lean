import RubyJs.Proofs.Refusals

set_option autoImplicit false

/-! # The parameters of blocks

A block is a function of its own. The parameters that it takes by position are parameters of that
function, so they hide variables of the same name around the block. The parameter for the remaining
arguments and that for a block are variables, which are declared like any other: not where the name is
known already.

    x = 1
    f { |x| x }        function(x) { … }
    f { |*x| x }       function() { x = …; }        writes the variable around the block

`block_parameters` says which function has the variable of a parameter, for every block that gets code.
-/

namespace RubyJs

/-! ## Blocks in a tree -/

/-- That the functions of all blocks in `e`, at the spot `c`, were generated. -/
def Expr.Runs (u : UnitInfo) (c : Spot) (e : Expr) : Prop :=
  ∀ e' d, Stands coded e c e' d → ∀ b, e'.block? = some b → b.Runs u d

/-- They are the function of its own block and those of its parts. -/
theorem Expr.runs_of_parts {u : UnitInfo} (d : Spot) (e : Expr)
    (hblock : ∀ b, e.block? = some b → b.Runs u d) (hparts : PartsMade (Expr.Runs u) d e.stances) :
    e.Runs u d := by
  intro e' d' hstands b hb
  cases hstands with
  | here => exact hblock b hb
  | inside hpart hpasses hrest => exact hparts _ hpart hpasses e' d' hrest b hb

/-- In a unit that is generated, the functions of all blocks are generated that get code. -/
theorem Program.runs_of_generate {file text : String} {program : Program}
    (hparse : parse file text = .ok program) {name : String} {g : Generated}
    (hgen : generate program name = .ok g) {e : Expr} {d : Spot} (hstands : program.Stands coded e d)
    {b : Block Expr} (hb : e.block? = some b) : b.Runs ⟨name, program.endData.isSome⟩ d := by
  obtain ⟨stmt, hstmt, hstands⟩ := hstands
  have hexplains := explains_of_parse hparse (P := fun _ => True) fun _ _ _ _ _ => trivial
  have hruns := (generate_guarded Expr.runs_of_parts hexplains).2 g hgen stmt hstmt
  exact hruns e d hstands b hb

/-! ## Functions -/

/-- The function of a block declares a parameter that it takes by position, and any other that is not
known where the block begins. A parameter that is known there belongs to the function that has it. -/
theorem FunctionOf.parameter {b : Block Expr} {f : Frame} {before after : List Frame}
    (h : FunctionOf .block b.params b.body f before after) {x : String} (hx : x ∈ b.params.names) :
    (f.declares x = true ↔ x ∈ b.params.positional ∨ GenState.knownIn x before = false) ∧
      GenState.ownerIn x (f :: after) =
        some (if x ∈ b.params.positional then 0 else inward (GenState.knownOwner x before)) := by
  have hbinds : Binds b.params b.body x := .inl hx
  constructor
  · rw [h.declares_iff]
    simp [hbinds, FrameKind.seesOuter]
  · rw [h.ownerIn_eq hbinds, FunctionOf.ownerAround]
    by_cases hpositional : x ∈ b.params.positional
    · simp [hpositional, inward]
    · simp [hpositional, FrameKind.seesOuter]

/-- In every program that was read and generated, the function of every block that gets code was
generated. In whatever state that is, it has the parameters that the block takes by position. It has
the variables of the other parameters exactly if their names were not known around the block; else they
are variables of a function further out. -/
theorem block_parameters {file text : String} {program : Program}
    (hparse : parse file text = .ok program) {name : String} {g : Generated}
    (hgen : generate program name = .ok g) {e : Expr} {d : Spot} (hstands : program.Stands coded e d)
    {b : Block Expr} (hb : e.block? = some b) :
    b.Runs ⟨name, program.endData.isSome⟩ d ∧
      ∀ s t s', Emission.block ⟨emitParams ⟨name, program.endData.isSome⟩ b.params,
          emitAll ⟨name, program.endData.isSome⟩ b.body⟩ s = .ok (t, s') →
        ∃ f, f.Makes t ∧ f.params = b.params.positional ∧ ∀ x ∈ b.params.names,
          (f.declares x = true ↔ x ∈ b.params.positional ∨ GenState.knownIn x s.frames = false) ∧
          GenState.ownerIn x (f :: s'.frames) =
            some (if x ∈ b.params.positional then 0 else inward (GenState.knownOwner x s.frames)) := by
  refine ⟨Program.runs_of_generate hparse hgen hstands hb, fun s t s' hrun => ?_⟩
  obtain ⟨f, hmakes, hfunction⟩ := functionOf_block hrun
  exact ⟨f, hmakes, hfunction.positional, fun x hx => hfunction.parameter hx⟩

/-- A block with a parameter of each kind, below a variable with the name of one. -/
def parametersText : String := "c = 1\nf \x7b |a, b = 2, *c, &d| c \x7d\n"

theorem block_parameters_four : ∃ program g e b, parse "main" parametersText = .ok program ∧
    generate program "main" = .ok g ∧ program.Stands coded e {} ∧ e.block? = some b ∧
    b.params.names = ["a", "b", "c", "d"] ∧
    ∃ s t s', Emission.block ⟨emitParams ⟨"main", program.endData.isSome⟩ b.params,
        emitAll ⟨"main", program.endData.isSome⟩ b.body⟩ s = .ok (t, s') ∧
      ∃ f : Frame, f.Makes t ∧ f.declares "a" = true ∧ f.declares "b" = true ∧
        (f.declares "c" = true ↔ GenState.knownIn "c" s.frames = false) := by
  obtain ⟨program, hparse, hblock, hgen⟩ : ∃ program, parse "main" parametersText = .ok program ∧
      (∃ e ∈ program.body, (e.block?.map fun b => (b.params.names, b.params.positional)) =
        some (["a", "b", "c", "d"], ["a", "b"])) ∧
      (generate program "main").toOption.any (fun _ => true) = true :=
    exists_ok_of_any (by decide +kernel)
  obtain ⟨g, hgen, -⟩ := exists_ok_of_any (p := fun _ => True) hgen
  obtain ⟨e, he, hblock⟩ := hblock
  obtain ⟨b, hb, hparams⟩ := Option.map_eq_some_iff.mp hblock
  obtain ⟨hnames, hpositional⟩ := Prod.mk.inj hparams
  have hstands : program.Stands coded e {} := ⟨e, he, .here⟩
  obtain ⟨⟨s, t, s', -, hrun⟩, hall⟩ := block_parameters hparse hgen hstands hb
  obtain ⟨f, hmakes, -, hparams⟩ := hall s t s' hrun
  rw [hnames, hpositional] at hparams
  refine ⟨program, g, e, b, hparse, hgen, hstands, hb, hnames, s, t, s', hrun, f, hmakes, ?_, ?_, ?_⟩
  · exact (hparams "a" (by simp)).1.mpr (.inl (by simp))
  · exact (hparams "b" (by simp)).1.mpr (.inl (by simp))
  · rw [(hparams "c" (by simp)).1]
    simp

/-- The function that a unit gives to the call at its end. -/
def Generated.lastBlock? (g : Generated) : Option (Script.Func Script.Term Script.Stmt) :=
  match g.script.body.getLast? with
  | some (.ret (.runtime _ args) _) =>
    match args.getLast? with
    | some (.func fn) => some fn
    | _ => none
  | _ => none

/-- The function of the block in `f { |*x| x }` has no variable `x` if there is one around it. -/
theorem block_parameters_rest : ∃ program g e b fn,
    parse "main" "x = 1\nf \x7b |*x| x \x7d" = .ok program ∧ generate program "main" = .ok g ∧
    program.Stands coded e {} ∧ e.block? = some b ∧ b.params.rest = some "x" ∧
    g.script.locals = ["x"] ∧ g.lastBlock? = some fn ∧
    Script.Name.user "x" ∉ fn.params ∧ "x" ∉ fn.locals := by
  obtain ⟨program, hparse, hblock, hgen⟩ : ∃ program,
      parse "main" "x = 1\nf \x7b |*x| x \x7d" = .ok program ∧
      (∃ e ∈ program.body, (e.block?.map fun b => b.params.rest) = some (some "x")) ∧
      (generate program "main").toOption.any (fun g => decide (g.script.locals = ["x"] ∧
        (g.lastBlock?.map fun fn => (fn.params, fn.locals)) = some ([], []))) = true :=
    exists_ok_of_any (by decide +kernel)
  obtain ⟨e, he, hblock⟩ := hblock
  obtain ⟨b, hb, hrest⟩ := Option.map_eq_some_iff.mp hblock
  obtain ⟨g, hgen, hlocals, hlast⟩ := exists_ok_of_any hgen
  obtain ⟨fn, hfn, hnone⟩ := Option.map_eq_some_iff.mp hlast
  obtain ⟨hparams, hvars⟩ := Prod.mk.inj hnone
  refine ⟨program, g, e, b, fn, hparse, hgen, ⟨e, he, .here⟩, hb, hrest, hlocals, hfn, ?_, ?_⟩
  · rw [hparams]
    exact List.not_mem_nil
  · rw [hvars]
    exact List.not_mem_nil

end RubyJs
