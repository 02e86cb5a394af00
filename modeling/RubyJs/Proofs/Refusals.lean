import RubyJs.Proofs.Balance
import RubyJs.Proofs.Emission.GuardedCode

set_option autoImplicit false

/-! # What has no translation

Four kinds of expressions are refused, each for what it is and where it stands:

    break, next          that are no statement of the body of a loop or block
    super                outside of methods
    a[*b] = c            with a splat in the index
    0x1_0000…            an integer of more than 128 bits

Nothing else is, however deep it stands and whatever functions are put around it (`emit_guarded`). In
particular a function that was begun always finds the function around it when it ends.
-/

namespace RubyJs

open Emission
open Holder (exprs)

/-! ## Reasons -/

/-- That an expression at the spot `d` has no translation, for the reason `r`. -/
inductive Expr.Refuses (d : Spot) : Expr → Refusal → Prop where
  | strayBreak {v : Option Expr} (h : d.takesJump = false) : Refuses d (.brk v) (.strayJump "break")
  | strayNext {v : Option Expr} (h : d.takesJump = false) : Refuses d (.nxt v) (.strayJump "next")
  | breakValue {v : Option Expr} (h : d.takesJump = false) : Refuses d (.brk v) .jumpValue
  | nextValue {v : Option Expr} (h : d.takesJump = false) : Refuses d (.nxt v) .jumpValue
  | straySuper {args : Option (List Expr)} {block : Option (Block Expr)} {arg : Option Expr}
      (h : d.inMethod = false) : Refuses d (.super args block arg) .straySuper
  | splatAssign {t : Target Expr} {v : Expr} (h : t.splatsIndex = true) :
      Refuses d (.assign t v) .splatIndex
  | splatOpAssign {t : Target Expr} {op : String} {v : Expr} (h : t.splatsIndex = true) :
      Refuses d (.opAssign t op v) .splatIndex
  | integer {text : String} (h : 2 ^ 128 ≤ Numbers.magnitude text) :
      Refuses d (.int text) (.integerRange text)

/-- That all reasons to refuse what stands in `e`, at `c`, are in `P`. What stands there was read. -/
def Explains (P : Refusal → Prop) (e : Expr) (c : Spot) : Prop :=
  ∀ e' d, Stands everywhere e c e' d → e'.Regular ∧ ∀ r, e'.Refuses d r → P r

theorem Explains.part {P : Refusal → Prop} {e : Expr} {c : Spot} (h : Explains P e c) {s : Stance}
    (hs : s ∈ e.stances) : Explains P s.expr (c.enter s) :=
  fun e' d hstands => h e' d (.inside hs rfl hstands)

/-! ## Parts -/

section Parts

variable {u : UnitInfo} {P : Refusal → Prop} {Q : Spot → Expr → Prop} {c : Spot} {α : Type}
  [Holder α] {a : α} {n : Nesting} {isStatement : Bool} {fate : Fate} {ss ss' : List Stance}

/-- That parts of an expression at `c` can be generated. -/
def PartsSure (u : UnitInfo) (P : Refusal → Prop) (Q : Spot → Expr → Prop) (c : Spot)
    (ss : List Stance) : Prop := ∀ s ∈ ss, Sure u P Q (c.enter s) s.expr

theorem partsSure_append :
    PartsSure u P Q c (ss ++ ss') ↔ PartsSure u P Q c ss ∧ PartsSure u P Q c ss' :=
  List.forall_mem_append

theorem PartsSure.held (h : PartsSure u P Q c (standing n isStatement a fate)) :
    AllIn (Sure u P Q (c.within n isStatement)) a := allIn_standing.mp h

/-- The statements of a branch stand where the expression stands. -/
theorem PartsSure.branch (h : PartsSure u P Q c (standing .here true a fate)) :
    AllIn (Sure u P Q c) a := c.within_here_true ▸ h.held

/-- That the parts that get code are in `Q`. -/
def PartsMade (Q : Spot → Expr → Prop) (c : Spot) (ss : List Stance) : Prop :=
  ∀ s ∈ ss, coded c s = true → Q (c.enter s) s.expr

theorem partsMade_nil : PartsMade Q c [] := fun _ hs => absurd hs List.not_mem_nil

theorem PartsMade.append (h : PartsMade Q c ss) (h' : PartsMade Q c ss') :
    PartsMade Q c (ss ++ ss') := List.forall_mem_append.mpr ⟨h, h'⟩

theorem partsMade_held (h : AllIn (Q (c.within n isStatement)) a) :
    PartsMade Q c (standing n isStatement a fate) :=
  allIn_standing.mpr fun e he _ => h e he

theorem partsMade_branch (h : AllIn (Q c) a) : PartsMade Q c (standing .here true a fate) :=
  partsMade_held (c.within_here_true.symm ▸ h)

/-- The value of a jump gets code outside of loops only. -/
theorem partsMade_jump (h : c.inLoop = false → AllIn (Q c.apart) a) :
    PartsMade Q c (standing .here false a .outsideLoops) := by
  refine allIn_standing.mpr fun e he hcoded => h ?_ e he
  have hcoded : (!c.inLoop) = true := hcoded
  simpa using hcoded

theorem GivesBlock.made {b : Option (Block Expr)} {arg : Option Expr} (h : GivesBlock u Q c b arg) :
    PartsMade Q c (blockStances b) ∧ PartsMade Q c (argumentStances b arg) := by
  refine ⟨(partsMade_held h.params).append (partsMade_held h.body), ?_⟩
  cases b with
  | none => exact partsMade_held (h.argument rfl)
  | some b => exact allIn_standing.mpr fun e _ hcoded => absurd hcoded Bool.false_ne_true

end Parts

/-! ## Trees -/

/-- A tree is refused only for an expression that stands in it. If it is generated, then so is what
gets code in it: `Q` may be any statement that follows for an expression from its block and its
parts. -/
theorem emit_guarded {u : UnitInfo} {P : Refusal → Prop} {Q : Spot → Expr → Prop}
    (hQ : ∀ d e, (∀ b, e.block? = some b → b.Runs u d) → PartsMade Q d e.stances → Q d e) (e : Expr) :
    ∀ c, Explains P e c → Sure u P Q c e := by
  induction e using Expr.induction_on_parts with
  | h e ih =>
  intro c hexplains
  have hparts : PartsSure u P Q c e.stances := fun s hs =>
    ih s.toSite (e.stances_sites s hs) _ (hexplains.part hs)
  obtain ⟨hregular, hreason⟩ := hexplains e c .here
  -- All but calls and `super` have no block.
  have hmade : e.block? = none → PartsMade Q c e.stances → Q c e := fun hnone =>
    hQ c e fun b hb => absurd (hnone.symm.trans hb) nofun
  cases e with
  | nil | bool _ =>
      have hq := hmade rfl partsMade_nil
      exact Guarded.ofTest (.pure hq) (.pure hq)
  | selfRef | float _ | str _ | sym _ | lvar _ | ivar _ | gvar _ | aliasMethod _ _ | undef _ =>
      exact Guarded.ofValue (.pure (hmade rfl partsMade_nil))
  | int t =>
      have ht : Numbers.isInteger t = true := by simpa [Expr.isHollow] using hregular.filled
      refine (int_guarded fun hnone => hreason _ (.integer ?_)).imp fun _ => hmade rfl partsMade_nil
      exact (Numbers.integerText?_eq_none_iff ht).mp hnone
  | dstr ps | dsym ps =>
      exact (interpolated_guarded hparts.held).imp fun hq => hmade rfl (partsMade_held hq)
  | xstr ps => exact (native_guarded hparts.held).imp fun hq => hmade rfl (partsMade_held hq)
  | array es => exact (array_guarded hparts.held).imp fun hq => hmade rfl (partsMade_held hq)
  | hash ps => exact (hash_guarded hparts.held).imp fun hq => hmade rfl (partsMade_held hq)
  | range a b exclusive =>
      obtain ⟨ha, hb⟩ := partsSure_append.mp hparts
      refine (range_guarded ha.held hb.held exclusive).imp fun hq => hmade rfl ?_
      exact (partsMade_held hq.1).append (partsMade_held hq.2)
  | const base x => exact (const_guarded hparts.held _ x).imp fun hq => hmade rfl (partsMade_held hq)
  | assign t v =>
      obtain ⟨ht, hv⟩ := partsSure_append.mp hparts
      refine (assign_guarded ht.held hv.held (fun h => hreason _ (.splatAssign h)) _).imp
        fun hq => hmade rfl ?_
      exact (partsMade_held hq.1).append (partsMade_held hq.2)
  | opAssign t op v =>
      obtain ⟨ht, hv⟩ := partsSure_append.mp hparts
      refine (opAssign_guarded ht.held hv.held (fun h => hreason _ (.splatOpAssign h)) _ op).imp
        fun hq => hmade rfl ?_
      exact (partsMade_held hq.1).append (partsMade_held hq.2)
  | call call =>
      obtain ⟨recv, name, args, block, arg⟩ := call
      obtain ⟨hrest, harg⟩ := partsSure_append.mp hparts
      obtain ⟨hrest, hblock⟩ := partsSure_append.mp hrest
      obtain ⟨hrecv, hargs⟩ := partsSure_append.mp hrest
      obtain ⟨hparams, hbody⟩ := partsSure_append.mp hblock
      -- A literal has no parts.
      have hliteral : ∀ a t, Expr.literal? a = some t → Q c.apart a := by
        intro a t ha
        cases a with
        | str _ | sym _ => exact hQ _ _ (fun _ hb => by cases hb) partsMade_nil
        | _ => cases ha
      refine (call_guarded (ordinaryCall_guards hrecv.held hargs.held hparams.held hbody.held
        harg.held) hliteral).imp fun hq => hQ c _ hq.given.runs ?_
      obtain ⟨hqblock, hqarg⟩ := hq.given.made
      exact (((partsMade_held hq.recv).append (partsMade_held hq.args)).append hqblock).append hqarg
  | splat e => exact (splat_guarded hparts.held).imp fun hq => hmade rfl (partsMade_held hq)
  | not e => exact (not_guarded hparts.held).imp fun hq => hmade rfl (partsMade_held hq)
  | and l r =>
      obtain ⟨hl, hr⟩ := partsSure_append.mp hparts
      refine (operator_guarded hl.held hr.held).1.imp fun hq => hmade rfl ?_
      exact (partsMade_held hq.1).append (partsMade_held hq.2)
  | or l r =>
      obtain ⟨hl, hr⟩ := partsSure_append.mp hparts
      refine (operator_guarded hl.held hr.held).2.imp fun hq => hmade rfl ?_
      exact (partsMade_held hq.1).append (partsMade_held hq.2)
  | ifElse cond t e =>
      obtain ⟨hrest, he⟩ := partsSure_append.mp hparts
      obtain ⟨hcond, ht⟩ := partsSure_append.mp hrest
      refine (ifElse_guarded hcond.held ht.branch he.branch).imp fun hq => hmade rfl ?_
      exact ((partsMade_held hq.1).append (partsMade_branch hq.2.1)).append (partsMade_branch hq.2.2)
  | ternary cond t e =>
      obtain ⟨hrest, he⟩ := partsSure_append.mp hparts
      obtain ⟨hcond, ht⟩ := partsSure_append.mp hrest
      have hthen : AllIn (Sure u P Q c) [t] := by simpa using ht.branch
      have helse : AllIn (Sure u P Q c) [e] := by simpa using he.branch
      refine (ifElse_guarded hcond.held hthen helse).imp fun hq => hmade rfl ?_
      obtain ⟨hqcond, hqthen, hqelse⟩ := hq
      have hqthen : AllIn (Q c) t := by simpa using hqthen
      have hqelse : AllIn (Q c) e := by simpa using hqelse
      exact ((partsMade_held hqcond).append (partsMade_branch hqthen)).append
        (partsMade_branch hqelse)
  | loop cond b isUntil bodyFirst =>
      obtain ⟨hcond, hb⟩ := partsSure_append.mp hparts
      refine (loop_guarded hcond.held hb.held isUntil bodyFirst).imp fun hq => hmade rfl ?_
      exact (partsMade_held hq.1).append (partsMade_held hq.2)
  | caseOf s ws e =>
      obtain ⟨hrest, he⟩ := partsSure_append.mp hparts
      obtain ⟨hs, hws⟩ := partsSure_append.mp hrest
      obtain ⟨hvalues, hbodies⟩ := partsSure_append.mp hws
      refine (caseOf_guarded hs.held hvalues.held hbodies.branch he.branch).imp
        fun hq => hmade rfl ?_
      have hqws : PartsMade Q c (whenStances ws) :=
        (partsMade_held hq.2.1.1).append (partsMade_branch hq.2.1.2)
      exact ((partsMade_held hq.1).append hqws).append (partsMade_branch hq.2.2)
  | «begin» b rs e f =>
      obtain ⟨hrest, hf⟩ := partsSure_append.mp hparts
      obtain ⟨hrest, he⟩ := partsSure_append.mp hrest
      obtain ⟨hb, hrs⟩ := partsSure_append.mp hrest
      obtain ⟨hclasses, hbodies⟩ := partsSure_append.mp hrs
      refine (begin_guarded hb.branch hclasses.held hbodies.branch he.branch hf.branch).imp
        fun hq => hmade rfl ?_
      have hqrs : PartsMade Q c (rescueStances rs) :=
        (partsMade_held hq.2.1.1).append (partsMade_branch hq.2.1.2)
      exact (((partsMade_branch hq.1).append hqrs).append (partsMade_branch hq.2.2.1)).append
        (partsMade_branch hq.2.2.2)
  | seq es => exact (seq_guarded hparts.branch).imp fun hq => hmade rfl (partsMade_branch hq)
  | ret v => exact (ret_guarded hparts.held).imp fun hq => hmade rfl (partsMade_held hq)
  | brk v =>
      exact (brk_guarded hparts.held (fun h => hreason _ (.strayBreak h))
        fun h => hreason _ (.breakValue h)).imp fun hq => hmade rfl (partsMade_jump hq)
  | nxt v =>
      exact (nxt_guarded hparts.held (fun h => hreason _ (.strayNext h))
        fun h => hreason _ (.nextValue h)).imp fun hq => hmade rfl (partsMade_jump hq)
  | «yield» es => exact (yield_guarded hparts.held).imp fun hq => hmade rfl (partsMade_held hq)
  | «super» args block arg =>
      obtain ⟨hrest, harg⟩ := partsSure_append.mp hparts
      obtain ⟨hargs, hblock⟩ := partsSure_append.mp hrest
      obtain ⟨hparams, hbody⟩ := partsSure_append.mp hblock
      refine (super_guarded hargs.held hparams.held hbody.held harg.held
        fun h => hreason _ (.straySuper h)).imp fun hq => hQ c _ hq.2.runs ?_
      obtain ⟨hqblock, hqarg⟩ := hq.2.made
      exact ((partsMade_held hq.1).append hqblock).append hqarg
  | define s name params b =>
      obtain ⟨hrest, hb⟩ := partsSure_append.mp hparts
      obtain ⟨hs, hparams⟩ := partsSure_append.mp hrest
      refine (define_guarded hs.held hparams.held hb.held name).imp fun hq => hmade rfl ?_
      exact ((partsMade_held hq.1).append (partsMade_held hq.2.1)).append (partsMade_held hq.2.2)
  | classDef base name s b =>
      obtain ⟨hrest, hb⟩ := partsSure_append.mp hparts
      obtain ⟨hbase, hs⟩ := partsSure_append.mp hrest
      refine (classDef_guarded hbase.held hs.held hb.held name).imp fun hq => hmade rfl ?_
      exact ((partsMade_held hq.1).append (partsMade_held hq.2.1)).append (partsMade_held hq.2.2)
  | moduleDef base name b =>
      obtain ⟨hbase, hb⟩ := partsSure_append.mp hparts
      refine (moduleDef_guarded hbase.held hb.held name).imp fun hq => hmade rfl ?_
      exact (partsMade_held hq.1).append (partsMade_held hq.2)
  | singletonDef t b =>
      obtain ⟨ht, hb⟩ := partsSure_append.mp hparts
      refine (singletonDef_guarded ht.held hb.held).imp fun hq => hmade rfl ?_
      exact (partsMade_held hq.1).append (partsMade_held hq.2)

/-! ## Units -/

/-- What stands in a regular tree is regular. -/
theorem Stands.regular {via : Spot → Stance → Bool} {e e' : Expr} {c d : Spot}
    (h : Stands via e c e' d) (hall : e.All Expr.Regular) : e'.Regular := by
  induction h with
  | here =>
      obtain ⟨hhere, -⟩ := hall
      exact hhere
  | inside hpart _ _ ih =>
      obtain ⟨-, hinside⟩ := hall
      exact ih (hinside _ (Expr.stances_sites _ _ hpart))

/-- The reasons to refuse a program that was read are those of what stands in it. -/
theorem explains_of_parse {file text : String} {program : Program}
    (h : parse file text = .ok program) {P : Refusal → Prop}
    (hP : ∀ e d, program.Stands everywhere e d → ∀ r, e.Refuses d r → P r) :
    ∀ e ∈ program.body, Explains P e {} := by
  intro e he e' d hstands
  have hmem : e ∈ exprs program.body := by simpa [exprs] using he
  exact ⟨hstands.regular (regular_of_parse h e hmem), hP e' d ⟨e, he, hstands⟩⟩

/-- A unit is refused only for a reason in `P`, or all that gets code in it is generated. -/
theorem generate_guarded {program : Program} {file : String} {P : Refusal → Prop}
    {Q : Spot → Expr → Prop}
    (hQ : ∀ d e, (∀ b, e.block? = some b → b.Runs ⟨file, program.endData.isSome⟩ d) →
      PartsMade Q d e.stances → Q d e)
    (h : ∀ e ∈ program.body, Explains P e {}) :
    (∀ r, generate program file = .error r → P r) ∧
      ∀ g, generate program file = .ok g → ∀ e ∈ program.body, Q {} e := by
  have hsure : AllIn (Sure ⟨file, program.endData.isSome⟩ P Q {}) program.body := by
    intro e he
    have hmem : e ∈ program.body := by simpa [exprs] using he
    exact emit_guarded hQ e {} (h e hmem)
  -- At the start no loop is around.
  have hrun := body_guards hsure true { frame := { kind := .top } } (Spot.fits_anywhere _ rfl)
  unfold generate
  dsimp only
  cases hres : body (emitAll ⟨file, program.endData.isSome⟩ program.body) true
      { frame := { kind := .top } } with
  | error r =>
      rw [hres] at hrun
      refine ⟨fun r' hr => ?_, nofun⟩
      exact Except.error.inj hr ▸ hrun
  | ok r =>
      rw [hres] at hrun
      refine ⟨nofun, fun g _ e he => hrun.2 e ?_⟩
      simpa [exprs] using he

/-- A program that was read has code, or is refused for an expression that stands in it and has no
translation. The failure names the unit. One without such expressions always has code, and no function
ends without a function around it. -/
theorem generate_or_refuses {file text : String} {program : Program}
    (h : parse file text = .ok program) (o : CompileOptions) :
    ((∃ g c, generate program o.file = .ok g ∧ compileProgram program o = .ok c) ∨
      ∃ r e d, generate program o.file = .error r ∧
        compileProgram program o = .error (.unsupported o.file r) ∧
        program.Stands everywhere e d ∧ e.Refuses d r) ∧
    ((∀ e d r, program.Stands everywhere e d → ¬ e.Refuses d r) →
      ∃ g c, generate program o.file = .ok g ∧ compileProgram program o = .ok c) ∧
    generate program o.file ≠ .error .unbalanced := by
  have hreason : ∀ r, generate program o.file = .error r →
      ∃ e d, program.Stands everywhere e d ∧ e.Refuses d r := by
    have hexplains := explains_of_parse h
      (P := fun r => ∃ e d, program.Stands everywhere e d ∧ e.Refuses d r)
      fun e d hstands r hrefuses => ⟨e, d, hstands, hrefuses⟩
    exact (generate_guarded (Q := fun _ _ => True) (fun _ _ _ _ => trivial) hexplains).1
  have hcompiles : ∀ g, generate program o.file = .ok g →
      ∃ g c, generate program o.file = .ok g ∧ compileProgram program o = .ok c := by
    intro g hgen
    unfold compileProgram
    rw [hgen]
    exact ⟨g, _, rfl, rfl⟩
  refine ⟨?_, fun hnone => ?_, fun hunbalanced => ?_⟩
  · cases hgen : generate program o.file with
    | ok g =>
        rw [← hgen]
        exact .inl (hcompiles g hgen)
    | error r =>
        obtain ⟨e, d, hstands, hrefuses⟩ := hreason r hgen
        refine .inr ⟨r, e, d, rfl, ?_, hstands, hrefuses⟩
        rw [compileProgram, hgen]
  · cases hgen : generate program o.file with
    | ok g =>
        rw [← hgen]
        exact hcompiles g hgen
    | error r =>
        obtain ⟨e, d, hstands, hrefuses⟩ := hreason r hgen
        exact absurd hrefuses (hnone e d r hstands)
  · obtain ⟨e, d, -, hrefuses⟩ := hreason _ hunbalanced
    cases hrefuses

/-! ## Programs without such expressions -/

/-- Whether an expression at `d` has no translation. -/
def Expr.isRefused (d : Spot) : Expr → Bool
  | brk _ | nxt _ => !d.takesJump
  | super _ _ _ => !d.inMethod
  | assign t _ | opAssign t _ _ => t.splatsIndex
  | int text => decide (2 ^ 128 ≤ Numbers.magnitude text)
  | _ => false

theorem Expr.isRefused_iff {d : Spot} {e : Expr} : e.isRefused d = true ↔ ∃ r, e.Refuses d r := by
  constructor
  · intro h
    cases e with
    | brk v => exact ⟨_, .strayBreak (by simpa [isRefused] using h)⟩
    | nxt v => exact ⟨_, .strayNext (by simpa [isRefused] using h)⟩
    | «super» args block arg => exact ⟨_, .straySuper (by simpa [isRefused] using h)⟩
    | assign t v => exact ⟨_, .splatAssign h⟩
    | opAssign t op v => exact ⟨_, .splatOpAssign h⟩
    | int text => exact ⟨_, .integer (of_decide_eq_true h)⟩
    | _ => cases h
  · rintro ⟨r, h⟩
    cases h <;> simp_all [isRefused]

/-- Whether nothing in an expression is without a translation, down to a depth that has to be
enough. -/
def Expr.isTranslatable : Nat → Spot → Expr → Bool
  | 0, _, _ => false
  | depth + 1, c, e => !e.isRefused c && e.stances.all fun s => isTranslatable depth (c.enter s) s.expr

theorem Expr.not_refuses_of_isTranslatable {e e' : Expr} {c d : Spot} (h : Stands everywhere e c e' d)
    {depth : Nat} (hchecked : e.isTranslatable depth c = true) (r : Refusal) : ¬ e'.Refuses d r := by
  induction h generalizing depth with
  | @here e c =>
      cases depth with
      | zero => cases hchecked
      | succ depth =>
          rw [isTranslatable, Bool.and_eq_true, Bool.not_eq_true'] at hchecked
          intro hrefuses
          rw [isRefused_iff.mpr ⟨r, hrefuses⟩] at hchecked
          cases hchecked.1
  | inside hpart _ _ ih =>
      cases depth with
      | zero => cases hchecked
      | succ depth =>
          rw [isTranslatable, Bool.and_eq_true, List.all_eq_true] at hchecked
          exact ih (hchecked.2 _ hpart)

/-- A loop and a `super` in a value get a function around them, which hides neither the loop from the
`break` nor the method from the `super`. -/
def wrappedText : String :=
  "def m\n  x = while a\n    break 1 if super\n  end\nend\n"

theorem generate_or_refuses_wrapped :
    (∃ program g c, parse "main" wrappedText = .ok program ∧ generate program "main" = .ok g ∧
      compileProgram program ⟨"main", false, true⟩ = .ok c) ∧
    ∃ program r e d, parse "main" "while a\n  f(break)\nend\n" = .ok program ∧
      generate program "main" = .error r ∧ program.Stands everywhere e d ∧ e.Refuses d r := by
  constructor
  · obtain ⟨program, hparse, hchecked⟩ : ∃ program, parse "main" wrappedText = .ok program ∧
        program.body.all (Expr.isTranslatable 9 {}) = true := exists_ok_of_any (by decide +kernel)
    have hnone : ∀ e d r, program.Stands everywhere e d → ¬ e.Refuses d r := by
      rintro e d r ⟨stmt, hstmt, hstands⟩
      exact Expr.not_refuses_of_isTranslatable hstands (List.all_eq_true.mp hchecked stmt hstmt) r
    obtain ⟨g, c, hgen, hcompile⟩ :=
      (generate_or_refuses hparse ⟨"main", false, true⟩).2.1 hnone
    exact ⟨program, g, c, hparse, hgen, hcompile⟩
  · obtain ⟨program, hparse, hfails⟩ : ∃ program,
        parse "main" "while a\n  f(break)\nend\n" = .ok program ∧
          (generate program "main").toOption.isNone = true := exists_ok_of_any (by decide +kernel)
    rcases (generate_or_refuses hparse ⟨"main", false, true⟩).1 with ⟨g, -, hgen, -⟩ | hrefused
    · have hgen : generate program "main" = .ok g := hgen
      rw [hgen] at hfails
      cases hfails
    · obtain ⟨r, e, d, hgen, -, hstands, hrefuses⟩ := hrefused
      exact ⟨program, r, e, d, hparse, hgen, hstands, hrefuses⟩

end RubyJs
