import RubyJs.Compiled
import RubyJs.Proofs.Emission.UsedCode
import RubyJs.Proofs.Ownership

set_option autoImplicit false

/-! # Generated text is balanced

Brackets are opened and closed in many places of a script, often in different lines, and the texts
of the program stand between them. Still the brackets of what is generated are nested, and all its
strings end (`generated_balanced`), unless the program brings in native text, which is printed as it
is written.
-/

namespace RubyJs

open Script (Balanced Moves Closed ClosedLines)

variable {program : Program}

/-! ## Trees that were read -/

/-- That a program has no native text anywhere. -/
def Program.NativeFree (program : Program) : Prop :=
  ∀ e ∈ program.body, e.All (·.isNative = false)

/-- Whether `p` holds of an expression and of those inside of it, down to a depth that has to be
enough. -/
def Expr.check (p : Expr → Bool) : Nat → Expr → Bool
  | 0, _ => false
  | depth + 1, e => p e && e.parts.all fun s => check p depth s.expr

theorem Expr.all_of_check {p : Expr → Bool} {P : Expr → Prop} (hp : ∀ e, p e = true → P e)
    (depth : Nat) {e : Expr} (h : e.check p depth = true) : e.All P := by
  induction depth generalizing e with
  | zero => cases h
  | succ depth ih =>
      rw [Expr.check, Bool.and_eq_true, List.all_eq_true] at h
      exact ⟨hp e h.1, fun s hs => ih (h.2 s hs)⟩

/-- A program can be checked for native text by looking at its expressions. -/
theorem Program.nativeFree_of_check (depth : Nat)
    (h : program.body.all (Expr.check (!·.isNative) depth) = true) : program.NativeFree :=
  fun e he => Expr.all_of_check (by simp) depth (List.all_eq_true.mp h e he)

/-- The tree of a unit is regular. -/
theorem regular_of_parse {file text : String} (h : parse file text = .ok program) :
    Regular program.body := by
  obtain ⟨c, hwords, -, hfits⟩ := fits_of_parse h
  exact Fits.regular hfits hwords

/-! ## Units -/

/-- The lines of a unit whose tree is regular and has no native text. -/
theorem closedLines_of_generate {file : String} {g : Generated} (hregular : Regular program.body)
    (hnative : program.NativeFree) (h : generate program file = .ok g) : ClosedLines g.lines :=
  ((script_of_generate hregular id h).2 hnative).lines 0

/-- What stands around the lines of a unit closes its brackets, too. -/
theorem balanced_between {ls : List String} (h : ClosedLines ls) (o : CompileOptions) :
    Balanced (o.opening ++ String.join (ls.map (· ++ "\n")) ++ o.closing) := by
  have hlines : Closed (String.join (ls.map (· ++ "\n"))) :=
    (h.map fun a b l hl => hl.append (Closed.moves fun _ => rfl)).join
  have hbanner : Closed (if o.banner then unitBanner else "") := by
    cases o.banner with
    | true => exact fun _ => rfl
    | false => exact Script.closed_empty
  unfold CompileOptions.opening CompileOptions.closing
  cases o.requirable with
  | true =>
      have hopen : Moves [] [.square] "Opal.modules[" := fun _ => rfl
      have hmiddle : Moves [.square] [.curly] "] = function(Opal) \x7b\n" := fun _ => rfl
      have hfile := (Script.closed_stringLiteral o.file).moves (a := [.square])
      have hopening := Moves.append hbanner ((hopen.append hfile).append hmiddle)
      exact Closed.balanced (hlines.between hopening fun _ => rfl)
  | false =>
      have hopen : Moves [] [.curly, .round] "(function(Opal) \x7b\n" := fun _ => rfl
      exact Closed.balanced (hlines.between (Moves.append hbanner hopen) fun _ => rfl)

/-- The lines that are generated for a unit, and the whole text that it is compiled to with any
options, are balanced if the unit has no native text. -/
theorem generated_balanced (text : String) :
    (∀ file program, parse file text = .ok program → program.NativeFree →
      ∀ name g, generate program name = .ok g → Balanced (String.join g.lines)) ∧
    (∀ (o : CompileOptions) program, parse o.file text = .ok program → program.NativeFree →
      ∀ c, compile text o = .ok c → Balanced c.javascript) := by
  constructor
  · intro file program hparse hnative name g hgen
    have hlines := closedLines_of_generate (regular_of_parse hparse) hnative hgen
    exact Closed.balanced hlines.join
  · intro o program hparse hnative c hcompile
    simp only [compile, parseUnit, hparse, compileProgram] at hcompile
    split at hcompile
    · cases hcompile
    · rename_i g hgen
      obtain rfl := Except.ok.inj hcompile
      have hlines := closedLines_of_generate (regular_of_parse hparse) hnative hgen
      exact balanced_between hlines o

/-- A method with a block that returns from it, a handler and a brace in a string. -/
def handlerText : String :=
  "def m(a)\n  a.each \x7b |x| return [x, '\x7d'] \x7d\nrescue\n  0\nend\n"

theorem generated_balanced_handler : ∃ program g c,
    parse "main" handlerText = .ok program ∧ program.NativeFree ∧
    generate program "main" = .ok g ∧ Balanced (String.join g.lines) ∧
    compile handlerText ⟨"main", true, true⟩ = .ok c ∧ Balanced c.javascript := by
  have hruns : ∃ program, parse "main" handlerText = .ok program ∧
      program.body.all (Expr.check (!·.isNative) 9) = true ∧
      (generate program "main").toOption.any (fun _ => true) = true :=
    exists_ok_of_any (by decide +kernel)
  obtain ⟨program, hparse, hcheck, hgen⟩ := hruns
  obtain ⟨g, hgen, -⟩ := exists_ok_of_any (p := fun _ => True) hgen
  have hfree : program.NativeFree := Program.nativeFree_of_check 9 hcheck
  have hcompile : ∃ c, compile handlerText ⟨"main", true, true⟩ = .ok c := by
    simp only [compile, parseUnit, hparse, compileProgram, hgen]
    exact ⟨_, rfl⟩
  obtain ⟨c, hcompile⟩ := hcompile
  have h := generated_balanced handlerText
  exact ⟨program, g, c, hparse, hfree, hgen, h.1 "main" program hparse hfree "main" g hgen,
    hcompile, h.2 ⟨"main", true, true⟩ program hparse hfree c hcompile⟩

end RubyJs
