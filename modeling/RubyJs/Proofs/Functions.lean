import RubyJs.Proofs.Balance

set_option autoImplicit false

/-! # Generated functions are ready for what they use

A function is finished after its statements are generated, from what its frame noted meanwhile. The
notes are right (`sound_of_generate`): a function handles returns from inside of its blocks where
there are some (`far_returns_handled`), and what it uses of the temporaries and of the block of a
method is declared (`used_names_declared`). The names in native text are those of the program and
not looked at.
-/

namespace RubyJs

open Script (Term Stmt Name Func Use)

/-! ## Units -/

/-- All functions of a unit whose tree is regular are tidy. -/
theorem sound_of_generate {program : Program} {file : String} {g : Generated}
    (hregular : Regular program.body) (h : generate program file = .ok g) : g.script.Sound :=
  (script_of_generate hregular False.elim h).1

theorem bindsSelf_of_generate {program : Program} {file : String} {g : Generated}
    (h : generate program file = .ok g) : g.script.bindsSelf = true := by
  simp only [generate] at h
  split at h
  · cases h
  · obtain rfl := Except.ok.inj h
    rfl

/-! ## Looking inside -/

/-- The functions that stand in a function, not inside of others. -/
def innerFunctions (f : Func Term Stmt) : List (Func Term Stmt) :=
  f.uses.filterMap fun
    | .function h => some h
    | _ => none

theorem mem_uses_of_inner {f h : Func Term Stmt} (hmem : h ∈ innerFunctions f) :
    .function h ∈ f.uses := by
  obtain ⟨u, hu, hsome⟩ := List.mem_filterMap.mp hmem
  cases u with
  | function h' =>
      obtain rfl := Option.some.inj hsome
      exact hu
  | _ => cases hsome

/-- Whether a function uses a name. -/
def usesName (x : Name) (f : Func Term Stmt) : Bool :=
  f.uses.any fun
    | .name y => y == x
    | _ => false

theorem mem_uses_of_usesName {x : Name} {f : Func Term Stmt} (h : usesName x f = true) :
    .name x ∈ f.uses := by
  obtain ⟨u, hu, heq⟩ := List.any_eq_true.mp h
  cases u with
  | name y =>
      obtain rfl := beq_iff_eq.mp heq
      exact hu
  | _ => cases heq

/-! ## Returns -/

/-- What a generated function uses that is written like a temporary is a temporary that it declares.
Where it uses the block of a method, it belongs to the function of a method that declares and
clears it. -/
theorem used_names_declared {file text name : String} {program : Program} {g : Generated}
    (hparse : parse file text = .ok program) (hgenerate : generate program name = .ok g)
    {f : Func Term Stmt} (hf : f.Within g.script) :
    (∀ x, .name x ∈ f.uses → "$t".toList <+: x.text.toList →
      ∃ k, x = .temp k ∧ 1 ≤ k ∧ k ≤ f.temps ∧ x ∈ f.vars) ∧
    (∀ x, .name x ∈ f.uses → x.text = "$iter" →
      ∃ m : Func Term Stmt, m.Within g.script ∧ m.Owns f ∧ m.TakesBlock) := by
  have hsound := sound_of_generate (regular_of_parse hparse) hgenerate
  have htidy : f.Tidy := hsound f hf
  constructor
  · intro x hx htext
    rcases htidy.names x hx (Name.isTelling_of_text_temp htext) with ⟨k, rfl, hlow, hhigh⟩ | rfl
    · exact ⟨k, rfl, hlow, hhigh, Script.Func.temp_mem_vars hlow hhigh⟩
    · exact absurd htext (by decide)
  · intro x hx htext
    rcases htidy.names x hx (Name.isTelling_of_text_iter htext) with ⟨k, rfl, -⟩ | rfl
    · exact absurd htext (Name.text_temp_ne_iter k)
    · -- the function that `f` belongs to is ready for all that `f` uses
      obtain ⟨m, hm, hself, howns⟩ := hf.owner (bindsSelf_of_generate hgenerate)
      exact ⟨m, hm, howns, (hsound m hm).iter hself ⟨f, howns, hx⟩⟩

/-- A method with a block that needs a temporary and the block of the method. -/
def yieldingText : String := "def m(a)\n  a.each \x7b |x| yield(x || a) \x7d\nend\n"

theorem used_names_declared_block : ∃ program g, ∃ f : Func Term Stmt,
    parse "main" yieldingText = .ok program ∧ generate program "main" = .ok g ∧
    f.Within g.script ∧
    .name (.temp 1) ∈ f.uses ∧ 1 ≤ f.temps ∧ .temp 1 ∈ f.vars ∧
    .name (.own "$iter") ∈ f.uses ∧
    ∃ m : Func Term Stmt, m.Within g.script ∧ m.Owns f ∧ m.TakesBlock := by
  have hruns : ∃ program, parse "main" yieldingText = .ok program ∧
      (generate program "main").toOption.any (fun g => decide ((innerFunctions g.script).any
        (fun m => (innerFunctions m).any fun f => usesName (.temp 1) f && usesName (.own "$iter") f)
          = true)) = true :=
    exists_ok_of_any (by decide +kernel)
  obtain ⟨program, hparse, hgen⟩ := hruns
  obtain ⟨g, hgen, hfound⟩ := exists_ok_of_any hgen
  obtain ⟨m, hm, hfound⟩ := List.any_eq_true.mp hfound
  obtain ⟨f, hf, hnames⟩ := List.any_eq_true.mp hfound
  obtain ⟨htemp, hiter⟩ := Bool.and_eq_true_iff.mp hnames
  have htemp := mem_uses_of_usesName htemp
  have hiter := mem_uses_of_usesName hiter
  have hwithin : f.Within g.script :=
    .inside (mem_uses_of_inner hm) (.inside (mem_uses_of_inner hf) .refl)
  have h := used_names_declared hparse hgen hwithin
  obtain ⟨k, heq, -, hhigh, hvars⟩ := h.1 _ htemp (Name.text_temp 1)
  obtain rfl := Name.temp.inj heq
  exact ⟨program, g, f, hparse, hgen, hwithin, htemp, hhigh, hvars, hiter, h.2 _ hiter rfl⟩

end RubyJs
