import RubyJs.Proofs.Syntax.Grammar

set_option autoImplicit false

/-! # Variables are bound where they stand

A name is read as a variable where something has made it known before. In a tree that was read, all
variables are bound where they stand (`parse_scoped`), but for names that are lost: of two parameters
with a star, or two with an ampersand, the first makes its name known and gets no parameter. A name
is lost only where there is a star or an ampersand.
-/

namespace RubyJs

open Grammar

/-- A name is lost only in a unit or code that has a star or an ampersand. -/
theorem Lost.splat {file text x : String} (h : Lost file text x) :
    ∃ range l t, Lexed.Cut text range l ∧ t ∈ l.tokens ∧ (t.kind = .star ∨ t.kind = .amp) := by
  obtain ⟨range, l, place, n, hcut, hplace, _, _, _, _, _, hcollects, hmay, -⟩ := h
  have hbehind : ∃ b, place.Later b ∧ (b.current.kind = .star ∨ b.current.kind = .amp) := by
    cases hcollects with
    | method | block =>
        obtain ⟨b, hb, hkind, -⟩ := hmay
        exact ⟨b, hb, hkind⟩
    | delimited | command | yield =>
        obtain ⟨b, hb, hkind⟩ := hmay
        exact ⟨b, hb, .inr hkind⟩
  obtain ⟨b, hb, hkind⟩ := hbehind
  exact ⟨range, l, b.current, hcut, Stream.left_ofLexed l ▸ (hplace.trans hb).mem, hkind⟩

/-- All variables of a tree that was read are bound: by something in the same scope, or around the
blocks that they stand in. Names that are lost are excepted, and in a unit without stars and
ampersands none is. -/
theorem parse_scoped {file text : String} {program : Program} (h : parse file text = .ok program) :
    (∀ e ∈ program.body, e.Scoped (Lost file text) fun x => program.Assigned x ∨ Lost file text x) ∧
      ((∀ range l, Lexed.Cut text range l → ∀ t ∈ l.tokens, t.kind ≠ .star ∧ t.kind ≠ .amp) →
        ∀ e ∈ program.body, e.Scoped (fun _ => False) program.Assigned) := by
  obtain ⟨c, -, hlost, hfits⟩ := fits_of_parse h
  have hscoped : ∀ e ∈ program.body,
      e.Scoped (Lost file text) fun x => program.Assigned x ∨ Lost file text x := by
    intro e he
    have hfit := hfits e (List.mem_flatMap.mpr ⟨e, he, List.mem_singleton_self e⟩)
    exact hlost ▸ hfit.2
  refine ⟨hscoped, fun hplain => ?_⟩
  have hnone : Lost file text = fun _ => False := by
    funext x
    refine eq_false fun hx => ?_
    obtain ⟨range, l, t, hcut, ht, hkind⟩ := hx.splat
    exact hkind.elim (hplain range l hcut t ht).1 (hplain range l hcut t ht).2
  simpa [hnone] using hscoped

/-- A block sees the variable around it, a method its parameter only. -/
theorem parse_scoped_block : ∃ program,
    parse "main" "x = 1\ndef f(y) y end\ng \x7b |z| x + z \x7d" = .ok program ∧
      program.body.length = 3 ∧
      ∀ e ∈ program.body, e.Scoped (fun _ => False) program.Assigned := by
  obtain ⟨program, hparse, hlength⟩ : ∃ p,
      parse "main" "x = 1\ndef f(y) y end\ng \x7b |z| x + z \x7d" = .ok p ∧ p.body.length = 3 :=
    exists_ok_of_any (by decide +kernel)
  refine ⟨program, hparse, hlength, (parse_scoped hparse).2 fun range l hcut t ht => ?_⟩
  obtain ⟨l', hlex, hplain⟩ : ∃ l, lex "x = 1\ndef f(y) y end\ng \x7b |z| x + z \x7d" = .ok l ∧
      ∀ t ∈ l.tokens, t.kind.segments = [] ∧ t.kind ≠ .star ∧ t.kind ≠ .amp :=
    exists_ok_of_any (by decide +kernel)
  -- No token has code, so the tokens are those of the unit.
  have hcode : ∀ span, ¬ Lexer.CodeSpan "x = 1\ndef f(y) y end\ng \x7b |z| x + z \x7d" span := by
    intro span hspan
    induction hspan with
    | unit hl ht hcode =>
        obtain rfl := Except.ok.inj (hlex.symm.trans hl)
        rw [(hplain _ ht).1] at hcode
        exact List.not_mem_nil hcode
    | nested _ _ _ _ ih => exact ih
  cases hcut with
  | unit hl =>
      obtain rfl := Except.ok.inj (hlex.symm.trans hl)
      exact (hplain t ht).2
  | code hspan => exact absurd hspan (hcode _)

/-- The parameters of a method without defaults and the variable that is its body. -/
def Expr.returned? : Expr → Option (List String × String)
  | define _ _ params@⟨_, [], _, _⟩ [lvar x] => some (params.names, x)
  | _ => none

/-- A method that returns a variable which is no parameter has one that is not bound. -/
theorem not_scoped_of_returned {e : Expr} {names : List String} {x : String} {K : String → Prop}
    (h : e.returned? = some (names, x)) (hx : x ∉ names) : ¬ e.Scoped (fun _ => False) K := by
  unfold Expr.returned? at h
  split at h
  · obtain ⟨rfl, rfl⟩ := Prod.mk.inj (Option.some.inj h)
    rintro ⟨-, hinside⟩
    obtain ⟨hhere, -⟩ := hinside ⟨_, .method, .always⟩ (List.mem_append_right _ List.mem_cons_self)
    rcases hhere _ List.mem_cons_self with (hparam | ⟨s, hs, hown, hassigned⟩) | hlost
    · exact hx hparam
    · -- In the scope of the method stands nothing but the variable.
      simp only [Expr.parts, List.mem_append] at hs
      rcases hs with (hs | hs) | hs
      · obtain ⟨_, -, rfl⟩ := List.mem_map.mp hs
        cases hown
      · exact List.not_mem_nil hs
      · obtain rfl := List.mem_singleton.mp hs
        rcases Expr.has_iff.mp hassigned with hbinds | ⟨_, hpart, -⟩
        · exact List.not_mem_nil hbinds
        · exact List.not_mem_nil hpart
    · exact hlost
  · cases h

/-- The first of two parameters with a star is a variable in the body, but nothing binds it. -/
theorem parse_first_splat : ∃ program, parse "main" "def f(*a, *b)\n a\nend" = .ok program ∧
    ∃ e ∈ program.body, ∀ K, ¬ e.Scoped (fun _ => False) K := by
  obtain ⟨program, hparse, hreturned⟩ : ∃ p, parse "main" "def f(*a, *b)\n a\nend" = .ok p ∧
      p.body.map Expr.returned? = [some (["b"], "a")] := exists_ok_of_any (by decide +kernel)
  obtain ⟨e, he, hsome⟩ := List.mem_map.mp (hreturned ▸ List.mem_singleton_self _)
  exact ⟨program, hparse, e, he, fun K => not_scoped_of_returned hsome (by decide)⟩

end RubyJs
