import RubyJs.Proofs.JavaScript.Evaluation
import RubyJs.Proofs.JavaScript.Printing
import RubyJs.Proofs.Logic.Programs
import RubyJs.Token.Lexer

set_option autoImplicit false

/-! # The variables of a script

A script keeps the variables of the program under names of its own, next to those that the compiler
brings in: `nil`, `Opal` and temporaries. None of these names is another one's (`localName_inj`,
`localName_ne_dollar`), so writing to a variable or to a temporary leaves the others alone. `Ready`
says what a script can rely on while it runs.
-/

namespace RubyJs.Logic

open JavaScript (Letters Env)
open Script (Name localName reserved)

/-! ## Names -/

/-- That a variable can be called `x`: the word is read as one, and it is a name in JavaScript. -/
structure IsLocal (L : Letters) (x : String) : Prop where
  word : (Lexer.word none ⟨x.toList, 0⟩).1 = .ident x
  name : L.isName x = true

variable {L : Letters} {x y : String}
variable {w : String}

theorem dollar_not_mem_nameMark (cs : List Char) : '$' ∉ Lexer.nameMark cs := by
  intro h
  cases cs with
  | nil => exact List.not_mem_nil h
  | cons c cs =>
      simp only [Lexer.nameMark] at h
      split at h
      · rename_i hmark
        rw [← List.mem_singleton.mp h] at hmark
        simp at hmark
      · exact List.not_mem_nil h

/-- A word that is read as a variable has no dollar, is not reserved and begins with no capital. -/
theorem word_ident (h : (Lexer.word none ⟨x.toList, 0⟩).1 = .ident x) :
    '$' ∉ x.toList ∧ Keyword.ofText? x = none ∧ ∀ c ∈ x.toList.head?, c.isUpper = false := by
  simp only [Lexer.word] at h
  generalize hlexeme : x.toList.takeWhile isNameChar ++
    Lexer.nameMark (x.toList.drop (x.toList.takeWhile isNameChar).length) = lexeme at h
  have hdollar : '$' ∉ lexeme := by
    rw [← hlexeme, List.mem_append, not_or]
    refine ⟨fun hmem => ?_, dollar_not_mem_nameMark _⟩
    exact absurd (List.all_eq_true.mp List.all_takeWhile _ hmem) (by decide)
  cases lexeme
  all_goals
    dsimp only at h
    split at h
    · cases h
    · split at h
      · cases h
      · rename_i hupper
        rw [if_neg (by decide)] at h
        split at h
        · cases h
        · rename_i hword
          obtain rfl := TokenKind.ident.inj h
          rw [String.toList_ofList]
          refine ⟨hdollar, hword, ?_⟩
          simp_all

namespace IsLocal

theorem dollar (h : IsLocal L x) : '$' ∉ x.toList := (word_ident h.word).1

theorem ne_empty (h : IsLocal L x) : x ≠ "" := by
  rintro rfl
  exact Bool.false_ne_true h.name

theorem ne_nil (h : IsLocal L x) : x ≠ "nil" := by
  rintro rfl
  exact absurd (word_ident h.word).2.1 (by decide)

theorem ne_opal (h : IsLocal L x) : x ≠ "Opal" := by
  rintro rfl
  exact absurd ((word_ident h.word).2.2 'O' rfl) (by decide)

end IsLocal

theorem localName_cases (x : String) : localName x = x ∨ localName x = x ++ "$" := by
  unfold localName
  split
  · exact Or.inr rfl
  · exact Or.inl rfl

theorem dollar_mem_append (x : String) : '$' ∈ (x ++ "$").toList := by
  simp

/-- A variable has no name of the compiler's that is without a dollar, unless it is called so. -/
theorem localName_ne (hw : '$' ∉ w.toList) (hx : x ≠ w) : localName x ≠ w := by
  rcases localName_cases x with h | h
  · rwa [h]
  · rw [h]
    rintro rfl
    exact hw (dollar_mem_append x)

/-- Without dollars the name of a variable is the variable. -/
theorem filter_localName (hx : '$' ∉ x.toList) :
    (localName x).toList.filter (· != '$') = x.toList := by
  have hself : x.toList.filter (· != '$') = x.toList := by
    refine List.filter_eq_self.mpr fun c hc => ?_
    rw [bne_iff_ne]
    rintro rfl
    exact hx hc
  rcases localName_cases x with h | h
  · rw [h, hself]
  · rw [h, String.toList_append, List.filter_append, hself]
    exact List.append_nil _

theorem localName_inj (hx : '$' ∉ x.toList) (hy : '$' ∉ y.toList)
    (h : localName x = localName y) : x = y := by
  rw [← String.toList_inj, ← filter_localName hx, h, filter_localName hy]

/-- No variable has a name that begins with a dollar. -/
theorem localName_ne_dollar (hx : '$' ∉ x.toList) (hne : x ≠ "") (hw : w.toList.head? = some '$') :
    localName x ≠ w := by
  rintro rfl
  have hhead : (localName x).toList.head? = x.toList.head? := by
    rcases localName_cases x with h | h
    · rw [h]
    · cases hchars : x.toList with
      | nil => exact absurd (String.toList_inj.mp hchars) hne
      | cons c cs => simp [h, hchars]
  rw [hhead] at hw
  exact hx (List.mem_of_head? hw)

theorem isVariable_dollar (hname : L.isName w = true) (hw : '$' ∈ w.toList) :
    L.isVariable w = true := by
  have hwords : ∀ v ∈ JavaScript.reservedWords, '$' ∉ v.toList := by decide
  rw [Letters.isVariable, hname, Bool.true_and, Bool.not_eq_true', ← Bool.not_eq_true,
    List.contains_iff_mem]
  exact fun hmem => hwords w hmem hw

theorem isName_append_dollar (h : L.isName x = true) : L.isName (x ++ "$") = true := by
  unfold Letters.isName at h ⊢
  split at h
  · cases h
  · rename_i c cs hx
    rw [Bool.and_eq_true] at h
    simp only [String.toList_append, hx, List.cons_append, Bool.and_eq_true, List.all_append]
    exact ⟨h.1, h.2, by simp [Letters.isWord, Script.isIdentRest]⟩

/-- A variable is one in JavaScript, under its name. -/
theorem IsLocal.isVariable (h : IsLocal L x) : L.isVariable (localName x) = true := by
  unfold localName
  split
  · exact isVariable_dollar (isName_append_dollar h.name) (dollar_mem_append x)
  · rename_i hx
    have hwords : ∀ v ∈ JavaScript.reservedWords, reserved.contains v = true := by decide
    rw [Letters.isVariable, h.name, Bool.true_and, Bool.not_eq_true', ← Bool.not_eq_true,
      List.contains_iff_mem]
    exact fun hmem => hx (hwords x hmem)

theorem head?_temp (i : Nat) : (Name.temp i).text.toList.head? = some '$' := by
  simp [Name.text]

/-- Temporaries are variables, too. -/
theorem isVariable_temp (i : Nat) : L.isVariable (Name.temp i).text = true := by
  refine isVariable_dollar (JavaScript.isName_ascii ?_) (List.mem_of_head? (head?_temp i))
  have hdigits : ∀ c ∈ Nat.toDigits 10 i, Script.isIdentRest c = true := by
    intro c hc
    have hdigit : c.isDigit = true := Nat.isDigit_of_mem_toDigits (by decide) (by decide) hc
    simp [Script.isIdentRest, Char.isAlphanum, hdigit]
  have htext : (Name.temp i).text.toList = '$' :: 't' :: Nat.toDigits 10 i := by
    simp [Name.text]
  simp only [Script.isIdentifier, htext, List.all_cons, Bool.and_eq_true, List.all_eq_true]
  exact ⟨by decide, by decide, hdigits⟩

/-! ## Environments -/

/-- A value in JavaScript. -/
def Value.js : Value → JavaScript.Value
  | .nil => .nil
  | .bool b => .bool b

theorem Value.isTruthy_js (v : Value) : v.js.isTruthy = v.isTruthy := by
  cases v with
  | nil => rfl
  | bool b => cases b <;> rfl

/-- That an environment has what scripts need: `nil`, the runtime, the variables of the program with
their values, and `n` temporaries. -/
structure Ready (vars : List String) (n : Nat) (ρ : Store) (σ : Env) : Prop where
  nil : σ "nil" = some .nil
  runtime : σ "Opal" = some .runtime
  locals : ∀ x ∈ vars, σ (localName x) = some (ρ x).js
  temps : ∀ i, i < n → ∃ v, σ (Name.temp (i + 1)).text = some v

namespace Ready

variable {vars : List String} {n : Nat} {ρ : Store} {σ : Env}

/-- Writing to a variable that scripts do not read. -/
theorem set_dollar (hvars : ∀ x ∈ vars, IsLocal L x) (h : Ready vars n ρ σ)
    (hw : w.toList.head? = some '$') (v : JavaScript.Value) : Ready vars n ρ (σ.set w v) where
  nil := by
    rw [Env.set, if_neg, h.nil]
    rintro rfl
    simp at hw
  runtime := by
    rw [Env.set, if_neg, h.runtime]
    rintro rfl
    simp at hw
  locals x hx := by
    rw [Env.set, if_neg (localName_ne_dollar (hvars x hx).dollar (hvars x hx).ne_empty hw), h.locals x hx]
  temps i hi := by
    unfold Env.set
    split
    · exact ⟨v, rfl⟩
    · exact h.temps i hi

/-- A variable of the program gets a value, which may be its first one. -/
theorem bind_local (hvars : ∀ x ∈ vars, IsLocal L x) (h : Ready vars n ρ σ) {x : String}
    (hx : IsLocal L x) (v : Value) :
    Ready (x :: vars) n (ρ.set x v) (σ.set (localName x) v.js) where
  nil := by
    rw [Env.set, if_neg (localName_ne (by decide) hx.ne_nil).symm, h.nil]
  runtime := by
    rw [Env.set, if_neg (localName_ne (by decide) hx.ne_opal).symm, h.runtime]
  locals y hy := by
    by_cases hyx : y = x
    · rw [hyx, Env.set, if_pos rfl, Store.set, if_pos rfl]
    · have hmem : y ∈ vars := (List.mem_cons.mp hy).resolve_left hyx
      have hne : localName y ≠ localName x :=
        fun heq => hyx (localName_inj (hvars y hmem).dollar hx.dollar heq)
      rw [Env.set, if_neg hne, Store.set, if_neg hyx, h.locals y hmem]
  temps i hi := by
    rw [Env.set, if_neg (localName_ne_dollar hx.dollar hx.ne_empty (head?_temp _)).symm]
    exact h.temps i hi

theorem mono {vars' : List String} (h : Ready vars n ρ σ) (hsub : vars' ⊆ vars) :
    Ready vars' n ρ σ :=
  ⟨h.nil, h.runtime, fun x hx => h.locals x (hsub hx), h.temps⟩

theorem set_local (hvars : ∀ x ∈ vars, IsLocal L x) (h : Ready vars n ρ σ) {x : String}
    (hx : x ∈ vars) (v : Value) : Ready vars n (ρ.set x v) (σ.set (localName x) v.js) :=
  (h.bind_local hvars (hvars x hx) v).mono (List.subset_cons_self _ _)

end Ready

end RubyJs.Logic
