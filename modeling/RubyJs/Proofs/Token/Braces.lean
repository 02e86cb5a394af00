import RubyJs.Token.Quote

set_option autoImplicit false

/-! # Where code in a literal ends

The code of an interpolation ends at the brace that closes it, and `codeLength` finds that brace
without reading tokens. It knows braces, which nest, and quoted runs, which hide what stands in them:

    a { b } c           braces nest
    f("}")              a quoted run hides the brace
    f("\"}")            in which a backslash hides the character after it

`Nests` states these rules as a grammar, and `codeLength_eq_some_iff` says that the code found is the
text that is nested by them.
-/

namespace RubyJs

/-- The characters that quote a run of code. -/
def IsQuote (c : Char) : Prop := c = '\x22' ∨ c = '\x27'

/-- The characters that mean something when the end of code is looked for. -/
def IsDelimiter (c : Char) : Prop := c = '{' ∨ c = '}' ∨ IsQuote c

instance (c : Char) : Decidable (IsQuote c) := inferInstanceAs (Decidable (_ ∨ _))

instance (c : Char) : Decidable (IsDelimiter c) := inferInstanceAs (Decidable (_ ∨ _))

/-- Text that a quote `q` does not end in: a backslash hides the character after it. -/
inductive QuotedRun (q : Char) : List Char → Prop where
  | nil : QuotedRun q []
  | char {c : Char} {w : List Char} (other : c ≠ q) (plain : c ≠ '\\') (tail : QuotedRun q w) :
      QuotedRun q (c :: w)
  | escape {w : List Char} (c : Char) (tail : QuotedRun q w) : QuotedRun q ('\\' :: c :: w)

/-- Code that leads from one depth of braces to another. -/
inductive Nests : Nat → List Char → Nat → Prop where
  | nil (d : Nat) : Nests d [] d
  | char {d e : Nat} {c : Char} {w : List Char} (plain : ¬ IsDelimiter c) (tail : Nests d w e) :
      Nests d (c :: w) e
  | opening {d e : Nat} {w : List Char} (tail : Nests (d + 1) w e) : Nests d ('{' :: w) e
  | closing {d e : Nat} {w : List Char} (tail : Nests d w e) : Nests (d + 1) ('}' :: w) e
  | quoted {d e : Nat} {q : Char} {run w : List Char} (quote : IsQuote q) (quoted : QuotedRun q run)
      (tail : Nests d w e) : Nests d (q :: (run ++ q :: w)) e

namespace QuotedRun

variable {q : Char} {u w : List Char}

theorem append (hu : QuotedRun q u) (hw : QuotedRun q w) : QuotedRun q (u ++ w) := by
  induction hu with
  | nil => exact hw
  | char other plain _ ih => exact .char other plain ih
  | escape c _ ih => exact .escape c ih

/-- Text without the quote, up to a character that is not a backslash. That character stands in for
the one that a backslash at the very end hides. -/
theorem of_not_mem {e : Char} (hq : e ≠ q) (he : e ≠ '\\') :
    ∀ {w : List Char}, q ∉ w → QuotedRun q (w ++ [e])
  | [], _ => .char hq he .nil
  | c :: w, hw => by
      obtain ⟨hc, htail⟩ : q ≠ c ∧ q ∉ w := by simpa using hw
      by_cases hslash : c = '\\'
      · subst hslash
        match w with
        | [] => exact .escape e .nil
        | d :: w =>
            have hrest : q ∉ w := fun h => htail (List.mem_cons_of_mem d h)
            exact .escape d (of_not_mem hq he hrest)
      · exact .char (fun h => hc h.symm) hslash (of_not_mem hq he htail)

/-- Text without the quote and without backslashes. -/
theorem of_plain (hw : ∀ c ∈ w, c ≠ q ∧ c ≠ '\\') : QuotedRun q w := by
  induction w with
  | nil => exact .nil
  | cons c w ih =>
      have hc := hw c List.mem_cons_self
      exact .char hc.1 hc.2 (ih fun d hd => hw d (List.mem_cons_of_mem c hd))

end QuotedRun

theorem IsQuote.ne_backslash {q : Char} (h : IsQuote q) : q ≠ '\\' := by
  rcases h with rfl | rfl <;> decide

namespace Nests

variable {d e f : Nat} {u w : List Char}

theorem append (hu : Nests d u e) (hw : Nests e w f) : Nests d (u ++ w) f := by
  induction hu with
  | nil => exact hw
  | char plain _ ih => exact .char plain (ih hw)
  | opening _ ih => exact .opening (ih hw)
  | closing _ ih => exact .closing (ih hw)
  | quoted quote run _ ih =>
      rw [List.cons_append, List.append_assoc, List.cons_append]
      exact .quoted quote run (ih hw)

/-- Code is nested in the same way inside of more braces. -/
theorem deeper (hw : Nests d w e) (k : Nat) : Nests (d + k) w (e + k) := by
  induction hw with
  | nil => exact .nil _
  | char plain _ ih => exact .char plain ih
  | opening _ ih =>
      rw [Nat.add_right_comm] at ih
      exact .opening ih
  | closing _ ih =>
      rw [Nat.add_right_comm]
      exact .closing ih
  | quoted quote run _ ih => exact .quoted quote run ih

/-- Text without delimiters keeps the depth. -/
theorem of_plain (hw : ∀ c ∈ w, ¬ IsDelimiter c) : Nests d w d := by
  induction w with
  | nil => exact .nil d
  | cons c w ih =>
      exact .char (hw c List.mem_cons_self) (ih fun x hx => hw x (List.mem_cons_of_mem c hx))

end Nests

/-! ## The code that is found -/

theorem codeLength_escape (q : Char) (d : Nat) (c : Char) (cs : List Char) :
    codeLength (some q) d ('\\' :: c :: cs) = (codeLength (some q) d cs).map (· + 2) := by
  rw [codeLength]
  simp

theorem codeLength_quoted {q c : Char} (hc : c ≠ '\\') (d : Nat) (cs : List Char) :
    codeLength (some q) d (c :: cs)
      = (codeLength (if c = q then none else some q) d cs).map (· + 1) := by
  rw [codeLength.eq_def]
  simp [hc]

theorem codeLength_plain {c : Char} (hc : ¬ IsDelimiter c) (d : Nat) (cs : List Char) :
    codeLength none d (c :: cs) = (codeLength none d cs).map (· + 1) := by
  obtain ⟨hopen, hclose, hdouble, hsingle⟩ :
      c ≠ '{' ∧ c ≠ '}' ∧ c ≠ '\x22' ∧ c ≠ '\x27' := by
    simpa [IsDelimiter, IsQuote] using hc
  rw [codeLength.eq_def]
  simp [hopen, hclose, hdouble, hsingle]

theorem codeLength_quote {q : Char} (hq : IsQuote q) (d : Nat) (cs : List Char) :
    codeLength none d (q :: cs) = (codeLength (some q) d cs).map (· + 1) := by
  rw [codeLength.eq_def]
  rcases hq with rfl | rfl <;> simp

theorem codeLength_opening (d : Nat) (cs : List Char) :
    codeLength none d ('{' :: cs) = (codeLength none (d + 1) cs).map (· + 1) := by
  rw [codeLength.eq_def]
  simp

theorem codeLength_closing (d : Nat) (cs : List Char) :
    codeLength none (d + 1) ('}' :: cs) = (codeLength none d cs).map (· + 1) := by
  rw [codeLength.eq_def]
  simp

/-- A quoted run is passed up to its quote. -/
theorem QuotedRun.codeLength_eq {q : Char} {w : List Char} (hw : QuotedRun q w) (hq : q ≠ '\\')
    (d : Nat) (rest : List Char) :
    codeLength (some q) d (w ++ q :: rest)
      = (codeLength none d rest).map (· + (w.length + 1)) := by
  induction hw with
  | nil => rw [List.nil_append, codeLength_quoted hq, if_pos rfl]; rfl
  | @char c w other plain _ ih =>
      rw [List.cons_append, codeLength_quoted plain, if_neg other, ih, Option.map_map]
      rfl
  | @escape w c _ ih =>
      rw [List.cons_append, List.cons_append, codeLength_escape, ih, Option.map_map]
      rfl

/-- Nested code is passed, and the depth behind it is the one it leads to. -/
theorem Nests.codeLength_eq {d e : Nat} {w : List Char} (hw : Nests d w e) (rest : List Char) :
    codeLength none d (w ++ rest) = (codeLength none e rest).map (· + w.length) := by
  induction hw with
  | nil => simp
  | char plain _ ih =>
      rw [List.cons_append, codeLength_plain plain, ih, Option.map_map]
      rfl
  | opening _ ih =>
      rw [List.cons_append, codeLength_opening, ih, Option.map_map]
      rfl
  | closing _ ih =>
      rw [List.cons_append, codeLength_closing, ih, Option.map_map]
      rfl
  | @quoted d e q run w quote hrun _ ih =>
      rw [List.cons_append, List.append_assoc, List.cons_append, codeLength_quote quote,
        hrun.codeLength_eq quote.ne_backslash, ih, Option.map_map, Option.map_map]
      congr 1
      funext n
      simp only [Function.comp_apply, List.length_cons, List.length_append]
      omega

/-- That the code at the front of `cs` ends after `n` characters, at a brace: it is nested, and where
it begins inside of a quoted run, that run ends first. -/
def EndsCode : Option Char → Nat → List Char → Nat → Prop
  | none, d, cs, n => ∃ w rest, cs = w ++ '}' :: rest ∧ w.length = n ∧ Nests d w 0
  | some q, d, cs, n => ∃ run w rest, cs = run ++ q :: (w ++ '}' :: rest)
      ∧ run.length + 1 + w.length = n ∧ QuotedRun q run ∧ Nests d w 0

theorem endsCode_of_codeLength {quote : Option Char} {d n : Nat} {cs : List Char}
    (h : codeLength quote d cs = some n) : EndsCode quote d cs n := by
  fun_induction codeLength quote d cs generalizing n with
  | case1 => exact absurd h (by simp)
  | case2 => exact absurd h (by simp)
  | case3 d c q hc x cs ih =>
      obtain ⟨m, hm, rfl⟩ := Option.map_eq_some_iff.mp h
      obtain ⟨run, w, rest, rfl, rfl, hrun, hw⟩ := ih hm
      obtain rfl : c = '\\' := by simpa using hc
      refine ⟨'\\' :: x :: run, w, rest, rfl, ?_, .escape x hrun, hw⟩
      simp only [List.length_cons]
      omega
  | case4 d c cs q hc ih =>
      obtain ⟨m, hm, rfl⟩ := Option.map_eq_some_iff.mp h
      replace hc : c ≠ '\\' := by simpa using hc
      by_cases hend : c = q
      · subst hend
        rw [if_pos (beq_self_eq_true c)] at ih hm
        obtain ⟨w, rest, rfl, rfl, hw⟩ := ih hm
        exact ⟨[], w, rest, rfl, by simp [Nat.add_comm], .nil, hw⟩
      · rw [if_neg (by simpa using hend)] at ih hm
        obtain ⟨run, w, rest, rfl, rfl, hrun, hw⟩ := ih hm
        refine ⟨c :: run, w, rest, rfl, ?_, .char hend hc hrun, hw⟩
        simp only [List.length_cons]
        omega
  | case5 c cs hc =>
      obtain rfl : c = '}' := by simpa using hc
      exact ⟨[], cs, rfl, Option.some.inj h, .nil 0⟩
  | case6 c cs hc d ih =>
      obtain ⟨m, hm, rfl⟩ := Option.map_eq_some_iff.mp h
      obtain ⟨w, rest, rfl, rfl, hw⟩ := ih hm
      obtain rfl : c = '}' := by simpa using hc
      exact ⟨'}' :: w, rest, rfl, rfl, .closing hw⟩
  | case7 d c cs hc ho ih =>
      obtain ⟨m, hm, rfl⟩ := Option.map_eq_some_iff.mp h
      obtain ⟨w, rest, rfl, rfl, hw⟩ := ih hm
      obtain rfl : c = '{' := by simpa using ho
      exact ⟨'{' :: w, rest, rfl, rfl, .opening hw⟩
  | case8 d c cs hc ho hq ih =>
      obtain ⟨m, hm, rfl⟩ := Option.map_eq_some_iff.mp h
      obtain ⟨run, w, rest, rfl, rfl, hrun, hw⟩ := ih hm
      have hquote : IsQuote c := by simpa [IsQuote] using hq
      refine ⟨c :: (run ++ c :: w), rest, ?_, ?_, .quoted hquote hrun hw⟩
      · simp
      · simp only [List.length_cons, List.length_append]
        omega
  | case9 d c cs hc ho hq ih =>
      obtain ⟨m, hm, rfl⟩ := Option.map_eq_some_iff.mp h
      obtain ⟨w, rest, rfl, rfl, hw⟩ := ih hm
      have hplain : ¬ IsDelimiter c := by
        simp only [IsDelimiter, IsQuote]
        simp_all
      exact ⟨c :: w, rest, rfl, rfl, .char hplain hw⟩

/-- **The code that is found is the nested one.** It ends at a brace, and what stands before the brace
leads from the depth at its front to depth zero. -/
theorem codeLength_eq_some_iff {d n : Nat} {cs : List Char} :
    codeLength none d cs = some n
      ↔ ∃ w rest, cs = w ++ '}' :: rest ∧ w.length = n ∧ Nests d w 0 := by
  constructor
  · exact endsCode_of_codeLength
  · rintro ⟨w, rest, rfl, rfl, hw⟩
    rw [hw.codeLength_eq]
    simp [codeLength]

end RubyJs
