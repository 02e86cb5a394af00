import Mathlib.Data.List.DropRight
import Mathlib.Data.Prod.Lex
import RubyJs.Proofs.Token.Places

set_option autoImplicit false

/-! # Lines and columns tell places apart

People compare positions by the line, and on one line by the column, which is the order of reading.
Every character moves the position on in this order: a line end to the first column of the next line,
any other to the next column of its own. So a longer front of a text ends at a later position, however
many bytes its characters take, and a line and a column name one boundary only:

    é = 2⏎        boundary 0 is 1:1, 2 is 1:2, 6 is 1:6,
    b             7 is 2:1, 8 is 2:2, and so is every offset past the end
-/

namespace RubyJs.Position

/-- Line and column as a pair in lexicographic order. -/
def key (p : Position) : ℕ ×ₗ ℕ := toLex (p.line, p.column)

theorem key_lt_step (p : Position) (c : Char) : p.key < (p.step c).key := by
  apply Prod.Lex.toLex_lt_toLex.mpr
  unfold step
  split
  · exact Or.inl (Nat.lt_succ_self p.line)
  · exact Or.inr ⟨rfl, Nat.lt_succ_self p.column⟩

theorem key_le_foldl (p : Position) (w : List Char) : p.key ≤ (w.foldl step p).key := by
  induction w generalizing p with
  | nil => exact le_refl p.key
  | cons c cs ih => exact (key_lt_step p c).le.trans (ih (p.step c))

theorem key_lt_foldl (p : Position) {w : List Char} (hw : w ≠ []) :
    p.key < (w.foldl step p).key := by
  obtain ⟨c, cs, rfl⟩ := List.exists_cons_of_ne_nil hw
  exact (key_lt_step p c).trans_le (key_le_foldl (p.step c) cs)

/-- Going over `w` from the start of a text, the line counts the line ends of `w`, and the column
the characters behind the last of them. -/
theorem foldl_step_first (w : List Char) :
    w.foldl step first = ⟨w.count '\n' + 1, (w.rtakeWhile (· != '\n')).length + 1⟩ := by
  -- From the end: the last character alone decides where the column counts from.
  induction w using List.reverseRecOn with
  | nil => rfl
  | append_singleton cs c ih =>
      rw [List.foldl_append, ih, List.count_append, List.rtakeWhile_concat]
      by_cases hc : c = '\n'
      · subst hc
        rfl
      · simp [step, hc]

/-- Offsets at or past the end have the position of the end. -/
theorem walk_of_byteSize_le (p : Position) {cs : List Char} {offset : Nat}
    (h : byteSize cs ≤ offset) : p.walk cs offset = cs.foldl step p := by
  induction cs generalizing p offset with
  | nil => rfl
  | cons c cs ih =>
      rw [byteSize_cons] at h
      have hc : ¬ offset < c.utf8Size := by omega
      rw [walk, if_neg hc, List.foldl_cons]
      exact ih (p.step c) (by omega)

/-- Later boundaries have later positions. -/
theorem key_ofOffset_lt {text : String} {a b : Nat} (ha : Boundary text.toList a)
    (hb : Boundary text.toList b) (hlt : a < b) :
    (ofOffset text a).key < (ofOffset text b).key := by
  -- What stands before the later boundary is longer by what the span between the two covers.
  obtain ⟨w, hw⟩ := Span.exists_covers (s := ⟨a, b⟩) ha hb (Nat.le_of_lt hlt)
  obtain ⟨before, after, htext, hstart, hstop⟩ := hw
  replace hstart : a = byteSize before := hstart
  replace hstop : b = byteSize (before ++ w) := by rw [byteSize_append]; exact hstop
  have hne : w ≠ [] := by
    rintro rfl
    rw [List.append_nil] at hstop
    omega
  have hfront : ofOffset text a = before.foldl step first := by
    rw [ofOffset, htext, hstart, walk_byteSize]
  have hlonger : ofOffset text b = w.foldl step (before.foldl step first) := by
    rw [ofOffset, htext, hstop, ← List.append_assoc, walk_byteSize, List.foldl_append]
  rw [hfront, hlonger]
  exact key_lt_foldl _ hne

/-- **Positions identify places.** The line of a boundary counts the line ends before it and the
column the characters since the last one, both from one; later boundaries have later positions;
offsets at or past the end have the position of the end; and boundaries with one position are one
boundary. -/
theorem ofOffset_identifies (text : String) :
    (∀ before after, text.toList = before ++ after →
      ofOffset text (byteSize before)
        = ⟨before.count '\n' + 1, (before.rtakeWhile (· != '\n')).length + 1⟩)
    ∧ (∀ a b, Boundary text.toList a → Boundary text.toList b → a < b →
      (ofOffset text a).key < (ofOffset text b).key)
    ∧ (∀ a, byteSize text.toList ≤ a → ofOffset text a = ofOffset text (byteSize text.toList))
    ∧ ∀ a b, Boundary text.toList a → Boundary text.toList b →
      ofOffset text a = ofOffset text b → a = b := by
  refine ⟨?_, fun a b => key_ofOffset_lt, ?_, ?_⟩
  · intro before after htext
    rw [ofOffset, htext, walk_byteSize, foldl_step_first]
  · intro a ha
    rw [ofOffset, ofOffset, walk_of_byteSize_le first ha, walk_of_byteSize_le first le_rfl]
  · intro a b ha hb heq
    rcases Nat.lt_trichotomy a b with hlt | hab | hlt
    · exact absurd (congrArg key heq) (key_ofOffset_lt ha hb hlt).ne
    · exact hab
    · exact absurd (congrArg key heq.symm) (key_ofOffset_lt hb ha hlt).ne

/-- In `é⏎b` the line end stands at offset 2, behind a character of two bytes, and `b` at 3. -/
theorem ofOffset_identifies_accented :
    Boundary "é\nb".toList 2 ∧ Boundary "é\nb".toList 3
      ∧ (ofOffset "é\nb" 2).key < (ofOffset "é\nb" 3).key
      ∧ ofOffset "é\nb" 3 = ⟨2, 1⟩ ∧ ofOffset "é\nb" 9 = ofOffset "é\nb" 4 := by
  obtain ⟨hcount, hlt, hpast, -⟩ := ofOffset_identifies "é\nb"
  have hend : Boundary "é\nb".toList 2 := ⟨['é'], ['\n', 'b'], rfl, rfl⟩
  have hnext : Boundary "é\nb".toList 3 := ⟨['é', '\n'], ['b'], rfl, rfl⟩
  exact ⟨hend, hnext, hlt 2 3 hend hnext (by decide), hcount ['é', '\n'] ['b'] rfl,
    hpast 9 (by decide)⟩

end RubyJs.Position
