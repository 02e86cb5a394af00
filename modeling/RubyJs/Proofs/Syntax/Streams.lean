import RubyJs.Proofs.Token.Safety
import RubyJs.Syntax.Stream

set_option autoImplicit false

/-! # Where a stream of tokens stands

A stream is made of the tokens of a unit, or of those of the code in one of its literals
(`Lexed.Cut`). It stands at one of them (`Stream.At`): taking tokens moves it on and never past the
last, which is the end of the input.

Every token but the last is written with at least one byte, so each one that is taken brings the
stream at least a byte closer to the end of the part that is read. Code lies strictly inside of its
token, so it is shorter than what was left where the token stood.
-/

namespace RubyJs

/-! ## Standing at a token -/

/-- That `s` stands at the index `i` of the tokens `ts`. -/
structure Stream.At (ts : List Token) (i : Nat) (s : Stream) : Prop where
  current : ts[i]? = some s.current
  following : ts.drop (i + 1) = s.following
  previous : s.previous = if i = 0 then none else ts[i - 1]?

namespace Stream

variable {ts : List Token} {i : Nat} {s : Stream}

theorem At.lt_length (h : s.At ts i) : i < ts.length := (List.getElem?_eq_some_iff.mp h.current).1

theorem At.add_length (h : s.At ts i) : i + s.length = ts.length := by
  have hlt := h.lt_length
  have hfollowing : s.following.length = ts.length - (i + 1) := by
    rw [← h.following, List.length_drop]
  unfold length
  omega

/-- A stream with tokens behind the current one moves on to the next. -/
theorem At.next (h : s.At ts i) (hnext : s.following ≠ []) : s.next.At ts (i + 1) := by
  obtain ⟨t, rest, hrest⟩ := List.exists_cons_of_ne_nil hnext
  have hdrop : ts.drop (i + 1) = t :: rest := h.following.trans hrest
  have heq : s.next = ⟨some s.current, t, rest⟩ := by
    unfold Stream.next
    rw [hrest]
  rw [heq]
  refine ⟨?_, ?_, ?_⟩
  · rw [← List.head?_drop, hdrop]
    rfl
  · rw [← List.tail_drop, hdrop]
    rfl
  · show some s.current = _
    rw [if_neg (Nat.succ_ne_zero i), Nat.add_sub_cancel, h.current]

theorem next_of_following_eq_nil (h : s.following = []) : s.next = s := by
  unfold Stream.next
  rw [h]

/-- Skipping never moves back. -/
theorem At.skipWhile (h : s.At ts i) (p : TokenKind → Bool) :
    ∃ j, i ≤ j ∧ (s.skipWhile p).At ts j := by
  obtain ⟨previous, current, following⟩ := s
  show ∃ j, i ≤ j ∧ (skipWhile.go p previous current following).At ts j
  induction following generalizing previous current i with
  | nil => exact ⟨i, Nat.le_refl i, h⟩
  | cons t rest ih =>
      unfold skipWhile.go
      split
      · have hnext : (⟨some current, t, rest⟩ : Stream).At ts (i + 1) := h.next (List.cons_ne_nil _ _)
        obtain ⟨j, hj, hat⟩ := ih _ _ hnext
        exact ⟨j, by omega, hat⟩
      · exact ⟨i, Nat.le_refl i, h⟩

theorem ofLexed_at (l : Lexed) : (ofLexed l).At l.tokens 0 := by
  unfold ofLexed Lexed.tokens
  split
  · rename_i hwritten
    rw [hwritten]
    exact ⟨rfl, rfl, rfl⟩
  · rename_i t rest hwritten
    rw [hwritten]
    exact ⟨rfl, rfl, rfl⟩

/-- Only the last token is the end of the input. -/
theorem At.following_ne_nil {l : Lexed} (h : s.At l.tokens i) (hkind : s.current.kind ≠ .eof) :
    s.following ≠ [] := by
  intro hnil
  have hlength : i + 1 = l.tokens.length := by
    rw [← h.add_length, length, hnil]
    rfl
  have hlast : l.tokens[i]? = some (Token.endOfInput l.stop) := by
    unfold Lexed.tokens at hlength ⊢
    rw [List.length_append, List.length_singleton] at hlength
    rw [List.getElem?_append_right (by omega), show i - l.written.length = 0 by omega]
    rfl
  rw [h.current] at hlast
  rw [Option.some.inj hlast] at hkind
  exact hkind rfl

end Stream

/-! ## Offsets of tokens -/

namespace Lexed.Placed

variable {text : List Char} {range : Span} {l : Lexed} {i : Nat} {t : Token}

theorem getElem?_last (h : l.Placed text range) :
    l.tokens[l.written.length]? = some ⟨.eof, ⟨range.stop, range.stop⟩, true⟩ := by
  rw [h.tokens_eq, List.getElem?_append_right (Nat.le_refl _), Nat.sub_self]
  rfl

/-- A token with another one behind it is written. -/
theorem written_of_lt (h : l.Placed text range) (ht : l.tokens[i]? = some t)
    (hi : i + 1 < l.tokens.length) : t ∈ l.written := by
  rw [h.tokens_eq, List.length_append, List.length_singleton] at hi
  rw [h.tokens_eq, List.getElem?_append_left (by omega)] at ht
  exact List.mem_of_getElem? ht

theorem stop_le_start (h : l.Placed text range) {j : Nat} {u : Token} (ht : l.tokens[i]? = some t)
    (hu : l.tokens[j]? = some u) (hij : i < j) : t.span.stop ≤ u.span.start := by
  obtain ⟨hi, rfl⟩ := List.getElem?_eq_some_iff.mp ht
  obtain ⟨hj, rfl⟩ := List.getElem?_eq_some_iff.mp hu
  exact List.pairwise_iff_getElem.mp h.ordered i j hi hj hij

/-- From one token to another there is at least a byte for each token between. -/
theorem start_add_le (h : l.Placed text range) {n : Nat} {u : Token} (ht : l.tokens[i]? = some t)
    (hu : l.tokens[i + n]? = some u) : t.span.start + n ≤ u.span.start := by
  induction n generalizing u with
  | zero =>
      rw [Nat.add_zero, ht] at hu
      rw [Option.some.inj hu]
      omega
  | succ n ih =>
      have hlt : i + (n + 1) < l.tokens.length := (List.getElem?_eq_some_iff.mp hu).1
      have hv : l.tokens[i + n]? = some l.tokens[i + n] := List.getElem?_eq_getElem (by omega)
      have hstart := ih hv
      have hnonempty := (h.written _ (h.written_of_lt hv (by omega))).1.nonempty
      have hstop := h.stop_le_start hv hu (by omega)
      omega

theorem start_le_stop (h : l.Placed text range) (ht : l.tokens[i]? = some t) :
    t.span.start ≤ range.stop := by
  have hlt : i < l.tokens.length := (List.getElem?_eq_some_iff.mp ht).1
  rw [h.tokens_eq, List.length_append, List.length_singleton] at hlt
  have hlast : l.tokens[i + (l.written.length - i)]?
      = some ⟨.eof, ⟨range.stop, range.stop⟩, true⟩ := by
    rw [show i + (l.written.length - i) = l.written.length by omega]
    exact h.getElem?_last
  have hle := h.start_add_le ht hlast
  exact Nat.le_trans (Nat.le_add_right _ _) hle

/-- Code is shorter than what is left of the part where its token stands. -/
theorem code_lt (h : l.Placed text range) (ht : l.tokens[i]? = some t) {span : Span}
    (hcode : .code span ∈ t.kind.segments) :
    t.span.start < span.start ∧ span.start ≤ span.stop ∧ span.stop < range.stop := by
  have hne : t.kind ≠ .eof := by
    intro heq
    rw [heq] at hcode
    exact absurd hcode List.not_mem_nil
  have hi : i < l.written.length := by
    apply Classical.byContradiction
    intro hnot
    have hlt : i < l.tokens.length := (List.getElem?_eq_some_iff.mp ht).1
    rw [h.tokens_eq, List.length_append, List.length_singleton] at hlt
    rw [show i = l.written.length by omega, h.getElem?_last] at ht
    exact hne (congrArg Token.kind (Option.some.inj ht)).symm
  have hwritten : t ∈ l.written := by
    refine h.written_of_lt ht ?_
    rw [h.tokens_eq, List.length_append, List.length_singleton]
    omega
  obtain ⟨-, -, hstart, hle, hstop⟩ := (h.written t hwritten).1.code span hcode
  have hend : t.span.stop ≤ range.stop := h.stop_le_start ht h.getElem?_last hi
  exact ⟨hstart, hle, by omega⟩

/-- Every token begins in the part that is read. -/
theorem start_le_start (h : l.Placed text range) (ht : t ∈ l.tokens)
    (hle : range.start ≤ range.stop) : range.start ≤ t.span.start := by
  rw [h.tokens_eq] at ht
  rcases List.mem_append.mp ht with ht | ht
  · exact (h.written t ht).2.2
  · rw [List.mem_singleton.mp ht]
    exact hle

end Lexed.Placed

/-! ## The parts of a text that are read -/

open Lexer in
/-- That `l` are the tokens of the part `range` of a unit: of all of it, or of code in it. -/
inductive Lexed.Cut (text : String) : Span → Lexed → Prop where
  | unit {l : Lexed} (lexed : lex text = .ok l) : Cut text ⟨0, byteSize text.toList⟩ l
  | code {range : Span} {l : Lexed} (code : CodeSpan text range)
      (lexed : lexRange text range = .ok l) : Cut text range l

namespace Lexer

variable {text : String} {range : Span} {l : Lexed}

theorem lex_placed (h : lex text = .ok l) : l.Placed text.toList ⟨0, byteSize text.toList⟩ :=
  (Scan.ofText_placed text.toList).lexed_of_run (lex_eq_map text) h

theorem lexRange_placed {w : List Char} (hrange : range.Covers text.toList w)
    (h : lexRange text range = .ok l) : l.Placed text.toList range :=
  (Scan.ofRange_placed hrange).lexed_of_run (lexRange_eq_map text range) h

/-- Code is a part of the text, however deep it lies in other code. -/
theorem CodeSpan.covers (h : CodeSpan text range) : ∃ w, range.Covers text.toList w := by
  induction h with
  | unit lexed token code => exact (lex_placed lexed).code_covers token code
  | nested _ lexed token code ih =>
      obtain ⟨w, hw⟩ := ih
      exact (lexRange_placed hw lexed).code_covers token code

end Lexer

namespace Lexed.Cut

variable {text : String} {range span : Span} {l : Lexed} {t : Token}

theorem placed (h : Cut text range l) : l.Placed text.toList range := by
  cases h with
  | unit lexed => exact Lexer.lex_placed lexed
  | code code lexed =>
      obtain ⟨w, hw⟩ := code.covers
      exact Lexer.lexRange_placed hw lexed

/-- The code in the tokens of a part is code of the unit. -/
theorem codeSpan (h : Cut text range l) (ht : t ∈ l.tokens) (hcode : .code span ∈ t.kind.segments) :
    Lexer.CodeSpan text span := by
  cases h with
  | unit lexed => exact .unit lexed ht hcode
  | code code lexed => exact .nested code lexed ht hcode

end Lexed.Cut

end RubyJs
