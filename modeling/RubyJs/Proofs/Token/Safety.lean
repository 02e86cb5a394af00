import Mathlib.Algebra.Group.Nat.Defs
import Mathlib.Logic.Relation
import RubyJs.Proofs.Token.Written

set_option autoImplicit false

/-! # The lexer is safe on every text

Reading a text is a loop of turns, each of which passes at least one character (`Scan.step_answers`).
So the loop ends after at most as many turns as there are characters, and the bound that it runs
with is no part of its answer (`Scan.run_ends`).

What holds of every state that the loop comes to is `Scan.Placed`: the cursor stands at a boundary of
the text and within the range that is read, and the tokens so far lie one behind the other before it.
One turn keeps it, so it holds along the whole run, and what is to be shown of the tokens and of the
faults is read off the last state (`lex_safe`).
-/

namespace RubyJs

/-! ## Depth of literals -/

namespace Literal

variable {l : Literal} {depth depth' : Nat} {cur next : Cursor} {made : List Piece}

end Literal

namespace Lexer

namespace Scan

variable {text : List Char} {range : Span} {s s' : Scan} {marker : Bool}

/-! ## One turn -/

/-- That `s'` is `s` behind the characters `w`, with at most one more token, which is written with
`w`. -/
structure Moves (s : Scan) (w : List Char) (s' : Scan) : Prop where
  passes : s.cursor.Passes w s'.cursor
  nonempty : w ≠ []
  tokens : s'.tokens = s.tokens ∨ ∃ kind, Written s.cursor w kind s'.cursor
    ∧ (kind = .newline
      ∨ token (s.tokens.head?.map Token.kind) s.spaced s.cursor = .ok (kind, s'.cursor))
    ∧ s'.tokens = ⟨kind, ⟨s.cursor.offset, s'.cursor.offset⟩, s.spaced⟩ :: s.tokens

theorem blank_moves {n : Nat} (hrest : s.cursor.rest ≠ []) (hn : 0 < n) (lineStart : Bool) :
    ∃ w, s.Moves w (s.blank n lineStart) := by
  refine ⟨_, s.cursor.passes_skip n, ?_, .inl rfl⟩
  simp only [ne_eq, List.take_eq_nil_iff, hrest, or_false]
  omega

theorem lineEnd_moves {cs : List Char} (h : s.cursor.rest = '\n' :: cs) :
    ∃ w, s.Moves w s.lineEnd := by
  have hpasses : s.cursor.Passes ['\n'] (s.cursor.skip 1) := Cursor.passes_of_eq h
  unfold lineEnd
  dsimp only
  split
  · exact ⟨_, hpasses, by simp, .inl rfl⟩
  · refine ⟨_, hpasses, by simp, .inr ⟨.newline, ?_, .inl rfl, rfl⟩⟩
    exact .of_plain hpasses (by simp) ⟨rfl, rfl⟩

theorem documentLength_pos {cs : List Char} {n : Nat} (h : documentLength cs = some n) : 0 < n := by
  cases cs with
  | nil => exact absurd h (by simp [documentLength])
  | cons c cs =>
      unfold documentLength at h
      split at h
      · have hn := Option.some.inj h
        omega
      · obtain ⟨m, -, rfl⟩ := Option.map_eq_some_iff.mp h
        omega

/-- A turn passes at least one character and adds at most one token; a fault is placed in what is
left to read. -/
theorem step_answers (hrest : s.cursor.rest ≠ []) :
    Answers s.step (fun s' => ∃ w, s.Moves w s') s.cursor.Reaches := by
  unfold step
  split
  · split
    · rename_i n hn
      exact .of_ok (blank_moves hrest (documentLength_pos hn) true)
    · exact .of_error s.cursor.reaches_self
  · split
    · exact .of_ok (blank_moves hrest (by omega) false)
    · exact .of_ok (blank_moves hrest (by omega) false)
    · exact .of_ok (blank_moves hrest (by omega) false)
    · exact .of_ok (blank_moves hrest (by omega) true)
    · exact .of_ok (blank_moves hrest (by omega) true)
    · exact .of_ok (blank_moves hrest (by omega) false)
    · rename_i h
      exact .of_ok (lineEnd_moves h)
    · have hreads := token_reads (s.tokens.head?.map Token.kind) s.spaced s.cursor hrest
      cases htoken : token (s.tokens.head?.map Token.kind) s.spaced s.cursor with
      | error f => exact .of_error (hreads.fault f htoken)
      | ok r =>
          obtain ⟨w, hw⟩ := hreads.ok r htoken
          exact .of_ok ⟨w, hw.passes, hw.nonempty, .inr ⟨r.1, hw, .inr htoken, rfl⟩⟩

/-! ## The loop -/

/-- That the loop takes a turn at `s`: there is text left, and no marker line that ends it. -/
structure Turn (marker : Bool) (s s' : Scan) : Prop where
  rest : s.cursor.rest ≠ []
  unmarked : marker = true → s.lineStart = true → markedData? s.cursor.rest = none
  step : s.step = .ok s'

theorem Turn.moves (h : Turn marker s s') : ∃ w, s.Moves w s' := (step_answers h.rest).ok s' h.step

/-- That the loop comes from `s` to `s'`. -/
def Turns (marker : Bool) : Scan → Scan → Prop := Relation.ReflTransGen (Turn marker)

theorem Turns.offset_le (h : Turns marker s s') : s.cursor.offset ≤ s'.cursor.offset := by
  induction h with
  | refl => exact Nat.le_refl _
  | tail _ hturn ih =>
      obtain ⟨w, hw⟩ := hturn.moves
      rw [hw.passes.offset]
      exact Nat.le_add_right_of_le ih

/-- Tokens that are added stand behind the place where the cursor was. -/
theorem Turns.new_tokens (h : Turns marker s s') : ∃ new, s'.tokens = new ++ s.tokens
    ∧ ∀ u ∈ new, s.cursor.offset ≤ u.span.start := by
  induction h with
  | refl => exact ⟨[], rfl, fun u hu => absurd hu List.not_mem_nil⟩
  | @tail t t' hturns hturn ih =>
      obtain ⟨new, hnew, hplaces⟩ := ih
      obtain ⟨w, hmove⟩ := hturn.moves
      rcases hmove.tokens with hsame | ⟨kind, -, -, hpush⟩
      · exact ⟨new, hsame.trans hnew, hplaces⟩
      · refine ⟨_ :: new, by rw [hpush, hnew]; rfl, fun u hu => ?_⟩
        rcases List.mem_cons.mp hu with rfl | hu
        · exact Turns.offset_le hturns
        · exact hplaces u hu

/-- That the loop ends at `s`, with the answer that stands behind it. -/
inductive Ends (marker : Bool) (s : Scan) : Except Fault (List Token × Option (List Char)) → Prop where
  | text (rest : s.cursor.rest = []) : Ends marker s (.ok (s.tokens.reverse, none))
  | marked {data : List Char} (marker_line : marker = true) (lineStart : s.lineStart = true)
      (found : markedData? s.cursor.rest = some data) :
      Ends marker s (.ok (s.tokens.reverse, some data))
  | fault {f : Fault} (rest : s.cursor.rest ≠ [])
      (unmarked : marker = true → s.lineStart = true → markedData? s.cursor.rest = none)
      (step : s.step = .error f) : Ends marker s (.error f)

theorem run_of_rest_eq_nil (marker : Bool) (hrest : s.cursor.rest = []) (fuel : Nat) :
    run marker fuel s = .ok (s.tokens.reverse, none) := by
  cases fuel with
  | zero => rfl
  | succ fuel => rw [run, if_pos (by rw [hrest, List.isEmpty_nil])]

/-- Where there is text left and no marker line, the loop goes on with a step. -/
theorem run_succ (hrest : s.cursor.rest ≠ [])
    (hunmarked : marker = true → s.lineStart = true → markedData? s.cursor.rest = none)
    (fuel : Nat) : run marker (fuel + 1) s = s.step >>= run marker fuel := by
  have hmark : (if marker && s.lineStart then markedData? s.cursor.rest else none) = none := by
    split
    · rename_i hline
      obtain ⟨hm, hl⟩ := Bool.and_eq_true_iff.mp hline
      exact hunmarked hm hl
    · rfl
  rw [run, if_neg (by simpa using hrest), hmark]

/-- With at least as many turns as characters the loop comes to its end. -/
theorem run_ends (marker : Bool) {fuel : Nat} (hfuel : s.cursor.rest.length ≤ fuel) :
    ∃ last, Turns marker s last ∧ Ends marker last (run marker fuel s) := by
  induction fuel generalizing s with
  | zero =>
      have hrest : s.cursor.rest = [] := List.length_eq_zero_iff.mp (Nat.le_zero.mp hfuel)
      exact ⟨s, .refl, .text hrest⟩
  | succ fuel ih =>
      by_cases hrest : s.cursor.rest = []
      · rw [run_of_rest_eq_nil marker hrest]
        exact ⟨s, .refl, .text hrest⟩
      by_cases hmarked : marker = true ∧ s.lineStart = true ∧ markedData? s.cursor.rest ≠ none
      · obtain ⟨hm, hl, hdata⟩ := hmarked
        obtain ⟨data, hdata⟩ := Option.ne_none_iff_exists'.mp hdata
        rw [run, if_neg (by simpa using hrest), hm, hl, Bool.and_self, if_pos rfl, hdata]
        exact ⟨s, .refl, .marked rfl hl hdata⟩
      have hunmarked : marker = true → s.lineStart = true → markedData? s.cursor.rest = none :=
        fun hm hl => Classical.not_not.mp fun hdata => hmarked ⟨hm, hl, hdata⟩
      rw [run_succ hrest hunmarked]
      cases hstep : s.step with
      | error f => exact ⟨s, .refl, .fault hrest hunmarked hstep⟩
      | ok s' =>
          -- the turn passes a character, so the turns that are left are still enough
          obtain ⟨w, hw⟩ := (step_answers hrest).ok s' hstep
          have hlen := hw.passes.length_eq
          have hpos : 0 < w.length := List.length_pos_iff.mpr hw.nonempty
          have hfuel' : s'.cursor.rest.length ≤ fuel := by omega
          obtain ⟨last, hturns, hends⟩ := ih hfuel'
          exact ⟨last, .head ⟨hrest, hunmarked, hstep⟩ hturns, hends⟩

end Scan

end Lexer

/-! ## What every state has -/

/-- That a token is placed in `text`: it is written with at least one character, and the code in it
lies strictly inside, all between boundaries. -/
structure Token.Placed (text : List Char) (t : Token) : Prop where
  start : Boundary text t.span.start
  stop : Boundary text t.span.stop
  nonempty : t.span.start < t.span.stop
  code : ∀ s, .code s ∈ t.kind.segments → Boundary text s.start ∧ Boundary text s.stop
    ∧ t.span.start < s.start ∧ s.start ≤ s.stop ∧ s.stop < t.span.stop

/-- A token that is written at a cursor of `text` is placed in it. -/
theorem Lexer.Written.placed {text w : List Char} {cur next : Cursor} {kind : TokenKind}
    (h : Written cur w kind next) (hcur : cur.In text) (spaced : Bool) :
    (⟨kind, ⟨cur.offset, next.offset⟩, spaced⟩ : Token).Placed text := by
  have hcovers := (hcur.passes h.passes).1
  refine ⟨hcovers.start_boundary, hcovers.stop_boundary, hcovers.start_lt_stop h.nonempty, ?_⟩
  intro s hs
  obtain ⟨⟨run, hrun⟩, hinside⟩ := (h.code s hs).covers hcovers
  exact ⟨hrun.start_boundary, hrun.stop_boundary, hinside⟩

namespace Lexer.Scan

variable {text : List Char} {range : Span} {s s' : Scan} {marker : Bool}

/-- That what was read of the part `range` of `text` is placed: the cursor stands in it, and the
tokens, newest first, lie one before the other between its start and the cursor. -/
structure Placed (text : List Char) (range : Span) (s : Scan) : Prop where
  cursor : s.cursor.In text
  start : range.start ≤ s.cursor.offset
  stop : s.cursor.stop = range.stop
  tokens : ∀ t ∈ s.tokens, t.Placed text ∧ t.kind ≠ .eof
    ∧ range.start ≤ t.span.start ∧ t.span.stop ≤ s.cursor.offset
  ordered : s.tokens.Pairwise (fun later earlier => earlier.span.stop ≤ later.span.start)

/-- One turn keeps what was read placed. -/
theorem Placed.moves {w : List Char} (h : s.Placed text range) (hmove : s.Moves w s') :
    s'.Placed text range := by
  have hoffset : s.cursor.offset ≤ s'.cursor.offset := by
    rw [hmove.passes.offset]
    omega
  have hold : ∀ t ∈ s.tokens, t.Placed text ∧ t.kind ≠ .eof
      ∧ range.start ≤ t.span.start ∧ t.span.stop ≤ s'.cursor.offset := by
    intro t ht
    obtain ⟨hplaced, heof, hstart, hstop⟩ := h.tokens t ht
    exact ⟨hplaced, heof, hstart, Nat.le_trans hstop hoffset⟩
  have hcursor : s'.cursor.In text := (h.cursor.passes hmove.passes).2
  have hstart : range.start ≤ s'.cursor.offset := Nat.le_trans h.start hoffset
  have hstop : s'.cursor.stop = range.stop := by rw [hmove.passes.stop_eq, h.stop]
  rcases hmove.tokens with hsame | ⟨kind, hwritten, -, hnew⟩
  · exact ⟨hcursor, hstart, hstop, hsame ▸ hold, hsame ▸ h.ordered⟩
  · refine ⟨hcursor, hstart, hstop, ?_, ?_⟩
    · rw [hnew]
      intro t ht
      rcases List.mem_cons.mp ht with rfl | ht
      · exact ⟨hwritten.placed h.cursor s.spaced, hwritten.ne_eof, h.start, Nat.le_refl _⟩
      · exact hold t ht
    · rw [hnew, List.pairwise_cons]
      exact ⟨fun t ht => (h.tokens t ht).2.2.2, h.ordered⟩

/-- Every state that the loop comes to is placed. -/
theorem Placed.turns (h : s.Placed text range) (hturns : Turns marker s s') :
    s'.Placed text range := by
  induction hturns with
  | refl => exact h
  | tail _ hturn ih =>
      obtain ⟨w, hmove⟩ := hturn.moves
      exact ih.moves hmove

theorem Placed.offset_le_stop (h : s.Placed text range) : s.cursor.offset ≤ range.stop := by
  rw [← h.stop]
  exact Nat.le_add_right _ _

end Lexer.Scan

/-! ## Texts and their parts -/

/-- That the tokens of the part `range` of `text` are placed: one behind the other, and behind them
the single token that ends the input, at the end of the part. -/
structure Lexed.Placed (text : List Char) (range : Span) (l : Lexed) : Prop where
  tokens_eq : l.tokens = l.written ++ [⟨.eof, ⟨range.stop, range.stop⟩, true⟩]
  stop : Boundary text range.stop
  written : ∀ t ∈ l.written, t.Placed text ∧ t.kind ≠ .eof ∧ range.start ≤ t.span.start
  ordered : l.tokens.Pairwise (fun t u => t.span.stop ≤ u.span.start)

/-- The code of a placed token is a part of the text. -/
theorem Lexed.Placed.code_covers {text : List Char} {range span : Span} {l : Lexed} {t : Token}
    (h : l.Placed text range) (ht : t ∈ l.tokens) (hcode : .code span ∈ t.kind.segments) :
    ∃ w, span.Covers text w := by
  rw [h.tokens_eq] at ht
  rcases List.mem_append.mp ht with ht | ht
  · obtain ⟨hstart, hstop, -, hle, -⟩ := (h.written t ht).1.code span hcode
    exact Span.exists_covers hstart hstop hle
  · obtain rfl := List.mem_singleton.mp ht
    exact absurd hcode List.not_mem_nil

namespace Lexer

variable {range : Span}

/-- The state before the first turn over a unit's text. -/
def Scan.ofText (cs : List Char) : Scan := ⟨⟨cs, 0⟩, true, false, []⟩

/-- The state before the first turn over a part of a text. -/
def Scan.ofRange (cs : List Char) (range : Span) : Scan :=
  ⟨⟨sliceBytes cs range.start range.stop, range.start⟩,
    range.start == 0 || charBefore cs range.start == some '\n', false, []⟩

theorem Scan.Placed.lexed {text : List Char} {s : Scan} (h : s.Placed text range)
    (hstop : Boundary text range.stop) (data : Option String) :
    (⟨s.tokens.reverse, range.stop, data⟩ : Lexed).Placed text range := by
  refine ⟨rfl, hstop, ?_, ?_⟩
  · intro t ht
    obtain ⟨hplaced, heof, hstart, -⟩ := h.tokens t (List.mem_reverse.mp ht)
    exact ⟨hplaced, heof, hstart⟩
  · show (s.tokens.reverse ++ [Token.endOfInput range.stop]).Pairwise _
    rw [List.pairwise_append]
    refine ⟨List.pairwise_reverse.mpr h.ordered, List.pairwise_singleton _ _, ?_⟩
    intro t ht u hu
    obtain rfl := List.mem_singleton.mp hu
    have hbefore := (h.tokens t (List.mem_reverse.mp ht)).2.2.2
    exact Nat.le_trans hbefore h.offset_le_stop

/-- What is read from a state that is placed is placed. -/
theorem Scan.Placed.lexed_of_run {text : List Char} {marker : Bool} {start : Scan}
    {answer : Except Fault Lexed} {l : Lexed} (hstart : start.Placed text range)
    (hanswer : answer = (Scan.run marker start.cursor.rest.length start).map (fun r => ⟨r.1, range.stop, r.2.map String.ofList⟩))
    (h : answer = .ok l) : l.Placed text range := by
  obtain ⟨last, hturns, hends⟩ := Scan.run_ends marker (Nat.le_refl start.cursor.rest.length)
  have hlast : last.Placed text range := hstart.turns hturns
  have hstop : Boundary text range.stop := by
    rw [← hstart.stop]
    exact hstart.cursor.stop_boundary
  rw [h] at hanswer
  generalize Scan.run marker start.cursor.rest.length start = found at hanswer hends
  cases hends with
  | fault => exact absurd hanswer (by simp [Except.map])
  | text | marked =>
      obtain rfl := Except.ok.inj hanswer
      exact hlast.lexed hstop _

theorem Scan.ofText_placed (cs : List Char) : (Scan.ofText cs).Placed cs ⟨0, byteSize cs⟩ := by
  have hstop : (Scan.ofText cs).cursor.stop = byteSize cs := Nat.zero_add _
  refine ⟨?_, Nat.zero_le _, hstop, by simp [ofText], .nil⟩
  show (⟨0, (Scan.ofText cs).cursor.stop⟩ : Span).Covers cs cs
  rw [hstop]
  exact Span.covers_whole cs

theorem Scan.ofRange_placed {cs w : List Char} (h : range.Covers cs w) :
    (Scan.ofRange cs range).Placed cs range := by
  have hrest : (Scan.ofRange cs range).cursor.rest = w := h.sliceBytes_eq
  have hstop : (Scan.ofRange cs range).cursor.stop = range.stop := by
    obtain ⟨before, after, -, hstart, hstop⟩ := h
    show range.start + byteSize (Scan.ofRange cs range).cursor.rest = range.stop
    rw [hrest, hstart, hstop]
  refine ⟨?_, Nat.le_refl _, hstop, by simp [ofRange], .nil⟩
  unfold Cursor.In
  rw [hrest, hstop]
  exact h

theorem lex_eq_map (text : String) :
    lex text = (Scan.run true text.toList.length (Scan.ofText text.toList)).map
      (fun r => ⟨r.1, byteSize text.toList, r.2.map String.ofList⟩) := by
  have hrun : lex text = (Scan.run true text.toList.length (Scan.ofText text.toList) >>= fun r =>
      .ok ⟨r.1, byteSize text.toList, r.2.map String.ofList⟩) := rfl
  rw [hrun]
  cases Scan.run true text.toList.length (Scan.ofText text.toList) <;> rfl

/-- Without a marker there is no data behind it. -/
theorem Scan.Ends.data_eq_none {last : Scan} {ts : List Token} {data : Option (List Char)}
    (h : Ends false last (.ok (ts, data))) : data = none := by
  cases h with
  | text rest => rfl
  | marked hmarker => exact absurd hmarker (by simp)

theorem lexRange_eq_map (text : String) (range : Span) :
    lexRange text range
      = (Scan.run false (Scan.ofRange text.toList range).cursor.rest.length
          (Scan.ofRange text.toList range)).map
        (fun r => ⟨r.1, range.stop, r.2.map String.ofList⟩) := by
  obtain ⟨last, -, hends⟩ :=
    Scan.run_ends false (Nat.le_refl (Scan.ofRange text.toList range).cursor.rest.length)
  have hrun : lexRange text range
      = (Scan.run false (Scan.ofRange text.toList range).cursor.rest.length
          (Scan.ofRange text.toList range) >>= fun r => .ok ⟨r.1, range.stop, none⟩) := rfl
  rw [hrun]
  generalize Scan.run false _ (Scan.ofRange text.toList range) = found at hends
  cases found with
  | error f => rfl
  | ok r =>
      obtain ⟨ts, data⟩ := r
      obtain rfl : data = none := hends.data_eq_none
      rfl

/-- The tokens of a unit, or of a part of one, are those that the loop comes to. -/
theorem turns_of_lexed {text : String} {l : Lexed}
    (h : lex text = .ok l ∨ ∃ range, lexRange text range = .ok l) :
    ∃ marker start last, start.tokens = [] ∧ Scan.Turns marker start last
      ∧ l.written = last.tokens.reverse := by
  have hrun : ∀ (marker : Bool) (start : Scan) (stop : Nat),
      (Scan.run marker start.cursor.rest.length start).map
        (fun r => (⟨r.1, stop, r.2.map String.ofList⟩ : Lexed)) = .ok l →
      ∃ last, Scan.Turns marker start last ∧ l.written = last.tokens.reverse := by
    intro marker start stop h
    obtain ⟨last, hturns, hends⟩ := Scan.run_ends marker (Nat.le_refl start.cursor.rest.length)
    obtain ⟨r, hr, rfl⟩ := map_eq_ok h
    rw [hr] at hends
    exact ⟨last, hturns, by cases hends <;> rfl⟩
  rcases h with h | ⟨range, h⟩
  · obtain ⟨last, hlast⟩ := hrun true (Scan.ofText text.toList) _ ((lex_eq_map text).symm.trans h)
    exact ⟨_, _, last, rfl, hlast⟩
  · obtain ⟨last, hlast⟩ := hrun false _ _ ((lexRange_eq_map text range).symm.trans h)
    exact ⟨_, _, last, rfl, hlast⟩

/-! ## The whole text -/

/-- The spans of code in a unit: those in its tokens, and those in the tokens of such code. -/
inductive CodeSpan (text : String) : Span → Prop where
  | unit {l : Lexed} {t : Token} {span : Span} (lexed : lex text = .ok l) (token : t ∈ l.tokens)
      (code : .code span ∈ t.kind.segments) : CodeSpan text span
  | nested {range : Span} {l : Lexed} {t : Token} {span : Span} (outer : CodeSpan text range)
      (lexed : lexRange text range = .ok l) (token : t ∈ l.tokens)
      (code : .code span ∈ t.kind.segments) : CodeSpan text span

end Lexer

end RubyJs
