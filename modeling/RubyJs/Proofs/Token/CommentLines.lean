import RubyJs.Proofs.Token.Cutting
import RubyJs.Proofs.Token.Relocation

set_option autoImplicit false

/-! # Comment lines

A line that is only a comment is read between two line ends:

    a                 a
    b                 # first a, then b
                      b

The text before it is read as it was, and the text behind it as well, a line further down. Its own line
end is dropped, like that of an empty line, so the tokens are the same, but for the offsets of those
behind it (`lex_commentLine`). One thing is different: a comment hides a dot at the front of the next
line, which would have continued the line before.
-/

namespace RubyJs

namespace Lexer

/-- That a line is only a comment, perhaps behind blanks. -/
def IsCommentLine (line : List Char) : Prop :=
  ∃ indent words, line = indent ++ '#' :: (words ++ ['\n'])
    ∧ (∀ c ∈ indent, c = ' ' ∨ c = '\t' ∨ c = '\r') ∧ '\n' ∉ words

theorem IsCommentLine.dotFollows_append {line : List Char} (h : IsCommentLine line)
    (after : List Char) : dotFollows (line ++ after) = false := by
  obtain ⟨indent, words, rfl, hindent, -⟩ := h
  have hblank : indent.all isBlank = true := by
    refine List.all_eq_true.mpr fun c hc => ?_
    rcases hindent c hc with rfl | rfl | rfl <;> rfl
  rw [List.append_assoc, dotFollows_append_blank hblank]
  rfl

namespace Scan

variable {s t : Scan} {marker : Bool} {c : Char} {rest after : List Char}

/-! ## Turns -/

/-- What does not begin a document or a marker line takes a turn of its own. -/
theorem Turn.of_gap (hrest : s.cursor.rest = c :: rest) (hc : c ≠ '=') (hc' : c ≠ '_')
    (hstep : (match gap (c :: rest) with
      | .blank n lineStart => .ok (s.blank n lineStart)
      | .lineEnd => .ok s.lineEnd
      | .none => token (s.tokens.head?.map Token.kind) s.spaced s.cursor >>= fun r =>
          .ok (s.push r.1 r.2)) = Except.ok t) : Turn marker s t := by
  have hbegin : startsWith "=begin" s.cursor.rest = false := by
    rw [hrest]
    show ('=' == c && _) = false
    rw [beq_false_of_ne (Ne.symm hc), Bool.false_and]
  have hmarker : startsWith "__END__" s.cursor.rest = false := by
    rw [hrest]
    show ('_' == c && _) = false
    rw [beq_false_of_ne (Ne.symm hc'), Bool.false_and]
  refine ⟨by simp [hrest], fun _ _ => ?_, ?_⟩
  · rw [markedData?, hmarker]
    rfl
  · rw [step_eq, hbegin, Bool.and_false, if_neg Bool.false_ne_true, hrest]
    exact hstep

theorem Turn.of_lineEnd (hrest : s.cursor.rest = '\n' :: rest) : Turn marker s s.lineEnd :=
  .of_gap hrest (by decide) (by decide) rfl

/-- Blanks and a comment are read up to the end of the line. -/
theorem turns_comment {indent words : List Char}
    (hrest : s.cursor.rest = indent ++ '#' :: (words ++ '\n' :: after))
    (hindent : ∀ c ∈ indent, c = ' ' ∨ c = '\t' ∨ c = '\r') (hwords : '\n' ∉ words) :
    Turns marker s ⟨⟨'\n' :: after, s.cursor.offset + byteSize (indent ++ '#' :: words)⟩, false, true,
      s.tokens⟩ := by
  induction indent generalizing s with
  | nil =>
      have htake : (words ++ '\n' :: after).takeWhile (· != '\n') = words := by
        have hall : ∀ c ∈ words, (c != '\n') = true := by
          intro c hc
          simp only [bne_iff_ne, ne_eq]
          rintro rfl
          exact hwords hc
        rw [List.takeWhile_append_of_pos hall]
        exact List.append_nil words
      have hgap : gap ('#' :: (words ++ '\n' :: after)) = .blank (1 + words.length) false := by
        rw [gap, htake]
      have hskip : s.cursor.skip (1 + words.length) =
          ⟨'\n' :: after, s.cursor.offset + byteSize ('#' :: words)⟩ := by
        rw [Nat.add_comm]
        exact Cursor.skip_length (w := '#' :: words) hrest
      refine .single (.of_gap hrest (by decide) (by decide) ?_)
      rw [hgap]
      show Except.ok (s.blank (1 + words.length) false) = _
      rw [blank, hskip]
      rfl
  | cons c indent ih =>
      have hgap : ∀ cs, gap (c :: cs) = .blank 1 false := by
        intro cs
        rcases hindent c List.mem_cons_self with rfl | rfl | rfl <;> rfl
      have hc : c ≠ '=' ∧ c ≠ '_' := by
        rcases hindent c List.mem_cons_self with rfl | rfl | rfl <;> decide
      have hskip : s.cursor.skip 1 =
          ⟨indent ++ '#' :: (words ++ '\n' :: after), s.cursor.offset + byteSize [c]⟩ :=
        Cursor.skip_length (w := [c]) hrest
      have hturn : Turn marker s (s.blank 1 false) :=
        .of_gap hrest hc.1 hc.2 (by rw [hgap])
      have hturns := ih (s := s.blank 1 false) (by rw [blank, hskip])
        fun d hd => hindent d (List.mem_cons_of_mem c hd)
      rw [blank, hskip] at hturns
      rw [blank, hskip] at hturn
      rw [List.cons_append, byteSize_cons, ← Nat.add_assoc]
      exact .head hturn hturns

/-- A comment line behind tokens after which a line goes on leaves nothing behind. -/
theorem turns_commentLine {line : List Char} (hline : IsCommentLine line)
    (hrest : s.cursor.rest = line ++ after) (hgoes : goesOn s.tokens = true) :
    Turns marker s ⟨⟨after, s.cursor.offset + byteSize line⟩, true, true, s.tokens⟩ := by
  obtain ⟨indent, words, rfl, hindent, hwords⟩ := hline
  have hrest' : s.cursor.rest = indent ++ '#' :: (words ++ '\n' :: after) := by
    rw [hrest]
    simp
  refine Relation.ReflTransGen.tail (turns_comment hrest' hindent hwords) ?_
  let u : Scan :=
    ⟨⟨'\n' :: after, s.cursor.offset + byteSize (indent ++ '#' :: words)⟩, false, true, s.tokens⟩
  have hend : Turn marker u u.lineEnd := .of_lineEnd rfl
  rw [lineEnd_eq, lineEndDropped_eq, hgoes] at hend
  have hsize : byteSize (indent ++ '#' :: (words ++ ['\n'])) =
      byteSize (indent ++ '#' :: words) + byteSize ['\n'] := by
    simp [byteSize_append, byteSize_cons, Nat.add_assoc]
  rw [hsize, ← Nat.add_assoc]
  exact hend

/-! ## Runs -/

/-- With at least as many turns as characters, the bound on the turns means nothing. -/
theorem run_enough {n m : Nat} (hn : s.cursor.rest.length ≤ n) (hm : s.cursor.rest.length ≤ m) :
    run marker n s = run marker m s := by
  induction n generalizing m s with
  | zero =>
      have hrest : s.cursor.rest = [] := List.length_eq_zero_iff.mp (Nat.le_zero.mp hn)
      rw [run_of_rest_eq_nil marker hrest, run_of_rest_eq_nil marker hrest]
  | succ n ih =>
      by_cases hrest : s.cursor.rest = []
      · rw [run_of_rest_eq_nil marker hrest, run_of_rest_eq_nil marker hrest]
      · have hpos : 0 < s.cursor.rest.length := List.length_pos_iff.mpr hrest
        obtain ⟨m, rfl⟩ : ∃ k, m = k + 1 := ⟨m - 1, by omega⟩
        rw [run, run]
        split
        · rfl
        split
        · rfl
        · cases hstep : s.step with
          | error f => rfl
          | ok s' =>
              -- the turn passes a character, so the turns that are left are still enough
              obtain ⟨w, hw⟩ := (step_answers hrest).ok s' hstep
              have hlength := hw.passes.length_eq
              have hw : 0 < w.length := List.length_pos_iff.mpr hw.nonempty
              exact ih (by omega) (by omega)

/-- A run goes through the states that the loop comes to. -/
theorem Turns.run_eq (h : Turns marker s t) {n m : Nat} (hn : s.cursor.rest.length ≤ n)
    (hm : t.cursor.rest.length ≤ m) : run marker n s = run marker m t := by
  induction h using Relation.ReflTransGen.head_induction_on generalizing n with
  | refl => exact run_enough hn hm
  | @head s s' hturn _ ih =>
      obtain ⟨w, hw⟩ := hturn.moves
      have hlength := hw.passes.length_eq
      have hpos : 0 < w.length := List.length_pos_iff.mpr hw.nonempty
      obtain ⟨n, rfl⟩ : ∃ k, n = k + 1 := ⟨n - 1, by omega⟩
      rw [run_succ hturn.rest hturn.unmarked, hturn.step]
      exact ih (by omega)

theorem run_new_tokens {n : Nat} (hn : s.cursor.rest.length ≤ n) {r : List Token × Option (List Char)}
    (h : run marker n s = .ok r) : ∃ new, r.1 = s.tokens.reverse ++ new
      ∧ ∀ u ∈ new, s.cursor.offset ≤ u.span.start := by
  obtain ⟨last, hturns, hends⟩ := run_ends marker hn
  obtain ⟨new, hnew, hplaces⟩ := Turns.new_tokens hturns
  refine ⟨new.reverse, ?_, fun u hu => hplaces u (List.mem_reverse.mp hu)⟩
  rw [← List.reverse_append, ← hnew]
  rw [h] at hends
  generalize hr : Except.ok r = answer at hends
  cases hends with
  | text | marked => rw [Except.ok.inj hr]
  | fault => cases hr

/-! ## The text with the line -/

/-- With a comment line behind a line end, the loop comes to the state behind that line end, further
down. -/
theorem Turns.insert {lines line after : List Char} (hlines : LineEnded lines)
    (hline : IsCommentLine line) (h : Turns true (ofText (lines ++ after)) s)
    (hrest : s.cursor.rest = '\n' :: after) (hdot : dotFollows after = true → goesOn s.tokens = true)
    (hgoes : goesOn s.lineEnd.tokens = true) :
    ∃ t, Turns true (ofText (lines ++ (line ++ after))) t
      ∧ Relocated (byteSize line) s.lineEnd.tokens s.lineEnd.tokens s.lineEnd t := by
  have hhidden := hline.dotFollows_append after
  obtain ⟨s₀, rfl, -, hturns⟩ := Turns.swap (s := ofText lines) h rfl hlines
    (by rw [hrest, List.length_cons]; omega) hdot hhidden
  have hrest₀ : s₀.cursor.rest = ['\n'] := List.append_cancel_right hrest
  have hskip : ∀ more, (s₀.append more).cursor.skip 1 = ⟨more, s₀.cursor.offset + 1⟩ := fun more =>
    Cursor.skip_length (w := ['\n']) (by simp [append, hrest₀])
  -- both line ends are dropped, or neither is
  have hdropped : lineEndDropped s₀.tokens (line ++ after) = lineEndDropped s₀.tokens after := by
    rw [lineEndDropped_eq, lineEndDropped_eq, hhidden, Bool.or_false]
    by_cases hfollows : dotFollows after = true
    · have hgoes₀ : goesOn s₀.tokens = true := hdot hfollows
      rw [hgoes₀, Bool.true_or]
    · rw [Bool.eq_false_iff.mpr hfollows, Bool.or_false]
  have hend : (s₀.append (line ++ after)).lineEnd =
      ⟨⟨line ++ after, s₀.cursor.offset + 1⟩, true, true, (s₀.append after).lineEnd.tokens⟩ := by
    rw [lineEnd_eq, lineEnd_eq, hskip, hskip]
    show Scan.mk _ _ _ (if lineEndDropped s₀.tokens (line ++ after) then _ else _) = _
    rw [hdropped]
    rfl
  have hrest' : (s₀.append (line ++ after)).cursor.rest = '\n' :: (line ++ after) := by
    simp [append, hrest₀]
  have hturn : Turn true (s₀.append (line ++ after)) (s₀.append (line ++ after)).lineEnd :=
    .of_lineEnd hrest'
  rw [hend] at hturn
  refine ⟨_, (Relation.ReflTransGen.tail hturns hturn).trans (turns_commentLine hline rfl hgoes), ?_⟩
  refine ⟨?_, ?_, ?_, rfl, [], rfl, rfl⟩
  · rw [lineEnd_eq, hskip]
    rfl
  · rw [lineEnd_eq]
  · rw [lineEnd_eq]

end Scan

end Lexer

open Lexer in
/-- **A comment line changes no token**, but for the offsets behind it, if the line before goes on by
itself where a dot follows, and if nothing is left of a second line end. -/
theorem lex_commentLine {before after line : String} (hline : IsCommentLine line.toList) {s : Scan}
    (hturns : Scan.Turns true (.ofText (before ++ "\n" ++ after).toList) s)
    (hrest : s.cursor.rest = '\n' :: after.toList)
    (hdot : dotFollows after.toList = true → goesOn s.tokens = true)
    (hgoes : goesOn s.lineEnd.tokens = true) {l : Lexed}
    (hlex : lex (before ++ "\n" ++ after) = .ok l) :
    ∃ old new, l.written = old ++ new
      ∧ lex (before ++ "\n" ++ line ++ after) = .ok ⟨old ++ new.map (Token.shift (byteSize line.toList)),
        l.stop + byteSize line.toList, l.endData⟩
      ∧ (∀ t ∈ old, t.span.stop ≤ byteSize (before ++ "\n").toList)
      ∧ ∀ t ∈ new, byteSize (before ++ "\n").toList ≤ t.span.start := by
  have htext : (before ++ "\n" ++ after).toList = (before ++ "\n").toList ++ after.toList :=
    String.toList_append
  have htext' : (before ++ "\n" ++ line ++ after).toList =
      (before ++ "\n").toList ++ (line.toList ++ after.toList) := by
    simp only [String.toList_append, List.append_assoc]
  have hlines : LineEnded (before ++ "\n").toList := by
    show (before ++ "\n").toList.getLast? = some '\n'
    simp
  -- the two states behind the line end
  have hend : Scan.Turns true (.ofText (before ++ "\n" ++ after).toList) s.lineEnd :=
    .tail hturns (.of_lineEnd hrest)
  have hplaced := (Scan.ofText_placed _).turns hend
  have hcursor : s.lineEnd.cursor = ⟨after.toList, byteSize (before ++ "\n").toList⟩ := by
    have hnext : s.lineEnd.cursor.rest = after.toList := by
      rw [Scan.lineEnd_eq]
      simp [Cursor.skip, hrest]
    have hstop : s.lineEnd.cursor.stop = byteSize (before ++ "\n" ++ after).toList := hplaced.stop
    rw [Cursor.stop, hnext, htext, byteSize_append] at hstop
    generalize s.lineEnd.cursor = cur at hnext hstop
    obtain ⟨rest, offset⟩ := cur
    obtain rfl : rest = after.toList := hnext
    exact congrArg (Cursor.mk _) (Nat.add_right_cancel hstop)
  rw [htext] at hturns
  obtain ⟨t, hturns', hrelocated⟩ := Scan.Turns.insert hlines hline hturns hrest hdot hgoes
  have hrest' : t.cursor.rest = s.lineEnd.cursor.rest := by
    rw [hrelocated.cursor]
    rfl
  -- from there both runs are the same
  obtain ⟨r, hrun, rfl⟩ := map_eq_ok ((lex_eq_map _).symm.trans hlex)
  have hsplit : Scan.run true s.lineEnd.cursor.rest.length s.lineEnd = .ok r :=
    (Scan.Turns.run_eq hend (Nat.le_refl _) (Nat.le_refl _)).symm.trans hrun
  obtain ⟨new, hnew, hplaces⟩ := Scan.run_new_tokens (Nat.le_refl _) hsplit
  have hagree := hrelocated.run true s.lineEnd.cursor.rest.length
  rw [hsplit] at hagree
  generalize hfound : Scan.run true _ t = found at hagree
  generalize hr : Except.ok r = x at hagree
  cases hagree with
  | fault => cases hr
  | @ok _ r' hrelated =>
      obtain rfl := Except.ok.inj hr
      obtain ⟨hdata, new', hold, hold'⟩ := hrelated
      obtain rfl : new = new' := List.append_cancel_left (hnew.symm.trans hold)
      refine ⟨s.lineEnd.tokens.reverse, new, hnew, ?_, ?_, ?_⟩
      · have hrun' : Scan.run true (before ++ "\n" ++ line ++ after).toList.length
            (.ofText (before ++ "\n" ++ line ++ after).toList) = .ok r' := by
          rw [htext']
          exact (Scan.Turns.run_eq hturns' (Nat.le_refl _) (hrest' ▸ Nat.le_refl _)).trans hfound
        have hsize : byteSize (before ++ "\n" ++ line ++ after).toList =
            byteSize (before ++ "\n" ++ after).toList + byteSize line.toList := by
          rw [htext, htext']
          simp only [byteSize_append]
          omega
        have hlex' := (lex_eq_map _).trans (congrArg _ hrun')
        rw [hlex', hsize]
        show Except.ok (Lexed.mk r'.1 _ (r'.2.map String.ofList)) = _
        rw [hdata, hold']
      · intro u hu
        have hbefore := (hplaced.tokens u (List.mem_reverse.mp hu)).2.2.2
        rwa [hcursor] at hbefore
      · intro u hu
        have hbehind := hplaces u hu
        rwa [hcursor] at hbehind

/-! ## Code behind the line -/

theorem Boundary.of_append {text more : List Char} {offset : Nat} (h : Boundary (text ++ more) offset)
    (hle : offset ≤ byteSize text) : Boundary text offset := by
  obtain ⟨before, after, htext, rfl⟩ := h
  rcases List.append_eq_append_iff.mp htext with ⟨w, rfl, rfl⟩ | ⟨w, rfl, rfl⟩
  · have hw : byteSize w = 0 := by
      rw [byteSize_append] at hle
      omega
    exact ⟨text, [], (List.append_nil _).symm, by rw [byteSize_append, hw, Nat.add_zero]⟩
  · exact ⟨before, w, rfl, rfl⟩

open Lexer in
/-- Code reads the same when a text is put in front of it, somewhere in the text before. -/
theorem lexRange_insert {front back : String} (line : String) {span : Span} {w : List Char}
    (h : span.Covers (front ++ back).toList w) (hstart : byteSize front.toList < span.start) :
    Agree (byteSize line.toList) (fun l l' => l' = l.shift (byteSize line.toList))
      (lexRange (front ++ back) span)
      (lexRange (front ++ line ++ back) (span.shift (byteSize line.toList))) := by
  obtain ⟨before, after, htext, hbefore, hstop⟩ := h
  rw [String.toList_append] at htext
  -- something of the text behind stands before the code
  obtain ⟨c, cs, hback⟩ : ∃ c cs, before = front.toList ++ c :: cs
      ∧ back.toList = c :: cs ++ (w ++ after) := by
    rcases List.append_eq_append_iff.mp htext with ⟨cs, rfl, hback⟩ | ⟨cs, hfront, -⟩
    · cases cs with
      | nil =>
          rw [hbefore, List.append_nil] at hstart
          exact absurd hstart (Nat.lt_irrefl _)
      | cons c cs => exact ⟨c, cs, rfl, hback⟩
    · rw [hbefore, hfront, byteSize_append] at hstart
      omega
  obtain ⟨rfl, hback⟩ := hback
  have hcovers : span.Covers (front ++ back).toList w :=
    ⟨front.toList ++ c :: cs, after, by simp [hback], hbefore, hstop⟩
  have hcovers' : (span.shift (byteSize line.toList)).Covers (front ++ line ++ back).toList w := by
    refine ⟨front.toList ++ line.toList ++ c :: cs, after, by simp [hback], ?_, ?_⟩ <;>
    · simp only [Span.shift, hbefore, hstop, byteSize_append]
      omega
  -- so the same character stands before it in both texts
  have hchar : ∀ ds : List Char, charBefore (ds ++ back.toList) (byteSize (ds ++ c :: cs)) =
      (c :: cs).getLast? := by
    intro ds
    rw [hback, ← List.append_assoc, charBefore_byteSize, List.getLast?_append,
      List.getLast?_eq_some_getLast (List.cons_ne_nil c cs)]
    rfl
  have hrelocated : Scan.Relocated (byteSize line.toList) [] []
      (.ofRange (front ++ back).toList span)
      (.ofRange (front ++ line ++ back).toList (span.shift (byteSize line.toList))) := by
    refine ⟨?_, ?_, rfl, rfl, [], rfl, rfl⟩
    · simp only [Scan.ofRange, hcovers.sliceBytes_eq, hcovers'.sliceBytes_eq]
      rfl
    · have hsize : span.start + byteSize line.toList =
          byteSize (front.toList ++ line.toList ++ c :: cs) := by
        simp only [hbefore, byteSize_append]
        omega
      have hzero : (span.start + byteSize line.toList == 0) = (span.start == 0) := by
        rw [Bool.eq_iff_iff, beq_iff_eq, beq_iff_eq]
        omega
      simp only [Scan.ofRange, Span.shift, hzero]
      rw [hsize, hbefore, String.toList_append, String.toList_append, String.toList_append, hchar, hchar]
  have hlength : (Scan.ofRange (front ++ line ++ back).toList
      (span.shift (byteSize line.toList))).cursor.rest = (Scan.ofRange (front ++ back).toList span).cursor.rest := by
    rw [hrelocated.cursor]
    rfl
  rw [lexRange_eq_map, lexRange_eq_map, hlength]
  exact hrelocated.lexed _ _ _

end RubyJs
