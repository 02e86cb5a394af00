import RubyJs.Proofs.Token.EndData

set_option autoImplicit false

/-! # Tokens and the gaps between them

The tokens of a text and the gaps between them are the whole text. A gap has blanks, line ends that
mean nothing, lines that are continued behind a backslash, comments and documents, and nothing else:

    a +  # first      a, gap ` `, +, gap `  # first⏎  `, b
      b

Line ends and documents depend on what stands around them, so `Filler` describes a gap together with
the tokens before it and the text behind it. `Tiles` cuts a text into gaps and tokens, and `lex_tiles`
says that this is how a text is read, and that a token is marked as spaced if there is a gap before it
or a line begins with it.
-/

namespace RubyJs

namespace Lexer

/-! ## Gaps -/

/-- That `w`, in front of `behind`, is the rest of a line: with its line end, or up to the end of the
text. -/
def EndsLine (w behind : List Char) : Prop :=
  ∃ line, '\n' ∉ line ∧ (w = line ++ ['\n'] ∨ w = line ∧ behind = [])

/-- That `w`, in front of `behind`, is a document: it ends with the first line that begins with
`=end`. -/
def IsDocument (w behind : List Char) : Prop :=
  ∃ inner tail, w = "=begin".toList ++ inner ++ "\n=end".toList ++ tail
    ∧ ¬ "\n=end".toList <:+: inner ∧ EndsLine tail behind

/-- That a gap stands behind the tokens `before`, newest first, and in front of the text `behind`.
The first flag says whether a line begins where the gap does, the other whether one begins where it
ends. -/
inductive Filler (before : List Token) : Bool → List Char → List Char → Bool → Prop where
  | nil (line : Bool) (behind : List Char) : Filler before line [] behind line
  | blank {line line' : Bool} {c : Char} {gap behind : List Char}
      (blank : c = ' ' ∨ c = '\t' ∨ c = '\r') (rest : Filler before false gap behind line') :
      Filler before line (c :: gap) behind line'
  | lineEnd {line line' : Bool} {gap behind : List Char}
      (dropped : lineEndDropped before (gap ++ behind) = true)
      (rest : Filler before true gap behind line') : Filler before line ('\n' :: gap) behind line'
  | continuation {line line' : Bool} {eol gap behind : List Char}
      (eol_eq : eol = ['\n'] ∨ eol = ['\r', '\n']) (rest : Filler before true gap behind line') :
      Filler before line ('\\' :: (eol ++ gap)) behind line'
  | comment {line line' : Bool} {words gap behind : List Char} (inline : '\n' ∉ words)
      (ends : gap ++ behind = [] ∨ (gap ++ behind).head? = some '\n')
      (rest : Filler before false gap behind line') :
      Filler before line ('#' :: (words ++ gap)) behind line'
  | document {line' : Bool} {doc gap behind : List Char} (doc_eq : IsDocument doc (gap ++ behind))
      (rest : Filler before true gap behind line') : Filler before true (doc ++ gap) behind line'

variable {before : List Token} {line line' : Bool} {cs gap behind : List Char}
variable {n : Nat}

/-- A gap goes on. -/
theorem Filler.append {line'' : Bool} {w : List Char} (h : Filler before line gap (w ++ behind) line')
    (h' : Filler before line' w behind line'') : Filler before line (gap ++ w) behind line'' := by
  generalize hbehind : w ++ behind = rest at h
  induction h with
  | nil => exact h'
  | blank blank _ ih => exact .blank blank (ih h' hbehind)
  | lineEnd dropped _ ih =>
      rw [List.cons_append]
      refine .lineEnd ?_ (ih h' hbehind)
      rwa [List.append_assoc, hbehind]
  | continuation eol_eq _ ih =>
      rw [List.cons_append, List.append_assoc]
      exact .continuation eol_eq (ih h' hbehind)
  | comment inline ends _ ih =>
      rw [List.cons_append, List.append_assoc]
      refine .comment inline ?_ (ih h' hbehind)
      rwa [List.append_assoc, hbehind]
  | document doc_eq _ ih =>
      rw [List.append_assoc]
      refine .document ?_ (ih h' hbehind)
      rwa [List.append_assoc, hbehind]

/-- What the lexer skips between tokens, documents apart, fills a gap. -/
theorem filler_of_gap (h : Lexer.gap cs = .blank n line') (before : List Token) (line : Bool) :
    Filler before line (cs.take n) (cs.drop n) line' := by
  unfold Lexer.gap at h
  split at h
  case h_1 | h_2 | h_3 =>
      obtain ⟨rfl, rfl⟩ := Gap.blank.inj h
      exact .blank (by decide) (.nil _ _)
  case h_4 =>
      obtain ⟨rfl, rfl⟩ := Gap.blank.inj h
      exact .continuation (.inl rfl) (.nil _ _)
  case h_5 =>
      obtain ⟨rfl, rfl⟩ := Gap.blank.inj h
      exact .continuation (.inr rfl) (.nil _ _)
  case h_6 cs =>
      obtain ⟨rfl, rfl⟩ := Gap.blank.inj h
      have hcomment : Inline (List.takeWhile (· != '\n')) := .takeWhile (by decide)
      have hsplit : cs.take (cs.takeWhile (· != '\n')).length = cs.takeWhile (· != '\n') :=
        (List.prefix_iff_eq_take.mp (hcomment.isPrefix cs)).symm
      have hdrop : cs.drop (cs.takeWhile (· != '\n')).length = cs.dropWhile (· != '\n') := by
        have happend := List.takeWhile_append_dropWhile (p := (· != '\n')) (l := cs)
        exact List.append_cancel_left
          ((congrArg (· ++ _) hsplit.symm).trans ((List.take_append_drop _ cs).trans happend.symm))
      rw [Nat.add_comm, List.take_succ_cons, List.drop_succ_cons, hsplit, hdrop,
        ← List.append_nil (cs.takeWhile _)]
      refine .comment (hcomment.notMem cs) ?_ (.nil _ _)
      -- the comment stops at a line end
      rw [List.nil_append]
      cases hrest : cs.dropWhile (· != '\n') with
      | nil => exact .inl rfl
      | cons d ds =>
          have hhead := List.head?_dropWhile_not (· != '\n') cs
          rw [hrest] at hhead
          simp at hhead
          exact .inr (by rw [hhead]; rfl)
  case h_7 | h_8 => cases h

/-! ## Documents -/

theorem endsLine_lineLength (cs : List Char) :
    EndsLine (cs.take (lineLength cs)) (cs.drop (lineLength cs)) := by
  induction cs with
  | nil => exact ⟨[], List.not_mem_nil, .inr ⟨rfl, rfl⟩⟩
  | cons c cs ih =>
      by_cases hc : c = '\n'
      · subst hc
        exact ⟨[], List.not_mem_nil, .inl rfl⟩
      · have hne : ¬ (c == '\n') = true := by simpa using hc
        obtain ⟨line, hline, htake⟩ := ih
        rw [lineLength, if_neg hne, List.take_succ_cons, List.drop_succ_cons]
        refine ⟨c :: line, ?_, ?_⟩
        · simp [hline, Ne.symm hc]
        · exact htake.imp (congrArg (c :: ·)) (And.imp_left (congrArg (c :: ·)))

/-- What ends a document is the first line behind it that begins with `=end`. -/
theorem documentLength_split (h : documentLength cs = some n) :
    ∃ inner tail, cs.take n = inner ++ "\n=end".toList ++ tail ∧ ¬ "\n=end".toList <:+: inner
      ∧ EndsLine tail (cs.drop n) := by
  induction cs generalizing n with
  | nil => cases h
  | cons c cs ih =>
      rw [documentLength] at h
      split at h
      · rename_i hend
        obtain ⟨hc, hstarts⟩ := Bool.and_eq_true_iff.mp hend
        obtain rfl := eq_of_beq hc
        obtain ⟨rest, rfl⟩ := List.isPrefixOf_iff_prefix.mp hstarts
        obtain rfl := Option.some.inj h
        exact ⟨[], rest.take (lineLength rest), rfl, by decide, endsLine_lineLength rest⟩
      · rename_i hend
        obtain ⟨m, hm, rfl⟩ := Option.map_eq_some_iff.mp h
        obtain ⟨inner, tail, htake, hinner, htail⟩ := ih hm
        refine ⟨c :: inner, tail, ?_, ?_, htail⟩
        · rw [List.take_succ_cons, htake]
          rfl
        · -- a line that ends the document here would have been taken
          intro hfound
          rcases List.infix_cons_iff.mp hfound with hpre | hfound
          · have hline : '\n' :: "=end".toList <+: c :: inner := hpre
            obtain ⟨rfl, hword⟩ := List.cons_prefix_cons.mp hline
            have hcs : "=end".toList <+: cs := by
              refine hword.trans (List.IsPrefix.trans ?_ (List.take_prefix m cs))
              rw [htake, List.append_assoc]
              exact List.prefix_append _ _
            exact hend (by rw [startsWith, List.isPrefixOf_iff_prefix.mpr hcs]; rfl)
          · exact hinner hfound

theorem isDocument_of_documentLength (hbegin : startsWith "=begin" cs = true)
    (h : documentLength cs = some n) : IsDocument (cs.take n) (cs.drop n) := by
  obtain ⟨inner, tail, htake, hinner, htail⟩ := documentLength_split h
  -- the first word has no line end, so it stands before the one that is found
  have hpre : "=begin".toList <+: inner := by
    obtain ⟨rest, hrest⟩ := List.isPrefixOf_iff_prefix.mp hbegin
    have hcs : inner ++ ('\n' :: ("=end".toList ++ tail ++ cs.drop n)) = "=begin".toList ++ rest := by
      have hsplit := List.take_append_drop n cs
      rw [htake, ← hrest] at hsplit
      rw [← hsplit, hrest]
      simp
    rcases List.append_eq_append_iff.mp hcs with ⟨x, hx, hx'⟩ | ⟨x, hx, -⟩
    · cases x with
      | nil => exact ⟨[], by rw [hx, List.append_nil, List.append_nil]⟩
      | cons d x =>
          obtain ⟨rfl, -⟩ := List.cons.inj hx'
          have hmem : '\n' ∈ "=begin".toList := by simp [hx]
          exact absurd hmem (by decide)
    · exact ⟨x, hx.symm⟩
  obtain ⟨inner', rfl⟩ := hpre
  refine ⟨inner', tail, htake, ?_, htail⟩
  exact fun hfound => hinner (hfound.trans (List.suffix_append _ _).isInfix)

/-! ## Tilings -/

/-- Whether a line begins behind the tokens, newest first, before anything else is read. -/
def lineBegins : List Token → Bool
  | [] => true
  | t :: _ => t.kind == .newline

/-- That a text at `offset`, behind the tokens `before`, is cut into gaps and tokens. A token is
written between its offsets, and it is spaced if there is a gap before it or the token before it is a
line end. Behind the last gap the text ends, or a marker line with the data behind it follows. -/
inductive Tiles : List Token → Nat → List Char → List Token → Option (List Char) → Prop where
  | text {before : List Token} {offset : Nat} {gap : List Char} {line : Bool}
      (filler : Filler before (lineBegins before) gap [] line) : Tiles before offset gap [] none
  | marked {before : List Token} {offset : Nat} {gap eol data : List Char}
      (filler : Filler before (lineBegins before) gap ("__END__".toList ++ eol ++ data) true)
      (eol_eq : eol = ['\n'] ∨ eol = ['\r', '\n'] ∨ eol = [] ∧ data = []) :
      Tiles before offset (gap ++ ("__END__".toList ++ eol ++ data)) [] (some data)
  | token {before : List Token} {offset : Nat} {gap w behind : List Char} {line : Bool} {t : Token}
      {ts : List Token} {data : Option (List Char)}
      (filler : Filler before (lineBegins before) gap (w ++ behind) line)
      (written : Written ⟨w ++ behind, t.span.start⟩ w t.kind ⟨behind, t.span.stop⟩)
      (start : t.span.start = offset + byteSize gap)
      (spaced : t.spaced = true ↔ gap ≠ [] ∨ before.head?.map Token.kind = some .newline)
      (rest : Tiles (t :: before) t.span.stop behind ts data) :
      Tiles before offset (gap ++ (w ++ behind)) (t :: ts) data

theorem markedData?_eq_some {data : List Char} (h : markedData? cs = some data) :
    ∃ eol, cs = "__END__".toList ++ eol ++ data
      ∧ (eol = ['\n'] ∨ eol = ['\r', '\n'] ∨ eol = [] ∧ data = []) := by
  unfold markedData? at h
  split at h
  · rename_i hmarker
    obtain ⟨rest, rfl⟩ := List.isPrefixOf_iff_prefix.mp hmarker
    rw [show ("__END__".toList ++ rest).drop 7 = rest from rfl] at h
    split at h
    · obtain rfl := Option.some.inj h
      exact ⟨[], rfl, .inr (.inr ⟨rfl, rfl⟩)⟩
    · obtain rfl := Option.some.inj h
      exact ⟨['\n'], rfl, .inl rfl⟩
    · obtain rfl := Option.some.inj h
      exact ⟨['\r', '\n'], rfl, .inr (.inl rfl)⟩
    · cases h
  · cases h

namespace Scan

variable {s s' : Scan}

/-- That `gap` is what was read since the last token. -/
structure Since (s : Scan) (gap : List Char) : Prop where
  filler : Filler s.tokens (lineBegins s.tokens) gap s.cursor.rest s.lineStart
  spaced : s.spaced = true ↔ gap ≠ [] ∨ s.tokens.head?.map Token.kind = some .newline

/-- What is skipped makes the gap longer. -/
theorem Since.blank {w : List Char} (h : s.Since gap) (hn : 0 < n) (hrest : s.cursor.rest ≠ [])
    (hw : s.cursor.rest.take n = w)
    (hfiller : Filler s.tokens s.lineStart w (s.cursor.rest.drop n) line) :
    (s.blank n line).Since (gap ++ w) := by
  have hne : w ≠ [] := by
    rw [← hw, ne_eq, List.take_eq_nil_iff]
    exact fun hnil => hnil.elim (by omega) hrest
  refine ⟨?_, ?_⟩
  · refine Filler.append ?_ hfiller
    have hsplit : w ++ (s.blank n line).cursor.rest = s.cursor.rest := by
      rw [← hw]
      exact List.take_append_drop n _
    rw [hsplit]
    exact h.filler
  · exact iff_of_true rfl (.inl fun hnil => hne (List.append_eq_nil_iff.mp hnil).2)

/-- **One turn.** It makes the gap since the last token longer, or it adds a token, with no gap
behind it. -/
theorem Since.step (h : s.Since gap) (hrest : s.cursor.rest ≠ []) (hstep : s.step = .ok s') :
    (∃ w, s.cursor.Passes w s'.cursor ∧ s'.tokens = s.tokens ∧ s'.Since (gap ++ w))
      ∨ ∃ t w, s.cursor.Passes w s'.cursor ∧ Written s.cursor w t.kind s'.cursor
        ∧ t.span = ⟨s.cursor.offset, s'.cursor.offset⟩ ∧ t.spaced = s.spaced
        ∧ s'.tokens = t :: s.tokens ∧ s'.Since [] := by
  rw [step_eq] at hstep
  split at hstep
  · rename_i hdocument
    obtain ⟨hline, hbegin⟩ := Bool.and_eq_true_iff.mp hdocument
    split at hstep
    · rename_i n hn
      obtain rfl := Except.ok.inj hstep
      refine .inl ⟨_, s.cursor.passes_skip n, rfl, h.blank (documentLength_pos hn) hrest rfl ?_⟩
      rw [hline, ← List.append_nil (s.cursor.rest.take n)]
      exact .document (isDocument_of_documentLength hbegin hn) (.nil _ _)
    · cases hstep
  · cases hgap : Lexer.gap s.cursor.rest with
    | blank n line =>
        rw [hgap] at hstep
        obtain rfl := Except.ok.inj hstep
        have hn : 0 < n := by
          unfold Lexer.gap at hgap
          split at hgap
          case h_7 | h_8 => cases hgap
          all_goals
            cases hgap
            omega
        exact .inl ⟨_, s.cursor.passes_skip n, rfl,
          h.blank hn hrest rfl (filler_of_gap hgap s.tokens s.lineStart)⟩
    | lineEnd =>
        rw [hgap] at hstep
        obtain rfl := Except.ok.inj hstep
        obtain ⟨cs, hcs⟩ := gap_lineEnd hgap
        have hpasses : s.cursor.Passes ['\n'] (s.cursor.skip 1) := Cursor.passes_of_eq hcs
        have hnext : (s.cursor.skip 1).rest = cs := by simp [Cursor.skip, hcs]
        unfold Scan.lineEnd
        dsimp only
        rw [hnext]
        split
        · rename_i hdropped
          refine .inl ⟨['\n'], hpasses, rfl, ?_⟩
          have hfiller : Filler s.tokens s.lineStart ['\n'] (s.cursor.rest.drop 1) true := by
            rw [hcs]
            exact .lineEnd hdropped (.nil _ _)
          have hblank := h.blank Nat.one_pos hrest (by rw [hcs]; rfl) hfiller
          exact ⟨hblank.filler, hblank.spaced⟩
        · refine .inr ⟨⟨.newline, ⟨s.cursor.offset, (s.cursor.skip 1).offset⟩, s.spaced⟩, ['\n'],
            hpasses, .of_plain hpasses (by simp) ⟨rfl, rfl⟩, rfl, rfl, rfl, .nil _ _, ?_⟩
          exact iff_of_true rfl (.inr rfl)
    | none =>
        rw [hgap] at hstep
        obtain ⟨⟨kind, next⟩, htoken, hstep⟩ := bind_eq_ok hstep
        obtain rfl := Except.ok.inj hstep
        obtain ⟨w, hw⟩ := (token_reads _ s.spaced s.cursor hrest).ok _ htoken
        -- a line end is no token of its own here
        have hkind : kind ≠ .newline := by
          rintro rfl
          obtain rfl : w = ['\n'] := hw.spelled
          rw [hw.passes.rest] at hgap
          cases hgap
        refine .inr ⟨⟨kind, ⟨s.cursor.offset, next.offset⟩, s.spaced⟩, w, hw.passes, hw, rfl, rfl,
          rfl, ?_, ?_⟩
        · have hline : lineBegins (s.push kind next).tokens = (s.push kind next).lineStart := by
            show (kind == .newline) = false
            simpa using hkind
          rw [hline]
          exact .nil _ _
        · refine iff_of_false Bool.false_ne_true ?_
          rintro (hnil | hlast)
          · exact hnil rfl
          · exact hkind (Option.some.inj hlast)

/-- **A whole run.** What the loop reads from a state on, with the gap before it, is cut into gaps and
tokens. -/
theorem Since.tiles {marker : Bool} {last : Scan} {r : List Token × Option (List Char)} {offset : Nat}
    (h : s.Since gap) (hoffset : s.cursor.offset = offset + byteSize gap)
    (hturns : Turns marker s last) (hends : Ends marker last (.ok r)) :
    ∃ ts, r.1 = s.tokens.reverse ++ ts
      ∧ Tiles s.tokens offset (gap ++ s.cursor.rest) ts r.2 := by
  induction hturns using Relation.ReflTransGen.head_induction_on generalizing gap offset with
  | refl =>
      generalize hr : Except.ok r = answer at hends
      cases hends with
      | text hrest =>
          obtain rfl := Except.ok.inj hr
          refine ⟨[], (List.append_nil _).symm, ?_⟩
          have hfiller := h.filler
          rw [hrest] at hfiller ⊢
          rw [List.append_nil]
          exact .text hfiller
      | marked _ hline hdata =>
          obtain rfl := Except.ok.inj hr
          refine ⟨[], (List.append_nil _).symm, ?_⟩
          have hfiller := h.filler
          obtain ⟨eol, hrest, heol⟩ := markedData?_eq_some hdata
          rw [hrest, hline] at hfiller
          rw [hrest]
          exact .marked hfiller heol
      | fault => cases hr
  | @head s s' hturn _ ih =>
      obtain ⟨w, hpasses, htokens, hsince⟩ | ⟨t, w, hpasses, hwritten, hspan, hspaced, htokens, hsince⟩ :=
        h.step hturn.rest hturn.step
      · have hoffset' : s'.cursor.offset = offset + byteSize (gap ++ w) := by
          rw [hpasses.offset, hoffset, byteSize_append, Nat.add_assoc]
        obtain ⟨ts, hts, htiles⟩ := ih hsince hoffset'
        rw [htokens, List.append_assoc, ← hpasses.rest] at htiles
        exact ⟨ts, by rw [hts, htokens], htiles⟩
      · obtain ⟨ts, hts, htiles⟩ := ih hsince (Nat.add_zero s'.cursor.offset).symm
        refine ⟨t :: ts, by rw [hts, htokens]; simp, ?_⟩
        have hfiller := h.filler
        rw [hpasses.rest] at hfiller ⊢
        rw [htokens] at htiles
        refine .token hfiller ?_ (by rw [hspan, hoffset]) (by rw [hspaced]; exact h.spaced) ?_
        · rw [hspan, ← hpasses.rest]
          exact hwritten
        · rw [hspan]
          exact htiles

end Scan

end Lexer

open Lexer in
/-- **Tokens tile the text.** The tokens of a text and the gaps between them are the whole text, up
to its end or a marker line; the gaps have only what means nothing; and a token is spaced if there is
a gap before it or the token before it is a line end. -/
theorem lex_tiles {text : String} {l : Lexed} (h : lex text = .ok l) :
    Tiles [] 0 text.toList l.written (l.endData.map String.toList) := by
  have hstart : (Scan.ofText text.toList).Since [] := by
    refine ⟨.nil _ _, iff_of_false Bool.false_ne_true ?_⟩
    rintro (hnil | hlast)
    · exact hnil rfl
    · cases hlast
  obtain ⟨last, hturns, hends⟩ :=
    Scan.run_ends true (Nat.le_refl (Scan.ofText text.toList).cursor.rest.length)
  obtain ⟨r, hrun, hl⟩ := map_eq_ok ((lex_eq_map text).symm.trans h)
  have hends' : Scan.Ends true last (.ok r) := by
    rw [← hrun]
    exact hends
  obtain ⟨ts, hts, htiles⟩ := hstart.tiles (Nat.zero_add 0).symm hturns hends'
  obtain rfl := hl
  have hdata : (r.2.map String.ofList).map String.toList = r.2 := by
    rw [Option.map_map]
    simp [Function.comp_def]
  rw [show r.1 = ts from hts, hdata]
  exact htiles

open Lexer in
/-- A comment and a line end that is dropped stand in one gap; a marker line follows. -/
theorem lex_tiles_comment :
    let text := "a + # b\n c\n__END__\nd"
    let tokens : List Token := [⟨.ident "a", ⟨0, 1⟩, false⟩, ⟨.plus, ⟨2, 3⟩, true⟩,
      ⟨.ident "c", ⟨9, 10⟩, true⟩, ⟨.newline, ⟨10, 11⟩, false⟩]
    lex text = .ok ⟨tokens, 20, some "d"⟩ ∧ Tiles [] 0 text.toList tokens (some ['d']) := by
  intro text tokens
  obtain ⟨l, hlex, hl⟩ : ∃ l, lex text = .ok l ∧ l = ⟨tokens, 20, some "d"⟩ :=
    exists_ok_of_any (by decide +kernel)
  subst hl
  exact ⟨hlex, lex_tiles hlex⟩

end RubyJs
