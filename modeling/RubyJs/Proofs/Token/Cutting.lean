import RubyJs.Proofs.Token.EndData

set_option autoImplicit false

/-! # Texts cut behind a line

What the loop reads of whole lines, up to the last line end of them, depends on nothing that follows
them (`Scan.Turns.swap`), with one exception: the dot that continues a call is looked for behind blanks
and line ends, so it may be found in the text that follows.
-/

namespace RubyJs

namespace Lexer

variable {cs more more' : List Char}

/-! ## Between tokens -/

/-- A document that ends before the text behind is found without it. -/
theorem documentLength_cut (h : LineEnded cs) {n : Nat} (hn : documentLength (cs ++ more) = some n)
    (hlt : n < cs.length) : documentLength cs = some n := by
  induction cs generalizing n with
  | nil => cases hlt
  | cons c cs ih =>
      have hpos := Scan.documentLength_pos hn
      have hcs : cs ≠ [] := by
        rintro rfl
        rw [List.length_singleton] at hlt
        omega
      rw [List.cons_append, documentLength] at hn
      have hline : LineEnded cs := h.of_append (w := [c]) hcs
      rw [hline.startsWith_append (by decide)] at hn
      rw [documentLength]
      split at hn
      · rename_i hend
        rw [if_pos hend, ← (lineLength_append hline more).1]
        exact hn
      · rename_i hend
        obtain ⟨m, hm, rfl⟩ := Option.map_eq_some_iff.mp hn
        rw [if_neg hend, ih hline hm (by rw [List.length_cons] at hlt; omega)]
        rfl

theorem markedData?_cut (h : LineEnded cs) (hnone : markedData? (cs ++ more) = none) :
    markedData? cs = none := by
  unfold markedData? at hnone ⊢
  rw [h.startsWith_append (by decide)] at hnone
  split
  · rename_i hmarker
    have hlt : 7 < cs.length := length_lt_of_startsWith (s := "__END__") (by decide) h hmarker
    rw [if_pos hmarker, List.drop_append_of_le_length (Nat.le_of_lt hlt)] at hnone
    have hrest := h.drop hlt
    generalize cs.drop 7 = rest at hrest hnone
    split
    · exact absurd rfl hrest.ne_nil
    · cases hnone
    · cases hnone
    · rfl
  · rfl

/-- Whether a character is passed by the search for a dot. -/
def isBlank (c : Char) : Bool := c == ' ' || c == '\t' || c == '\r' || c == '\n'

theorem dotFollows_congr {ds : List Char} (h : cs.dropWhile isBlank = ds.dropWhile isBlank) :
    dotFollows cs = dotFollows ds := by
  unfold isBlank at h
  rw [dotFollows, dotFollows, h]

theorem dotFollows_append_blank (h : cs.all isBlank = true) (more : List Char) :
    dotFollows (cs ++ more) = dotFollows more :=
  dotFollows_congr (List.dropWhile_append_of_pos (List.all_eq_true.mp h))

/-- A dot is looked for behind the text only if there are but blanks in it. -/
theorem dotFollows_append_cases (h : LineEnded cs ∨ cs = []) (more : List Char) :
    dotFollows (cs ++ more) = dotFollows cs
      ∨ cs.all isBlank = true ∧ dotFollows (cs ++ more) = dotFollows more := by
  by_cases hblank : cs.all isBlank = true
  · exact .inr ⟨hblank, dotFollows_append_blank hblank more⟩
  · refine .inl ?_
    rcases h with h | rfl
    · have hne : cs.dropWhile isBlank ≠ [] := by
        intro hnil
        have hall := List.takeWhile_append_dropWhile (p := isBlank) (l := cs)
        rw [hnil, List.append_nil] at hall
        exact hblank (hall ▸ List.all_takeWhile)
      have hdrop : (cs ++ more).dropWhile isBlank = cs.dropWhile isBlank ++ more := by
        rw [List.dropWhile_append, if_neg (by simpa using hne)]
      have hline : LineEnded (cs.dropWhile isBlank) := by
        obtain ⟨w, hw⟩ := List.dropWhile_suffix (l := cs) isBlank
        exact (hw.symm ▸ h).of_append hne
      unfold dotFollows
      unfold isBlank at hdrop hline
      rw [hdrop]
      generalize cs.dropWhile _ = ds at hline
      -- what follows a dot stands in the text, for the dot is no line end
      obtain ⟨d, ds, rfl⟩ := List.exists_cons_of_ne_nil hline.ne_nil
      by_cases hd : d = '.'
      · subst hd
        obtain ⟨e, es, rfl⟩ := List.exists_cons_of_ne_nil (hline.tail (by decide)).ne_nil
        rfl
      · simp [hd]
    · exact absurd rfl hblank

/-- Whether a line that ends behind the tokens, newest first, goes on by itself. -/
def goesOn (tokens : List Token) : Bool :=
  (match tokens with
    | [] => true
    | t :: _ => t.kind.continuesLine) && !operatorNamesMethod tokens

theorem lineEndDropped_eq (tokens : List Token) (cs : List Char) :
    lineEndDropped tokens cs = (goesOn tokens || dotFollows cs) := rfl

namespace Scan

variable {s t u : Scan} {marker : Bool}

/-! ## One turn -/

theorem lineEnd_eq (s : Scan) : s.lineEnd = ⟨s.cursor.skip 1, true, true,
    if lineEndDropped s.tokens (s.cursor.skip 1).rest then s.tokens
    else ⟨.newline, ⟨s.cursor.offset, (s.cursor.skip 1).offset⟩, s.spaced⟩ :: s.tokens⟩ := by
  unfold lineEnd
  dsimp only
  split <;> rfl

/-- **A step that ends before the text behind is the same step with another text behind**, if a line
end means the same before both. -/
theorem step_swap (h : LineEnded s.cursor.rest) (hstep : (s.append more).step = .ok u)
    (hu : more.length < u.cursor.rest.length)
    (hdot : ∀ cs, s.cursor.rest = '\n' :: cs →
      lineEndDropped s.tokens (cs ++ more') = lineEndDropped s.tokens (cs ++ more)) :
    ∃ t : Scan, u = t.append more ∧ LineEnded t.cursor.rest ∧ (s.append more').step = .ok (t.append more') := by
  have hbegin : ∀ more, startsWith "=begin" (s.append more).cursor.rest =
      startsWith "=begin" s.cursor.rest := fun more => h.startsWith_append (by decide) more
  have hgap : ∀ more, gap (s.append more).cursor.rest = gap s.cursor.rest := gap_append h
  have hstart : ∀ more, (s.append more).lineStart = s.lineStart := fun _ => rfl
  -- what is skipped ends before the text behind
  have hblank : ∀ {n : Nat} {line : Bool}, u = (s.append more).blank n line →
      n < s.cursor.rest.length ∧ u = (s.blank n line).append more
        ∧ (s.append more').blank n line = (s.blank n line).append more'
        ∧ LineEnded (s.blank n line).cursor.rest := by
    rintro n line rfl
    have hlt : n < s.cursor.rest.length := by
      have hlength : ((s.append more).blank n line).cursor.rest.length =
          s.cursor.rest.length + more.length - n := by
        show ((s.cursor.rest ++ more).drop n).length = _
        rw [List.length_drop, List.length_append]
      omega
    have hne : n = s.cursor.rest.length → line = true := fun heq => by omega
    exact ⟨hlt, (blank_append h (Nat.le_of_lt hlt) hne).1, (blank_append h (Nat.le_of_lt hlt) hne).1,
      Cursor.skip_lineEnded h hlt⟩
  rw [step_eq, hbegin, hgap, hstart] at hstep ⊢
  split at hstep
  · rename_i hdocument
    rw [if_pos hdocument]
    split at hstep
    · rename_i n hn
      obtain ⟨hlt, hu, hswap, hline⟩ := hblank (Except.ok.inj hstep).symm
      have hcut := documentLength_cut h hn hlt
      have hdocument : documentLength (s.append more').cursor.rest = some n :=
        (documentLength_append h hcut more').1
      rw [hdocument]
      exact ⟨_, hu, hline, congrArg Except.ok hswap⟩
    · cases hstep
  · rename_i hdocument
    rw [if_neg hdocument]
    cases hcase : gap s.cursor.rest with
    | blank n line =>
        rw [hcase] at hstep
        obtain ⟨-, hu, hswap, hline⟩ := hblank (Except.ok.inj hstep).symm
        exact ⟨_, hu, hline, congrArg Except.ok hswap⟩
    | lineEnd =>
        rw [hcase] at hstep
        obtain rfl := Except.ok.inj hstep
        obtain ⟨cs, hrest⟩ := gap_lineEnd hcase
        have hskip : ∀ more, (s.append more).cursor.skip 1 = (s.cursor.skip 1).append more := fun _ =>
          Cursor.append_skip (by simp [hrest])
        have hnext : ∀ more, ((s.cursor.skip 1).append more).rest = cs ++ more := by
          intro more
          simp [Cursor.skip, hrest]
        have hlineEnd : ∀ more, lineEndDropped s.tokens (cs ++ more) =
            lineEndDropped s.tokens (cs ++ more') →
            (s.append more).lineEnd =
              ({ (s.append more').lineEnd with cursor := s.cursor.skip 1 } : Scan).append more := by
          intro more hsame
          have htokens : ∀ more, (s.append more).tokens = s.tokens := fun _ => rfl
          rw [lineEnd_eq, lineEnd_eq, hskip, hskip, hnext, hnext, htokens, htokens, hsame]
          rfl
        refine ⟨_, hlineEnd more (hdot cs hrest).symm, ?_, congrArg Except.ok (hlineEnd more' rfl)⟩
        have hcs : cs ≠ [] := by
          rintro rfl
          rw [lineEnd_eq, hskip, hnext, List.nil_append] at hu
          omega
        show LineEnded (s.cursor.skip 1).rest
        rw [show (s.cursor.skip 1).rest = cs by simp [Cursor.skip, hrest]]
        exact (hrest ▸ h).of_append (w := ['\n']) hcs
    | none =>
        rw [hcase] at hstep
        obtain ⟨c, cs, hrest⟩ := List.exists_cons_of_ne_nil h.ne_nil
        have hc : c ≠ '\n' := by
          rintro rfl
          rw [hrest] at hcase
          cases hcase
        obtain ⟨⟨kind, next⟩, htoken, hstep⟩ := bind_eq_ok hstep
        obtain rfl := Except.ok.inj hstep
        obtain ⟨next₀, rfl, hline, hcut⟩ :=
          token_cut (s.tokens.head?.map Token.kind) s.spaced h hrest hc htoken hu
        refine ⟨s.push kind next₀, rfl, hline, ?_⟩
        have hswap := ((token_append _ s.spaced h hrest hc more').ok kind next₀ hcut).2
        show (token (s.tokens.head?.map Token.kind) s.spaced (s.cursor.append more') >>= _) = _
        rw [hswap]
        rfl

/-! ## Many turns -/

theorem Turns.length_le (h : Turns marker s t) : t.cursor.rest.length ≤ s.cursor.rest.length := by
  induction h with
  | refl => exact Nat.le_refl _
  | tail _ hturn ih =>
      obtain ⟨w, hw⟩ := hturn.moves
      have hlength := hw.passes.length_eq
      omega

/-- A turn on a blank in front of a dot adds no token. -/
theorem Turn.blank {c : Char} {rest : List Char} (h : Turn marker s t) (hrest : s.cursor.rest = c :: rest)
    (hc : isBlank c = true) (hdot : dotFollows rest = true) :
    t.tokens = s.tokens ∧ t.cursor.rest = rest := by
  have hstep := h.step
  simp only [isBlank, Bool.or_eq_true, beq_iff_eq] at hc
  have hbegin : ¬ (s.lineStart && startsWith "=begin" s.cursor.rest) = true := by
    rw [hrest]
    rcases hc with ((rfl | rfl) | rfl) | rfl <;> simp [startsWith]
  have hskip : (s.cursor.skip 1).rest = rest := by simp [Cursor.skip, hrest]
  rw [step_eq, if_neg hbegin, hrest] at hstep
  rcases hc with ((rfl | rfl) | rfl) | rfl
  · obtain rfl := Except.ok.inj hstep
    exact ⟨rfl, hskip⟩
  · obtain rfl := Except.ok.inj hstep
    exact ⟨rfl, hskip⟩
  · obtain rfl := Except.ok.inj hstep
    exact ⟨rfl, hskip⟩
  · obtain rfl := Except.ok.inj hstep
    rw [lineEnd_eq, hskip, lineEndDropped_eq, hdot, Bool.or_true, if_pos rfl]
    exact ⟨rfl, rfl⟩

/-- Blanks in front of a dot add no token. -/
theorem Turns.tokens_eq {w : List Char} (h : Turns marker s t) (hrest : s.cursor.rest = w ++ more)
    (hw : w.all isBlank = true) (hdot : dotFollows more = true)
    (ht : more.length ≤ t.cursor.rest.length) : t.tokens = s.tokens := by
  induction h using Relation.ReflTransGen.head_induction_on generalizing w with
  | refl => rfl
  | @head s s' hturn hturns ih =>
      cases w with
      | nil =>
          obtain ⟨v, hv⟩ := hturn.moves
          have hlength := hv.passes.length_eq
          have hpos : 0 < v.length := List.length_pos_iff.mpr hv.nonempty
          have hle : t.cursor.rest.length ≤ s'.cursor.rest.length := Turns.length_le hturns
          rw [hrest, List.nil_append] at hlength
          omega
      | cons c w =>
          obtain ⟨hc, hw⟩ : isBlank c = true ∧ w.all isBlank = true := by simpa using hw
          obtain ⟨htokens, hrest'⟩ := hturn.blank hrest hc ((dotFollows_append_blank hw more).trans hdot)
          rw [ih hrest' hw, htokens]

/-- **The way to a line end does not depend on what follows it.** If a dot follows that line end in the
one text, the line goes on by itself; in the other text none follows. -/
theorem Turns.swap (h : Turns true u t) (hs : u = s.append more) (hline : LineEnded s.cursor.rest)
    (ht : more.length < t.cursor.rest.length) (hmore : dotFollows more = true → goesOn t.tokens = true)
    (hmore' : dotFollows more' = false) :
    ∃ t₀ : Scan, t = t₀.append more ∧ LineEnded t₀.cursor.rest
      ∧ Turns true (s.append more') (t₀.append more') := by
  induction h using Relation.ReflTransGen.head_induction_on generalizing s with
  | refl => exact ⟨s, hs, hline, .refl⟩
  | @head u u' hturn hturns ih =>
      subst hs
      have hle : t.cursor.rest.length ≤ u'.cursor.rest.length := Turns.length_le hturns
      have hdot : ∀ cs, s.cursor.rest = '\n' :: cs →
          lineEndDropped s.tokens (cs ++ more') = lineEndDropped s.tokens (cs ++ more) := by
        intro cs hcs
        have hlines : LineEnded cs ∨ cs = [] := by
          by_cases hnil : cs = []
          · exact .inr hnil
          · exact .inl ((hcs ▸ hline).of_append (w := ['\n']) hnil)
        rw [lineEndDropped_eq, lineEndDropped_eq, dotFollows_append hlines hmore']
        rcases dotFollows_append_cases hlines more with hsame | ⟨hblank, hsame⟩
        · rw [hsame]
        · by_cases hfollows : dotFollows more = true
          · -- only blanks stand between here and the dot, so the tokens are those of the last line end
            have hrest : (s.append more).cursor.rest = '\n' :: (cs ++ more) := by
              show s.cursor.rest ++ more = _
              rw [hcs, List.cons_append]
            obtain ⟨htokens, hrest'⟩ := hturn.blank hrest rfl (hsame.trans hfollows)
            have hkept := Turns.tokens_eq hturns hrest' hblank hfollows (Nat.le_of_lt ht)
            have hgoes : goesOn s.tokens = true := by
              have hgoes := hmore hfollows
              rwa [hkept, htokens] at hgoes
            rw [hgoes, Bool.true_or, Bool.true_or]
          · have hnone : dotFollows cs = false := by
              have hnil := dotFollows_append_blank hblank []
              rwa [List.append_nil] at hnil
            rw [hsame, hnone, Bool.eq_false_iff.mpr hfollows]
      obtain ⟨s', rfl, hline', hstep⟩ := step_swap hline hturn.step (by omega) hdot
      obtain ⟨t₀, ht₀, hline₀, hturns'⟩ := ih rfl hline'
      refine ⟨t₀, ht₀, hline₀, .head ⟨?_, fun hm hl => ?_, hstep⟩ hturns'⟩
      · exact fun hnil => hline.ne_nil (List.append_eq_nil_iff.mp hnil).1
      · exact markedData?_append hline (markedData?_cut hline (hturn.unmarked hm hl)) more'

end Scan

end Lexer

end RubyJs
