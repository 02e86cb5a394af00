import RubyJs.Proofs.Token.Safety

set_option autoImplicit false

/-! # How far the lexer looks ahead

A text that ends in a line end can be read without a look at what follows it. A name or number ends
before the line end, an operator is written in one line, a literal that is closed is closed before it,
and no character is looked at that is not preceded by others of the same token. So a token that is
read from such a text is read, with the same characters, when more text follows
(`Lexer.token_append`). What is not read from it, such as a literal that is not closed, does not end
before the text that follows.
-/

namespace RubyJs

/-! ## Texts that end in a line end -/

/-- That the last character of a text is a line end. -/
def LineEnded (cs : List Char) : Prop := cs.getLast? = some '\n'

namespace LineEnded

variable {cs more w : List Char} {c : Char}

theorem ne_nil (h : LineEnded cs) : cs ≠ [] := by
  rintro rfl
  cases h

theorem mem (h : LineEnded cs) : '\n' ∈ cs := List.mem_of_getLast? h

theorem singleton (h : LineEnded [c]) : c = '\n' := by simpa [LineEnded] using h

/-- What is left of such a text ends in a line end too, if there is something left. -/
theorem of_append (h : LineEnded (w ++ cs)) (hne : cs ≠ []) : LineEnded cs := by
  rwa [LineEnded, List.getLast?_append, Option.or_of_isSome (by simpa using hne)] at h

theorem tail (h : LineEnded (c :: cs)) (hc : c ≠ '\n') : LineEnded cs := by
  refine of_append (w := [c]) h ?_
  rintro rfl
  exact hc h.singleton

theorem drop {n : Nat} (h : LineEnded cs) (hn : n < cs.length) : LineEnded (cs.drop n) := by
  refine of_append (w := cs.take n) ?_ ?_
  · rwa [List.take_append_drop]
  · simpa using hn

/-- A run at the front that has no line end leaves something. -/
theorem length_lt (h : LineEnded cs) (hw : w <+: cs) (hline : '\n' ∉ w) : w.length < cs.length := by
  obtain ⟨rest, rfl⟩ := hw
  rcases List.mem_append.mp h.mem with hmem | hmem
  · exact absurd hmem hline
  · have := List.length_pos_of_mem hmem
    rw [List.length_append]
    omega

theorem head?_append (h : LineEnded cs) (more : List Char) : (cs ++ more).head? = cs.head? :=
  by rw [List.head?_append, Option.or_of_isSome (by simpa using h.ne_nil)]

/-- A word without a line end that the text begins with stands before its line end. -/
theorem startsWith_append (h : LineEnded cs) {s : String} (hs : '\n' ∉ s.toList)
    (more : List Char) : startsWith s (cs ++ more) = startsWith s cs := by
  rw [Bool.eq_iff_iff, startsWith, startsWith, List.isPrefixOf_iff_prefix,
    List.isPrefixOf_iff_prefix]
  constructor
  · rintro ⟨rest, hrest⟩
    rcases List.append_eq_append_iff.mp hrest with ⟨x, hx, -⟩ | ⟨x, hx, -⟩
    · exact ⟨x, hx.symm⟩
    · exact absurd (by rw [hx]; exact List.mem_append_left _ h.mem) hs
  · intro hpre
    exact hpre.trans (List.prefix_append _ _)

end LineEnded

namespace Cursor

variable {cur : Cursor} {more : List Char}

/-- The cursor with more text behind. -/
def append (cur : Cursor) (more : List Char) : Cursor := ⟨cur.rest ++ more, cur.offset⟩

@[simp] theorem append_rest : (cur.append more).rest = cur.rest ++ more := rfl

@[simp] theorem append_offset : (cur.append more).offset = cur.offset := rfl

theorem append_skip {n : Nat} (h : n ≤ cur.rest.length) :
    (cur.append more).skip n = (cur.skip n).append more := by
  simp only [skip, append, List.drop_append_of_le_length h, List.take_append_of_le_length h]

theorem append_peekAt {n : Nat} (h : n < cur.rest.length) :
    (cur.append more).peekAt n = cur.peekAt n :=
  List.getElem?_append_left h

/-- A character that is no line end is followed by another one. -/
theorem lt_length_of_peekAt {n : Nat} {c : Char} (h : LineEnded cur.rest)
    (hn : cur.peekAt n = some c) (hc : c ≠ '\n') : n + 1 < cur.rest.length := by
  obtain ⟨hlt, hget⟩ := List.getElem?_eq_some_iff.mp hn
  apply Classical.byContradiction
  intro hnot
  rw [LineEnded, List.getLast?_eq_getElem?, show cur.rest.length - 1 = n by omega] at h
  exact hc (Option.some.inj (hn.symm.trans h))

theorem skip_lineEnded {n : Nat} (h : LineEnded cur.rest) (hn : n < cur.rest.length) :
    LineEnded (cur.skip n).rest := h.drop hn

end Cursor

/-! ## Runs within a line -/

/-- That `f` gives a run of characters at the front of a text, which ends before the first line end and
does not depend on what follows that. -/
structure Inline (f : List Char → List Char) : Prop where
  isPrefix : ∀ cs, f cs <+: cs
  notMem : ∀ cs, '\n' ∉ f cs
  append : ∀ {cs : List Char}, LineEnded cs → ∀ more, f (cs ++ more) = f cs

namespace Inline

variable {f g : List Char → List Char} {cs : List Char}

theorem length_lt (hf : Inline f) (h : LineEnded cs) : (f cs).length < cs.length :=
  h.length_lt (hf.isPrefix cs) (hf.notMem cs)

theorem lineEnded_drop (hf : Inline f) (h : LineEnded cs) : LineEnded (cs.drop (f cs).length) :=
  h.drop (hf.length_lt h)

theorem drop_append (hf : Inline f) (h : LineEnded cs) (more : List Char) :
    (cs ++ more).drop (f cs).length = cs.drop (f cs).length ++ more :=
  List.drop_append_of_le_length (Nat.le_of_lt (hf.length_lt h))

theorem takeWhile {p : Char → Bool} (hp : p '\n' = false) : Inline (List.takeWhile p) := by
  have hnot : ∀ cs : List Char, '\n' ∉ cs.takeWhile p := by
    intro cs hmem
    rw [List.all_eq_true.mp List.all_takeWhile _ hmem] at hp
    cases hp
  refine ⟨fun cs => List.takeWhile_prefix p, hnot, fun {cs} h more => ?_⟩
  have hlt := h.length_lt (List.takeWhile_prefix p) (hnot cs)
  rw [List.takeWhile_append, if_neg (by omega)]

/-- One run behind another. -/
theorem andThen (hf : Inline f) (hg : Inline g) :
    Inline fun cs => f cs ++ g (cs.drop (f cs).length) where
  isPrefix cs := isPrefix_append_of_drop (hf.isPrefix cs) (hg.isPrefix _)
  notMem cs hmem := (List.mem_append.mp hmem).elim (hf.notMem cs) (hg.notMem _)
  append h more := by
    rw [hf.append h, hf.drop_append h, hg.append (hf.lineEnded_drop h)]

/-- A run behind the first character. -/
theorem behindFirst {cur : Cursor} (hf : Inline f) (h : LineEnded cur.rest)
    (hone : 1 < cur.rest.length) (more : List Char) :
    f ((cur.append more).rest.drop 1) = f (cur.rest.drop 1)
      ∧ 1 + (f (cur.rest.drop 1)).length < cur.rest.length := by
  have htail := h.drop hone
  have hlt := hf.length_lt htail
  rw [Cursor.append_rest, List.drop_append_of_le_length (Nat.le_of_lt hone)]
  refine ⟨hf.append htail more, ?_⟩
  rw [List.length_drop] at hlt
  omega

end Inline

/-! ## Numbers -/

namespace Numeral

theorem inline_digitRun : Inline digitRun := .takeWhile (by decide)

theorem inline_fraction : Inline fraction := by
  refine ⟨fraction_isPrefix, fun cs => ?_, fun {cs} h more => ?_⟩
  · unfold fraction
    split
    · split
      · exact fun h => (List.mem_cons.mp h).elim (by decide) (inline_digitRun.notMem _)
      · exact List.not_mem_nil
    · exact List.not_mem_nil
  · obtain ⟨c, cs, rfl⟩ := List.exists_cons_of_ne_nil h.ne_nil
    by_cases hc : c = '.'
    · subst hc
      have hcs := h.tail (by decide)
      obtain ⟨d, cs, rfl⟩ := List.exists_cons_of_ne_nil hcs.ne_nil
      show (if d.isDigit then '.' :: digitRun (d :: cs ++ more) else []) =
        if d.isDigit then '.' :: digitRun (d :: cs) else []
      rw [inline_digitRun.append hcs]
    · have hnone : ∀ ds, fraction (c :: ds) = [] := by
        intro ds
        simp [fraction, hc]
      rw [List.cons_append, hnone, hnone]

theorem inline_exponent : Inline exponent := by
  refine ⟨exponent_isPrefix, fun cs => ?_, fun {cs} h more => ?_⟩
  · unfold exponent
    split
    · split
      · rename_i e s cs he
        have hne : '\n' ≠ e := by rintro rfl; simp at he
        split
        · rename_i hs
          have hns : '\n' ≠ s := by rintro rfl; simp at hs
          split
          · simp [hne, hns, inline_digitRun.notMem]
          · exact List.not_mem_nil
        · split
          · simp [hne, inline_digitRun.notMem]
          · exact List.not_mem_nil
      · exact List.not_mem_nil
    · exact List.not_mem_nil
  · match cs with
    | [] => exact absurd rfl h.ne_nil
    | [c] =>
        obtain rfl := h.singleton
        cases more <;> rfl
    | e :: s :: cs =>
        have hs : LineEnded (s :: cs) := h.of_append (w := [e]) (List.cons_ne_nil _ _)
        show (if e == 'e' || e == 'E' then
            if s == '+' || s == '-' then
              if startsWithDigit (cs ++ more) then e :: s :: digitRun (cs ++ more) else []
            else if s.isDigit then e :: digitRun (s :: cs ++ more) else []
          else []) =
          if e == 'e' || e == 'E' then
            if s == '+' || s == '-' then
              if startsWithDigit cs then e :: s :: digitRun cs else []
            else if s.isDigit then e :: digitRun (s :: cs) else []
          else []
        rw [inline_digitRun.append hs]
        by_cases hsign : (s == '+' || s == '-') = true
        · -- the sign is no line end, so the text goes on behind it
          have hcs : LineEnded cs := hs.tail (by rintro rfl; simp at hsign)
          obtain ⟨d, ds, rfl⟩ := List.exists_cons_of_ne_nil hcs.ne_nil
          rw [if_pos hsign, if_pos hsign, inline_digitRun.append hcs]
          rfl
        · rw [if_neg hsign, if_neg hsign]

theorem decimal_append {cs : List Char} (h : LineEnded cs) (start : Nat) (more : List Char) :
    scan.decimal start (cs ++ more) = scan.decimal start cs := by
  have hwhole := inline_digitRun.lineEnded_drop h
  unfold scan.decimal
  simp only [inline_digitRun.append h, inline_digitRun.drop_append h, inline_fraction.append hwhole,
    ← List.drop_drop, inline_fraction.drop_append hwhole,
    inline_exponent.append (inline_fraction.lineEnded_drop hwhole)]

/-- A number ends before the line end. -/
theorem scan_append {cs : List Char} (h : LineEnded cs) (start : Nat) (more : List Char) :
    scan start (cs ++ more) = scan start cs := by
  match cs with
  | [] => exact absurd rfl h.ne_nil
  | [c] =>
      obtain rfl := h.singleton
      exact decimal_append h start more
  | c :: r :: cs =>
      by_cases hc : c = '0'
      · subst hc
        cases hradix : radixOf? r with
        | none =>
            have hplain : ∀ ds,
                scan start ('0' :: r :: ds) = scan.decimal start ('0' :: r :: ds) := by
              intro ds
              simp [scan, hradix]
            rw [List.cons_append, List.cons_append, hplain, hplain]
            exact decimal_append h start more
        | some radix =>
            -- the letter is no line end, so the text goes on behind it
            have hcs : LineEnded cs := by
              refine (h.tail (by decide)).tail ?_
              rintro rfl
              cases hradix
            have hbody : (cs ++ more).takeWhile isBodyChar = cs.takeWhile isBodyChar :=
              (Inline.takeWhile (by decide)).append hcs more
            simp only [List.cons_append, scan, hradix, hbody]
      · have hplain : ∀ ds, scan start (c :: ds) = scan.decimal start (c :: ds) := by
          intro ds
          simp [scan, hc]
        rw [List.cons_append, hplain, hplain]
        exact decimal_append h start more

theorem notMem_decimal {start : Nat} {cs lexeme : List Char} {kind : TokenKind}
    (h : scan.decimal start cs = .ok (kind, lexeme)) : '\n' ∉ lexeme := by
  have hwhole := inline_digitRun.notMem cs
  unfold scan.decimal at h
  dsimp only at h
  split at h
  · split at h
    · obtain ⟨-, -, h⟩ := bind_eq_ok h
      obtain ⟨-, rfl⟩ := Prod.mk.inj (Except.ok.inj h)
      exact hwhole
    · obtain ⟨-, rfl⟩ := Prod.mk.inj (Except.ok.inj h)
      exact hwhole
  · obtain ⟨-, rfl⟩ := Prod.mk.inj (Except.ok.inj h)
    simp only [List.mem_append, not_or]
    exact ⟨⟨hwhole, inline_fraction.notMem _⟩, inline_exponent.notMem _⟩

theorem notMem_scan {start : Nat} {cs lexeme : List Char} {kind : TokenKind}
    (h : scan start cs = .ok (kind, lexeme)) : '\n' ∉ lexeme := by
  unfold scan at h
  split at h
  · split at h
    · rename_i r cs _ radix hradix
      obtain ⟨-, -, h⟩ := bind_eq_ok h
      obtain ⟨-, rfl⟩ := Prod.mk.inj (Except.ok.inj h)
      have hr : '\n' ≠ r := by
        rintro rfl
        cases hradix
      have hbody : '\n' ∉ cs.takeWhile isBodyChar := (Inline.takeWhile (by decide)).notMem cs
      simp [hr, hbody]
    · exact notMem_decimal h
  · exact notMem_decimal h

end Numeral

/-! ## Literals -/

theorem inline_hexRun (n : Nat) : Inline (hexRun n) := by
  have hdigits : Inline (List.takeWhile (Numeral.isDigitIn 16)) := .takeWhile (by decide)
  have htake : ∀ ds : List Char, hexRun n ds = (ds.takeWhile (Numeral.isDigitIn 16)).take n := by
    intro ds
    rw [hexRun, List.take_takeWhile]
  refine ⟨fun cs => ?_, fun cs hmem => ?_, fun h more => ?_⟩
  · rw [htake]
    exact (List.take_prefix _ _).trans (hdigits.isPrefix cs)
  · rw [htake] at hmem
    exact hdigits.notMem cs (List.mem_of_mem_take hmem)
  · rw [htake, htake, hdigits.append h]

/-- An escape ends before the line end, or with it. -/
theorem escapeSequence_append {cs : List Char} (h : LineEnded cs) (start : Nat) (more : List Char) :
    escapeSequence start (cs ++ more) = escapeSequence start cs := by
  generalize hr : escapeSequence start cs = r
  unfold escapeSequence at hr
  split at hr
  case h_1 => exact absurd rfl h.ne_nil
  case h_13 cs =>
      rw [← (inline_hexRun 2).append (h.tail (by decide)) more] at hr
      exact hr
  case h_14 cs =>
      have hcs := (h.tail (by decide)).tail (by decide)
      have hbrace : (cs ++ more)[(hexRun 6 cs).length]? = cs[(hexRun 6 cs).length]? :=
        List.getElem?_append_left ((inline_hexRun 6).length_lt hcs)
      dsimp only at hr
      rw [← hbrace, ← (inline_hexRun 6).append hcs more] at hr
      exact hr
  case h_15 cs hbrace =>
      have hcs := h.tail (by decide)
      rw [← (inline_hexRun 4).append hcs more] at hr
      obtain ⟨d, ds, rfl⟩ := List.exists_cons_of_ne_nil hcs.ne_nil
      have hd : d ≠ '{' := fun heq => hbrace ds (by rw [heq])
      rw [← hr]
      simp [escapeSequence, hd]
  case h_16 c cs _ _ _ _ _ _ _ _ _ _ _ _ _ _ =>
      rw [← hr]
      simp_all [escapeSequence]
  all_goals exact hr

theorem Quoting.escape_append {cs : List Char} (h : LineEnded cs) (q : Quoting) (closing : Char)
    (start : Nat) (more : List Char) :
    q.escape closing start (cs ++ more) = q.escape closing start cs := by
  cases q with
  | double => exact escapeSequence_append h start more
  | single | verbatim =>
      -- only the first character decides, and there is one
      obtain ⟨c, cs, rfl⟩ := List.exists_cons_of_ne_nil h.ne_nil
      rfl

/-- Code that ends does so whatever follows. -/
theorem codeLength_append {depth n : Nat} {cs : List Char} (h : codeLength none depth cs = some n)
    (more : List Char) : codeLength none depth (cs ++ more) = some n := by
  obtain ⟨w, rest, rfl, hlength, hw⟩ := codeLength_eq_some_iff.mp h
  exact codeLength_eq_some_iff.mpr ⟨w, rest ++ more, by simp, hlength, hw⟩

theorem interpolation_append {cur next : Cursor} {span : Span} (h : interpolation cur = .ok (span, next))
    (more : List Char) : interpolation (cur.append more) = .ok (span, next.append more) := by
  unfold interpolation at h
  dsimp only at h
  split at h
  · cases h
  · rename_i n hn
    obtain ⟨w, rest, hrest, rfl, -⟩ := codeLength_eq_some_iff.mp hn
    have hlength : 2 + w.length + 1 ≤ cur.rest.length := by
      have := congrArg List.length hrest
      simp only [Cursor.skip, List.length_drop, List.length_append, List.length_cons] at this
      omega
    have hbody : (cur.append more).skip 2 = (cur.skip 2).append more := Cursor.append_skip (by omega)
    have hinner : ∀ m ≤ w.length + 1, ((cur.skip 2).append more).skip m =
        ((cur.skip 2).skip m).append more := by
      intro m hm
      refine Cursor.append_skip ?_
      simp only [Cursor.skip, List.length_drop]
      omega
    obtain ⟨rfl, rfl⟩ := Prod.mk.inj (Except.ok.inj h)
    unfold interpolation
    dsimp only
    rw [hbody, Cursor.append_rest, codeLength_append hn]
    simp only [hinner w.length (by omega), hinner (w.length + 1) (by omega), Cursor.append_offset]

theorem interpolation_cut {cur next : Cursor} {span : Span} {more : List Char}
    (hcur : 2 ≤ cur.rest.length) (h : interpolation (cur.append more) = .ok (span, next)) :
    (∃ next₀, next = next₀.append more ∧ interpolation cur = .ok (span, next₀))
      ∨ next.rest.length ≤ more.length := by
  cases hcut : interpolation cur with
  | ok r =>
      have happend : interpolation (cur.append more) = .ok (r.1, r.2.append more) :=
        interpolation_append hcut more
      obtain ⟨rfl, rfl⟩ := Prod.mk.inj (Except.ok.inj (happend.symm.trans h))
      exact .inl ⟨r.2, rfl, rfl⟩
  | error f =>
      -- the brace is not found in the part before
      have hbody : ((cur.append more).skip 2).rest = (cur.skip 2).rest ++ more :=
        congrArg Cursor.rest (Cursor.append_skip hcur)
      have hnone : codeLength none 0 (cur.skip 2).rest = none := by
        unfold interpolation at hcut
        dsimp only at hcut
        split at hcut
        · rename_i hnone
          exact hnone
        · cases hcut
      unfold interpolation at h
      dsimp only at h
      split at h
      · cases h
      · rename_i n hn
        obtain ⟨-, rfl⟩ := Prod.mk.inj (Except.ok.inj h)
        obtain ⟨w, rest, hsplit, rfl, hnests⟩ := codeLength_eq_some_iff.mp hn
        have hrest : (((cur.append more).skip 2).skip (w.length + 1)).rest = rest := by
          show ((cur.append more).skip 2).rest.drop (w.length + 1) = rest
          rw [hsplit, List.drop_append]
          simp
        rw [hrest]
        rw [hbody] at hsplit
        rcases List.append_eq_append_iff.mp hsplit.symm with ⟨x, hx, hx'⟩ | ⟨x, hx, hx'⟩
        · cases x with
          | nil =>
              rw [List.nil_append] at hx'
              rw [← hx', List.length_cons]
              omega
          | cons c x =>
              obtain ⟨rfl, rfl⟩ := List.cons.inj hx'
              have hfound := codeLength_eq_some_iff.mpr ⟨w, x, hx, rfl, hnests⟩
              rw [hnone] at hfound
              cases hfound
        · rw [hx', List.length_append, List.length_cons]
          omega

namespace Literal

variable {l : Literal} {depth depth' : Nat} {cur next : Cursor} {made : List Piece} {more : List Char}

/-- A turn that does not come to the end of the text is made when more text follows. -/
theorem Turn.append (h : l.Turn depth cur made depth' next) (hcur : LineEnded cur.rest)
    (more : List Char) : l.Turn depth (cur.append more) made depth' (next.append more) := by
  cases h with
  | @escape cs made n rest goes_on escape =>
      have hcs : LineEnded cs := (rest ▸ hcur).tail (by decide)
      have hn : n ≤ cs.length :=
        (Quoting.escape_answers l.quoting l.closing cur.offset cs).ok _ escape
      rw [← Cursor.append_skip (by rw [rest, List.length_cons]; omega)]
      exact .escape (by rw [Cursor.append_rest, rest, List.cons_append]) goes_on
        ((Quoting.escape_append hcs _ _ _ more).trans escape)
  | code rest goes_on quoting code =>
      exact .code (by rw [Cursor.append_rest, rest]; rfl) goes_on quoting
        (interpolation_append code more)
  | @char c cs rest goes_on plain text =>
      rw [← Cursor.append_skip (by simp [rest])]
      refine .char (by rw [Cursor.append_rest, rest, List.cons_append]) goes_on plain ?_
      intro hc
      have hcs : LineEnded cs := (rest ▸ hcur).tail (by rw [hc]; decide)
      rw [hcs.head?_append]
      exact text hc

/-- A body that is closed is closed before the line end, and read when more text follows. -/
theorem pieces_append (hclosing : l.closing ≠ '\n') {n m : Nat} (hnm : n ≤ m)
    (hcur : LineEnded cur.rest) {ps : List Piece} {after : Cursor}
    (h : l.pieces n depth cur = .ok (ps, after)) (more : List Char) :
    LineEnded after.rest ∧ l.pieces m depth (cur.append more) = .ok (ps, after.append more) := by
  induction n generalizing m depth cur ps with
  | zero => cases h
  | succ n ih =>
      obtain ⟨m, rfl⟩ : ∃ k, m = k + 1 := ⟨m - 1, by omega⟩
      obtain ⟨cs, hrest, rfl⟩ | ⟨f, -, hfault⟩ | ⟨made, depth', next, hturn⟩ :=
        pieces_cases l depth cur
      · rw [pieces_closing hrest] at h
        obtain ⟨rfl, rfl⟩ := Prod.mk.inj (Except.ok.inj h)
        have hcs : LineEnded cs := (hrest ▸ hcur).tail hclosing
        have hlength : cur.rest.length = cs.length + 1 := by rw [hrest, List.length_cons]
        refine ⟨Cursor.skip_lineEnded hcur ?_, ?_⟩
        · have := List.length_pos_iff.mpr hcs.ne_nil
          omega
        · have hmore : (cur.append more).rest = l.closing :: (cs ++ more) := by
            rw [Cursor.append_rest, hrest, List.cons_append]
          rw [pieces_closing hmore, Cursor.append_skip (by omega)]
      · rw [hfault] at h
        cases h
      · rw [hturn.pieces_eq, ← bind_eq_andThen] at h
        obtain ⟨⟨ps', after'⟩, hps, h⟩ := bind_eq_ok h
        obtain ⟨rfl, rfl⟩ := Prod.mk.inj (Except.ok.inj h)
        -- the body is not closed yet, so there is something left of the text
        have hnext : LineEnded next.rest := by
          obtain ⟨w, hw, -, -⟩ := hturn.passes
          refine (hw.rest ▸ hcur).of_append fun hnil => ?_
          rw [pieces_nil hnil] at hps
          cases hps
        obtain ⟨hafter, hmore⟩ := ih (Nat.le_of_succ_le_succ hnm) hnext hps
        refine ⟨hafter, ?_⟩
        rw [(hturn.append hcur more).pieces_eq, hmore]
        rfl

theorem body_append (hclosing : l.closing ≠ '\n') (hcur : LineEnded cur.rest) {ss : List Segment}
    {after : Cursor} (h : l.body cur = .ok (ss, after)) (more : List Char) :
    LineEnded after.rest ∧ l.body (cur.append more) = .ok (ss, after.append more) := by
  obtain ⟨⟨ps, after'⟩, hps, h⟩ := bind_eq_ok h
  obtain ⟨rfl, rfl⟩ := Prod.mk.inj (Except.ok.inj h)
  have hle : cur.rest.length ≤ (cur.append more).rest.length := by simp
  obtain ⟨hafter, hmore⟩ := pieces_append hclosing hle hcur hps more
  refine ⟨hafter, ?_⟩
  unfold body
  rw [hmore]
  rfl

/-- A turn is made without the text behind, or goes into it. -/
theorem Turn.cut (h : l.Turn depth (cur.append more) made depth' next) (hcur : LineEnded cur.rest) :
    (∃ next₀, next = next₀.append more ∧ l.Turn depth cur made depth' next₀)
      ∨ next.rest.length ≤ more.length := by
  obtain ⟨c, cs, hrest⟩ := List.exists_cons_of_ne_nil hcur.ne_nil
  have happend : (cur.append more).rest = c :: (cs ++ more) := by
    rw [Cursor.append_rest, hrest, List.cons_append]
  have htail : c ≠ '\n' → LineEnded cs := fun hc => (hrest ▸ hcur).tail hc
  have hlength : cur.rest.length = cs.length + 1 := by rw [hrest, List.length_cons]
  cases h with
  | @escape cs' made n rest goes_on escape =>
      obtain ⟨rfl, rfl⟩ := List.cons.inj (happend.symm.trans rest)
      have hcs := htail (by decide)
      rw [Cursor.append_offset, Quoting.escape_append hcs] at escape
      have hn : n ≤ cs.length :=
        (Quoting.escape_answers l.quoting l.closing cur.offset cs).ok _ escape
      exact .inl ⟨_, Cursor.append_skip (by omega), .escape hrest goes_on escape⟩
  | @code _ cs' span rest goes_on quoting code =>
      obtain ⟨rfl, hcs'⟩ := List.cons.inj (happend.symm.trans rest)
      have hcs := htail (by decide)
      obtain ⟨d, ds, rfl⟩ := List.exists_cons_of_ne_nil hcs.ne_nil
      obtain ⟨rfl, -⟩ := List.cons.inj hcs'
      rcases interpolation_cut (by rw [hlength, List.length_cons]; omega) code with
        ⟨next₀, rfl, hcode⟩ | hspills
      · exact .inl ⟨next₀, rfl, .code hrest goes_on quoting hcode⟩
      · exact .inr hspills
  | @char c' cs' rest goes_on plain text =>
      obtain ⟨rfl, rfl⟩ := List.cons.inj (happend.symm.trans rest)
      refine .inl ⟨_, Cursor.append_skip (by omega), .char hrest goes_on plain ?_⟩
      intro hc
      rw [(htail (by rw [hc]; decide)).head?_append] at text
      exact text hc

/-- A body that is not closed in a text of whole lines is not closed before the end of it. -/
theorem pieces_spills {f : Fault} {n m : Nat} (hcur : LineEnded cur.rest ∨ cur.rest = [])
    (hn : cur.rest.length ≤ n) (h : l.pieces n depth cur = .error f) {ps : List Piece} {after : Cursor}
    (hmore : l.pieces m depth (cur.append more) = .ok (ps, after)) :
    after.rest.length ≤ more.length := by
  have hshorter : ∀ {k depth : Nat} {cur after : Cursor} {ps : List Piece},
      l.pieces k depth cur = .ok (ps, after) → after.rest.length ≤ cur.rest.length := by
    intro k depth cur after ps hk
    obtain ⟨w, hw, -, -⟩ := (pieces_answers l k depth cur).ok _ hk
    have hlength : cur.rest.length = w.length + after.rest.length := hw.length_eq
    omega
  induction m generalizing n depth cur ps f with
  | zero => cases hmore
  | succ m ih =>
      rcases hcur with hcur | hnil
      · obtain ⟨cs, hrest, rfl⟩ | ⟨f', -, hfault⟩ | ⟨made, depth', next, hturn⟩ :=
          pieces_cases l depth (cur.append more)
        · -- closed at once, so also without more text
          obtain ⟨c, cs', hcs'⟩ := List.exists_cons_of_ne_nil hcur.ne_nil
          rw [Cursor.append_rest, hcs', List.cons_append] at hrest
          obtain ⟨rfl, -⟩ := List.cons.inj hrest
          have hpos : 0 < cur.rest.length := List.length_pos_iff.mpr hcur.ne_nil
          obtain ⟨n, rfl⟩ : ∃ k, n = k + 1 := ⟨n - 1, by omega⟩
          rw [pieces_closing hcs'] at h
          cases h
        · rw [hfault] at hmore
          cases hmore
        · rw [hturn.pieces_eq, ← bind_eq_andThen] at hmore
          obtain ⟨⟨ps', after'⟩, hps, hmore⟩ := bind_eq_ok hmore
          obtain ⟨rfl, rfl⟩ := Prod.mk.inj (Except.ok.inj hmore)
          rcases hturn.cut hcur with ⟨next₀, rfl, hturn₀⟩ | hspills
          · obtain ⟨w, hw, hne, -⟩ := hturn₀.passes
            have hlength := hw.length_eq
            have hpos : 0 < w.length := List.length_pos_iff.mpr hne
            obtain ⟨n, rfl⟩ : ∃ k, n = k + 1 := ⟨n - 1, by omega⟩
            rw [hturn₀.pieces_eq] at h
            have hnext : LineEnded next₀.rest ∨ next₀.rest = [] := by
              by_cases hnil : next₀.rest = []
              · exact .inr hnil
              · exact .inl ((hw.rest ▸ hcur).of_append hnil)
            cases hpieces : l.pieces n depth' next₀ with
            | ok r => rw [hpieces] at h; cases h
            | error f' =>
                have hle : next₀.rest.length ≤ n := by omega
                exact ih hnext hle hpieces hps
          · exact Nat.le_trans (hshorter hps) hspills
      · have hle := hshorter hmore
        rwa [Cursor.append_rest, hnil, List.nil_append] at hle

theorem body_spills {f : Fault} (hcur : LineEnded cur.rest ∨ cur.rest = []) (h : l.body cur = .error f)
    {ss : List Segment} {after : Cursor} (hmore : l.body (cur.append more) = .ok (ss, after)) :
    after.rest.length ≤ more.length := by
  obtain ⟨⟨ps, after'⟩, hps, hmore⟩ := bind_eq_ok hmore
  obtain ⟨-, rfl⟩ := Prod.mk.inj (Except.ok.inj hmore)
  cases hpieces : l.pieces cur.rest.length 0 cur with
  | ok r =>
      unfold body at h
      rw [hpieces] at h
      cases h
  | error f' => exact pieces_spills hcur (Nat.le_refl _) hpieces hps

end Literal

/-! ## Tokens -/

namespace Lexer

/-- That what `x` reads stops before the line end, and that `y` reads it with `more` behind. What `x`
fails to read, `y` fails to read as well, or it goes on into `more`. -/
structure Extends (more : List Char) (x y : Except Fault (TokenKind × Cursor)) : Prop where
  ok : ∀ kind next, x = .ok (kind, next) → LineEnded next.rest ∧ y = .ok (kind, next.append more)
  fault : ∀ f kind next, x = .error f → y = .ok (kind, next) → next.rest.length ≤ more.length

namespace Extends

variable {cur : Cursor} {more : List Char}

theorem of_error {f f' : Fault} : Extends more (.error f) (.error f') :=
  ⟨fun _ _ h => (by cases h), fun _ _ _ _ h => (by cases h)⟩

theorem of_ok {kind : TokenKind} {next : Cursor} (h : LineEnded next.rest) :
    Extends more (.ok (kind, next)) (.ok (kind, next.append more)) := by
  refine ⟨fun kind' next' heq => ?_, fun _ _ _ heq => by cases heq⟩
  obtain ⟨rfl, rfl⟩ := Prod.mk.inj (Except.ok.inj heq)
  exact ⟨h, rfl⟩

theorem of_skip {kind : TokenKind} {n : Nat} (h : LineEnded cur.rest) (hn : n < cur.rest.length) :
    Extends more (.ok (kind, cur.skip n)) (.ok (kind, (cur.append more).skip n)) := by
  rw [Cursor.append_skip (Nat.le_of_lt hn)]
  exact of_ok (Cursor.skip_lineEnded h hn)

theorem of_body (kind : List Segment → TokenKind) {l : Literal} (hclosing : l.closing ≠ '\n') {n : Nat}
    (h : LineEnded cur.rest) (hn : n < cur.rest.length) :
    Extends more (l.body (cur.skip n) >>= fun r => .ok (kind r.1, r.2))
      (l.body ((cur.append more).skip n) >>= fun r => .ok (kind r.1, r.2)) := by
  have hinside := Cursor.skip_lineEnded h hn
  rw [Cursor.append_skip (Nat.le_of_lt hn)]
  cases hbody : l.body (cur.skip n) with
  | ok r =>
      obtain ⟨hafter, hmore⟩ := Literal.body_append hclosing hinside hbody more
      rw [hmore]
      exact of_ok hafter
  | error f =>
      refine ⟨fun _ _ h => (by cases h), fun _ kind' next _ hy => ?_⟩
      obtain ⟨⟨ss, after⟩, hmore, hy⟩ := bind_eq_ok hy
      obtain ⟨-, rfl⟩ := Prod.mk.inj (Except.ok.inj hy)
      exact Literal.body_spills (.inl hinside) hbody hmore

end Extends

variable {cur : Cursor} {cs more : List Char} {c : Char}

theorem inline_nameMark : Inline nameMark := by
  refine ⟨nameMark_isPrefix, fun cs => ?_, fun {cs} h more => ?_⟩
  · unfold nameMark
    split
    · split
      · rename_i hmark
        rw [List.mem_singleton]
        rintro rfl
        simp at hmark
      · exact List.not_mem_nil
    · exact List.not_mem_nil
  · obtain ⟨c, cs, rfl⟩ := List.exists_cons_of_ne_nil h.ne_nil
    by_cases hc : (c == '?' || c == '!') = true
    · have hcs : LineEnded cs := h.tail (by rintro rfl; simp at hc)
      simp only [List.cons_append, nameMark, hcs.head?_append]
    · simp only [List.cons_append, nameMark, hc, Bool.false_and]

theorem inline_isNameChar : Inline (List.takeWhile isNameChar) := .takeWhile (by decide)

theorem inline_wordChars : Inline wordChars := inline_isNameChar.andThen inline_nameMark

theorem colonFollows_append (h : LineEnded cs) (more : List Char) :
    colonFollows (cs ++ more) = colonFollows cs := by
  obtain ⟨c, cs, rfl⟩ := List.exists_cons_of_ne_nil h.ne_nil
  by_cases hc : c = ':'
  · subst hc
    simp only [List.cons_append, colonFollows, (h.tail (by decide)).head?_append]
  · simp [colonFollows, hc]

/-- A word ends before the line end, and so does the colon of a label. -/
theorem word_append (last : Option TokenKind) (h : LineEnded cur.rest) (more : List Char) :
    Extends more (.ok (word last cur)) (.ok (word last (cur.append more))) := by
  have hlt := inline_wordChars.length_lt h
  have hnext := Cursor.skip_lineEnded h hlt
  rw [word_eq, word_eq, Cursor.append_rest, inline_wordChars.append h,
    Cursor.append_skip (Nat.le_of_lt hlt)]
  generalize cur.skip (wordChars cur.rest).length = next at hnext
  unfold wordOf
  dsimp only
  rw [Cursor.append_rest, colonFollows_append hnext]
  split
  · rename_i hlabel
    refine .of_skip hnext ?_
    -- the colon is no line end
    have hcolon : colonFollows next.rest = true := by simp_all
    unfold colonFollows at hcolon
    split at hcolon
    · rename_i cs hrest
      have hcs := (hrest ▸ hnext).tail (by decide)
      rw [hrest, List.length_cons]
      have := List.length_pos_iff.mpr hcs.ne_nil
      omega
    · cases hcolon
  split
  · exact .of_ok hnext
  split
  · exact .of_ok hnext
  split
  · exact .of_ok hnext
  · exact .of_ok hnext

theorem instanceVariable_append (h : LineEnded cur.rest) (hone : 1 < cur.rest.length)
    (more : List Char) : Extends more (instanceVariable cur) (instanceVariable (cur.append more)) := by
  obtain ⟨hrun, hlt⟩ := inline_isNameChar.behindFirst h hone more
  unfold instanceVariable
  dsimp only
  rw [Cursor.append_peekAt hone, hrun]
  split
  · split
    · exact .of_error
    split
    · exact .of_skip h hlt
    · exact .of_error
  · exact .of_error

theorem globalVariable_append (h : LineEnded cur.rest) (hone : 1 < cur.rest.length)
    (more : List Char) : Extends more (globalVariable cur) (globalVariable (cur.append more)) := by
  obtain ⟨hrun, hlt⟩ := inline_isNameChar.behindFirst h hone more
  unfold globalVariable
  dsimp only
  rw [Cursor.append_peekAt hone, hrun]
  split
  · exact .of_skip h hlt
  split
  · rename_i c hpeek
    split
    · rename_i hmark
      refine .of_skip h (Cursor.lt_length_of_peekAt h hpeek ?_)
      rintro rfl
      exact absurd hmark (by decide)
    · exact .of_error
  · exact .of_error

theorem literalAllowed_append (last : Option TokenKind) (spaced : Bool) (hone : 1 < cur.rest.length)
    (more : List Char) : literalAllowed last spaced (cur.append more) = literalAllowed last spaced cur := by
  unfold literalAllowed
  rw [Cursor.append_peekAt hone]

theorem inline_symbolMark : Inline symbolMark := by
  have hplain : ∀ c ds, c ≠ '=' → symbolMark (c :: ds) = nameMark (c :: ds) := by
    intro c ds hc
    simp [symbolMark, hc]
  refine ⟨fun cs => ?_, fun cs => ?_, fun {cs} h more => ?_⟩
  · unfold symbolMark
    split
    · split
      · split
        · exact List.nil_prefix
        · exact (List.prefix_append_right_inj ['=']).mpr List.nil_prefix
      · exact (List.prefix_append_right_inj ['=']).mpr List.nil_prefix
    · exact nameMark_isPrefix _
  · unfold symbolMark
    split
    · split
      · split
        · exact List.not_mem_nil
        · decide
      · decide
    · exact inline_nameMark.notMem _
  · obtain ⟨c, cs, rfl⟩ := List.exists_cons_of_ne_nil h.ne_nil
    by_cases hc : c = '='
    · subst hc
      simp only [List.cons_append, symbolMark, (h.tail (by decide)).head?_append]
    · rw [List.cons_append, hplain c _ hc, hplain c _ hc, ← List.cons_append,
        inline_nameMark.append h]

/-- The sigils and name characters of a symbol, without its mark. -/
def symbolStem (cs : List Char) : List Char :=
  let sigils := cs.takeWhile (fun c => c == '@' || c == '$')
  sigils ++ (cs.drop sigils.length).takeWhile isNameChar

/-- The characters of a symbol that is a name. -/
def symbolChars (cs : List Char) : List Char :=
  symbolStem cs ++ symbolMark (cs.drop (symbolStem cs).length)

theorem inline_symbolChars : Inline symbolChars :=
  Inline.andThen (Inline.andThen (.takeWhile (by decide)) inline_isNameChar) inline_symbolMark

theorem symbolOperators_inline : ∀ o ∈ symbolOperators, '\n' ∉ o.toList := by decide

theorem operators_inline : ∀ o ∈ operators, '\n' ∉ o.1.toList := by decide

/-- Of words without line ends the same one is found. -/
theorem find?_startsWith_append {α : Type} {os : List α} {text : α → String}
    (hos : ∀ o ∈ os, '\n' ∉ (text o).toList) (h : LineEnded cs) (more : List Char) :
    os.find? (fun o => startsWith (text o) (cs ++ more)) =
      os.find? (fun o => startsWith (text o) cs) := by
  induction os with
  | nil => rfl
  | cons o os ih =>
      rw [List.find?_cons, List.find?_cons, h.startsWith_append (hos o List.mem_cons_self),
        ih fun p hp => hos p (List.mem_cons_of_mem _ hp)]

theorem length_lt_of_startsWith {s : String} (hs : '\n' ∉ s.toList) (h : LineEnded cs)
    (hstarts : startsWith s cs = true) : s.length < cs.length := by
  have hlt := h.length_lt (List.isPrefixOf_iff_prefix.mp hstarts) hs
  rwa [String.length_toList] at hlt

theorem colon_append (last : Option TokenKind) (spaced : Bool) (h : LineEnded cur.rest)
    (hone : 1 < cur.rest.length) (more : List Char) :
    Extends more (colon last spaced cur) (colon last spaced (cur.append more)) := by
  have htail := h.drop hone
  have hdrop : (cur.append more).rest.drop 1 = cur.rest.drop 1 ++ more :=
    List.drop_append_of_le_length (Nat.le_of_lt hone)
  unfold colon
  rw [Cursor.append_peekAt hone, literalAllowed_append last spaced hone]
  split
  · rename_i hcolon
    exact .of_skip h (Cursor.lt_length_of_peekAt h (beq_iff_eq.mp hcolon) (by decide))
  split
  · exact .of_skip h hone
  split
  · rename_i c hpeek
    -- Either quote begins a quoted symbol.
    iterate 2
      split
      · rename_i hquote
        obtain rfl := beq_iff_eq.mp hquote
        exact .of_body .dsymbol (by simp) h (Cursor.lt_length_of_peekAt h hpeek (by decide))
    split
    · obtain ⟨hname, hlt⟩ := inline_symbolChars.behindFirst h hone more
      simp only [← List.length_append]
      show Extends more (.ok (.symbol (String.ofList (symbolChars (cur.rest.drop 1))),
          cur.skip (1 + (symbolChars (cur.rest.drop 1)).length)))
        (.ok (.symbol (String.ofList (symbolChars ((cur.append more).rest.drop 1))),
          (cur.append more).skip (1 + (symbolChars ((cur.append more).rest.drop 1)).length)))
      rw [hname]
      exact .of_skip h hlt
    · rw [hdrop, find?_startsWith_append symbolOperators_inline htail]
      split
      · rename_i op hop
        have hstarts := List.find?_some hop
        have hlt := length_lt_of_startsWith
          (symbolOperators_inline op (List.mem_of_find?_eq_some hop)) htail hstarts
        rw [List.length_drop] at hlt
        exact .of_skip h (by omega)
      · exact .of_skip h hone
  · exact .of_skip h hone

theorem percentForm?_append (h : LineEnded cur.rest) (hone : 1 < cur.rest.length)
    (more : List Char) : percentForm? (cur.append more) = percentForm? cur := by
  unfold percentForm?
  rw [Cursor.append_peekAt hone]
  split
  · rfl
  · rename_i c hpeek
    by_cases hletter : (c == 'x' || c == 'w' || c == 'W' || c == 'q' || c == 'Q') = true
    · have htwo := Cursor.lt_length_of_peekAt h hpeek (by rintro rfl; simp at hletter)
      rw [Cursor.append_peekAt htwo]
    · rw [Bool.not_eq_true] at hletter
      simp only [hletter, Bool.false_and]

/-- The delimiter of a `%` literal is no line end. -/
theorem percentForm?_delimiter {form : Char} {n : Nat} (hform : percentForm? cur = some (form, n)) :
    ∃ c, cur.peekAt n = some c ∧ isDelimiter c = true := by
  unfold percentForm? at hform
  split at hform
  · cases hform
  · rename_i c hpeek
    split at hform
    · rename_i hletter
      obtain ⟨-, rfl⟩ := Prod.mk.inj (Option.some.inj hform)
      have hdelim := (Bool.and_eq_true_iff.mp hletter).2
      cases hd : cur.peekAt 2 with
      | none => rw [hd] at hdelim; cases hdelim
      | some d => exact ⟨d, rfl, by simpa [hd] using hdelim⟩
    · split at hform
      · rename_i hdelim
        obtain ⟨-, rfl⟩ := Prod.mk.inj (Option.some.inj hform)
        exact ⟨c, hpeek, hdelim⟩
      · cases hform

theorem delimiter_inline (hc : isDelimiter c = true) : c ≠ '\n' ∧ closingDelimiter c ≠ '\n' := by
  simp only [isDelimiter, Bool.or_eq_true, beq_iff_eq] at hc
  rcases hc with ((((((rfl | rfl) | rfl) | rfl) | rfl) | rfl) | rfl) | rfl <;> decide

/-- A percent sign opens a literal before both texts or before neither. -/
theorem percentLiteral?_append (h : LineEnded cur.rest) (hone : 1 < cur.rest.length)
    (more : List Char) (allowed : Bool) :
    (if allowed then percentLiteral? cur else none) = none ∧
        (if allowed then percentLiteral? (cur.append more) else none) = none ∨
      ∃ x y, (if allowed then percentLiteral? cur else none) = some x ∧
        (if allowed then percentLiteral? (cur.append more) else none) = some y ∧
        Extends more x y := by
  cases allowed with
  | false => exact .inl ⟨rfl, rfl⟩
  | true =>
  rw [if_pos rfl, if_pos rfl]
  unfold percentLiteral?
  rw [percentForm?_append h hone]
  split
  · exact .inl ⟨rfl, rfl⟩
  · rename_i form n hform
    obtain ⟨c, hpeek, hdelim⟩ := percentForm?_delimiter hform
    obtain ⟨hopening, hclosing⟩ := delimiter_inline hdelim
    have hlt := Cursor.lt_length_of_peekAt h hpeek hopening
    rw [Cursor.append_peekAt (Nat.lt_of_succ_lt hlt), hpeek]
    refine .inr ⟨_, _, rfl, rfl, ?_⟩
    split
    · exact .of_body .xstr hclosing h hlt
    · exact .of_body .str hclosing h hlt
    · exact .of_body .str hclosing h hlt
    · exact .of_body (fun ss => .words (Text.words (segmentsText ss))) hclosing h hlt

theorem operator?_append (h : LineEnded cur.rest) (more : List Char) :
    operator? (cur.append more) = (operator? cur).map (fun r => (r.1, r.2.append more))
      ∧ ∀ r, operator? cur = some r → LineEnded r.2.rest := by
  unfold operator?
  rw [Cursor.append_rest, find?_startsWith_append operators_inline h]
  cases hfind : operators.find? (fun o => startsWith o.1 cur.rest) with
  | none => exact ⟨rfl, nofun⟩
  | some o =>
      have hstarts := List.find?_some hfind
      have hlt := length_lt_of_startsWith (operators_inline o (List.mem_of_find?_eq_some hfind)) h
        hstarts
      refine ⟨?_, fun r hr => ?_⟩
      · simp only [Option.map_some, Cursor.append_skip (Nat.le_of_lt hlt)]
      · rw [← Option.some.inj hr]
        exact Cursor.skip_lineEnded h hlt

/-- **A token is read without a look past the line end.** -/
theorem token_append (last : Option TokenKind) (spaced : Bool) (h : LineEnded cur.rest)
    (hrest : cur.rest = c :: cs) (hc : c ≠ '\n') (more : List Char) :
    Extends more (token last spaced cur) (token last spaced (cur.append more)) := by
  have hone : 1 < cur.rest.length :=
    Cursor.lt_length_of_peekAt (n := 0) h (by simp [Cursor.peekAt, hrest]) hc
  have hcs : LineEnded cs := (hrest ▸ h).tail hc
  have hmore : (cur.append more).rest = c :: (cs ++ more) := by
    rw [Cursor.append_rest, hrest, List.cons_append]
  have hhead : (cs ++ more).head? = cs.head? := hcs.head?_append more
  unfold token
  rw [hrest, hmore]
  dsimp only
  rw [hhead, literalAllowed_append last spaced hone]
  by_cases hdouble : (c == '\x22') = true
  · rw [if_pos hdouble, if_pos hdouble]
    exact .of_body .str hc h hone
  rw [if_neg hdouble, if_neg hdouble]
  by_cases hsingle : (c == '\x27') = true
  · rw [if_pos hsingle, if_pos hsingle]
    exact .of_body .str hc h hone
  rw [if_neg hsingle, if_neg hsingle]
  by_cases hback : (c == '\x60') = true
  · rw [if_pos hback, if_pos hback]
    exact .of_body .xstr hc h hone
  rw [if_neg hback, if_neg hback]
  by_cases hdigit : c.isDigit = true
  · rw [if_pos hdigit, if_pos hdigit, ← List.cons_append, ← hrest, Numeral.scan_append h,
      Cursor.append_offset]
    cases hscan : Numeral.scan cur.offset cur.rest with
    | error f => exact .of_error
    | ok r =>
        have hpre : r.2 <+: cur.rest := by
          rw [hrest] at hscan ⊢
          exact ((Numeral.scan_answers hdigit).ok _ hscan).1
        exact .of_skip h (h.length_lt hpre (Numeral.notMem_scan hscan))
  rw [if_neg hdigit, if_neg hdigit]
  by_cases hat : (c == '@') = true
  · rw [if_pos hat, if_pos hat]
    exact instanceVariable_append h hone more
  rw [if_neg hat, if_neg hat]
  by_cases hdollar : (c == '$') = true
  · rw [if_pos hdollar, if_pos hdollar]
    exact globalVariable_append h hone more
  rw [if_neg hdollar, if_neg hdollar]
  by_cases hcolon : (c == ':') = true
  · rw [if_pos hcolon, if_pos hcolon]
    exact colon_append last spaced h hone more
  rw [if_neg hcolon, if_neg hcolon]
  by_cases hlambda : (c == '-' && cs.head? == some '>') = true
  · rw [if_pos hlambda, if_pos hlambda]
    exact .of_error
  rw [if_neg hlambda, if_neg hlambda]
  by_cases hname : isNameStart c = true
  · rw [if_pos hname, if_pos hname]
    exact word_append last h more
  rw [if_neg hname, if_neg hname]
  obtain ⟨hnone, hnone'⟩ | ⟨x, y, hx, hy, hextends⟩ :=
    percentLiteral?_append h hone more (c == '%' && literalAllowed last spaced cur)
  · obtain ⟨hmap, hline⟩ := operator?_append h more
    rw [hnone, hnone', hmap]
    cases hop : operator? cur with
    | none => exact .of_error
    | some r => exact .of_ok (hline r hop)
  · rw [hx, hy]
    exact hextends

/-- A token that ends before the text behind is read without it. -/
theorem token_cut (last : Option TokenKind) (spaced : Bool) (h : LineEnded cur.rest)
    (hrest : cur.rest = c :: cs) (hc : c ≠ '\n') {kind : TokenKind} {next : Cursor}
    (htoken : token last spaced (cur.append more) = .ok (kind, next))
    (hnext : more.length < next.rest.length) :
    ∃ next₀, next = next₀.append more ∧ LineEnded next₀.rest
      ∧ token last spaced cur = .ok (kind, next₀) := by
  cases hcut : token last spaced cur with
  | error f =>
      have hspills := (token_append last spaced h hrest hc more).fault f kind next hcut htoken
      omega
  | ok r =>
      obtain ⟨hline, hmore⟩ := (token_append last spaced h hrest hc more).ok r.1 r.2 hcut
      obtain ⟨rfl, rfl⟩ := Prod.mk.inj (Except.ok.inj (hmore.symm.trans htoken))
      exact ⟨r.2, rfl, hline, rfl⟩

end Lexer

end RubyJs
