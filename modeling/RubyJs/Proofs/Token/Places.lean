import RubyJs.Token.Cursor

set_option autoImplicit false

/-! # Offsets that fall between characters

An offset counts bytes, and a character takes up to four of them, so not every number up to the size
of a text is a place in it. Those that are, the boundaries, are the sizes of what can stand before
them:

    é = 2        boundaries 0, 2, 3, 4, 5, 6; no character begins at 1

A cursor moves by characters. What it passes (`Cursor.Passes`) is a run `w` of its text, and its
offset grows by the size of `w`, so a cursor that stands in a text stays at boundaries of it.
-/

namespace RubyJs

variable {rest : List Char}

/-! ## Boundaries -/

/-- That `offset` is where a character of `text` begins, or where `text` ends. -/
def Boundary (text : List Char) (offset : Nat) : Prop :=
  ∃ before after, text = before ++ after ∧ offset = byteSize before

theorem Boundary.le_byteSize {text : List Char} {offset : Nat} (h : Boundary text offset) :
    offset ≤ byteSize text := by
  obtain ⟨before, after, rfl, rfl⟩ := h
  rw [byteSize_append]
  omega

theorem byteSize_pos {w : List Char} (h : w ≠ []) : 0 < byteSize w := by
  cases w with
  | nil => exact absurd rfl h
  | cons c cs =>
      have hc : 0 < c.utf8Size := Char.utf8Size_pos c
      rw [byteSize_cons]
      omega

theorem utf8Size_of_lt {c : Char} (h : c.toNat < 128) : c.utf8Size = 1 := by
  apply Char.utf8Size_eq_one_iff.mpr
  show c.val.toNat ≤ 127
  have hc : c.val.toNat < 128 := h
  omega

theorem byteSize_eq_length {w : List Char} (h : ∀ c ∈ w, c.toNat < 128) :
    byteSize w = w.length := by
  induction w with
  | nil => rfl
  | cons c cs ih =>
      have hc : c.utf8Size = 1 := utf8Size_of_lt (h c List.mem_cons_self)
      have hcs : byteSize cs = cs.length := ih (fun d hd => h d (List.mem_cons_of_mem c hd))
      rw [byteSize_cons, List.length_cons, hc, hcs]
      omega

/-- The position at a boundary is reached by going over what stands before it. -/
theorem Position.walk_byteSize (p : Position) (before after : List Char) :
    p.walk (before ++ after) (byteSize before) = before.foldl Position.step p := by
  induction before generalizing p with
  | nil =>
      cases after with
      | nil => rfl
      | cons c cs =>
          show (if 0 < c.utf8Size then p else _) = p
          rw [if_pos (Char.utf8Size_pos c)]
  | cons c cs ih =>
      have hc : ¬ c.utf8Size + byteSize cs < c.utf8Size := by omega
      show (if c.utf8Size + byteSize cs < c.utf8Size then p
        else (p.step c).walk (cs ++ after) (c.utf8Size + byteSize cs - c.utf8Size)) = _
      rw [if_neg hc, Nat.add_sub_cancel_left, ih]
      rfl

/-! ## Spans and what they cover -/

/-- That the bytes of `s` are those of a run `w` of `text`. -/
def Span.Covers (text : List Char) (s : Span) (w : List Char) : Prop :=
  ∃ before after, text = before ++ (w ++ after) ∧ s.start = byteSize before
    ∧ s.stop = byteSize before + byteSize w

namespace Span.Covers

variable {text w : List Char} {s : Span}

theorem start_boundary (h : s.Covers text w) : Boundary text s.start := by
  obtain ⟨before, after, htext, hstart, -⟩ := h
  exact ⟨before, w ++ after, htext, hstart⟩

theorem stop_boundary (h : s.Covers text w) : Boundary text s.stop := by
  obtain ⟨before, after, htext, -, hstop⟩ := h
  refine ⟨before ++ w, after, ?_, ?_⟩
  · rw [htext, List.append_assoc]
  · rw [hstop, byteSize_append]

/-- A run inside of what a span covers is covered by its own span. -/
theorem inner {front run back : List Char} (h : s.Covers text (front ++ (run ++ back))) :
    Covers text ⟨s.start + byteSize front, s.start + byteSize front + byteSize run⟩ run := by
  obtain ⟨before, after, rfl, hstart, -⟩ := h
  refine ⟨before ++ front, back ++ after, ?_, ?_, ?_⟩
  · simp only [List.append_assoc]
  · show s.start + byteSize front = _
    rw [byteSize_append, hstart]
  · show s.start + byteSize front + byteSize run = _
    rw [byteSize_append, hstart]

theorem start_lt_stop (h : s.Covers text w) (hw : w ≠ []) : s.start < s.stop := by
  obtain ⟨before, after, -, hstart, hstop⟩ := h
  have hpos : 0 < byteSize w := byteSize_pos hw
  omega

theorem start_le_stop (h : s.Covers text w) : s.start ≤ s.stop := by
  obtain ⟨before, after, -, hstart, hstop⟩ := h
  omega

end Span.Covers

/-- A whole text is covered by the span from its first byte to its last. -/
theorem Span.covers_whole (text : List Char) : (⟨0, byteSize text⟩ : Span).Covers text text :=
  ⟨[], [], by simp, rfl, by simp⟩

/-- Between two boundaries stands a run of the text. -/
theorem Span.exists_covers {text : List Char} {s : Span} (hstart : Boundary text s.start)
    (hstop : Boundary text s.stop) (hle : s.start ≤ s.stop) : ∃ w, s.Covers text w := by
  obtain ⟨before, after, htext, hbefore⟩ := hstart
  obtain ⟨before', after', htext', hbefore'⟩ := hstop
  rcases List.append_eq_append_iff.mp (htext.symm.trans htext') with
    ⟨w, rfl, rfl⟩ | ⟨w, rfl, rfl⟩
  · refine ⟨w, before, after', htext, hbefore, ?_⟩
    rw [hbefore', byteSize_append]
  · -- the second boundary stands before the first, so both are one
    have hw : w = [] := by
      apply Classical.byContradiction
      intro hne
      have hpos := byteSize_pos hne
      rw [byteSize_append] at hbefore
      omega
    subst hw
    refine ⟨[], before', after, ?_, ?_, ?_⟩
    · simpa using htext
    · simpa using hbefore
    · simpa using hbefore'

private theorem sliceBytes_go_before {start stop offset : Nat} {before : List Char}
    (hstart : offset + byteSize before = start) (hstop : start ≤ stop) :
    sliceBytes.go start stop offset (before ++ rest) = sliceBytes.go start stop start rest := by
  induction before generalizing offset with
  | nil => rw [← hstart, byteSize_nil, Nat.add_zero, List.nil_append]
  | cons c cs ih =>
      have hpos : 0 < c.utf8Size := Char.utf8Size_pos c
      rw [byteSize_cons] at hstart
      have hstop' : ¬ stop ≤ offset := by omega
      have hstart' : ¬ start ≤ offset := by omega
      rw [List.cons_append, sliceBytes.go, if_neg hstop', if_neg hstart', ih (by omega)]

private theorem sliceBytes_go_inside {start stop offset : Nat} {w : List Char}
    (hstart : start ≤ offset) (hstop : offset + byteSize w = stop) :
    sliceBytes.go start stop offset (w ++ rest) = w := by
  induction w generalizing offset with
  | nil =>
      have hend : stop ≤ offset := by rw [byteSize_nil] at hstop; omega
      cases rest with
      | nil => rfl
      | cons c cs => rw [List.nil_append, sliceBytes.go, if_pos hend]
  | cons c cs ih =>
      have hpos : 0 < c.utf8Size := Char.utf8Size_pos c
      rw [byteSize_cons] at hstop
      have hstop' : ¬ stop ≤ offset := by omega
      rw [List.cons_append, sliceBytes.go, if_neg hstop', if_pos hstart,
        ih (by omega) (by omega)]

/-- The slice of a text by a span is what the span covers. -/
theorem Span.Covers.sliceBytes_eq {text w : List Char} {s : Span} (h : s.Covers text w) :
    sliceBytes text s.start s.stop = w := by
  have hle : s.start ≤ s.stop := h.start_le_stop
  obtain ⟨before, after, rfl, hstart, hstop⟩ := h
  calc sliceBytes (before ++ (w ++ after)) s.start s.stop
      = sliceBytes.go s.start s.stop s.start (w ++ after) :=
        sliceBytes_go_before (by omega) hle
    _ = w := sliceBytes_go_inside (Nat.le_refl _) (by omega)

/-- That `s` is the span of a run that stands strictly inside of `w`, a text that begins at
`offset`. -/
def Span.Inside (offset : Nat) (w : List Char) (s : Span) : Prop :=
  ∃ front run back, w = front ++ (run ++ back) ∧ front ≠ [] ∧ back ≠ []
    ∧ s = ⟨offset + byteSize front, offset + byteSize front + byteSize run⟩

namespace Span.Inside

variable {offset : Nat} {w : List Char} {s : Span}

theorem append_right (h : s.Inside offset w) (v : List Char) : s.Inside offset (w ++ v) := by
  obtain ⟨front, run, back, rfl, hfront, hback, rfl⟩ := h
  refine ⟨front, run, back ++ v, ?_, hfront, ?_, rfl⟩
  · simp only [List.append_assoc]
  · exact fun hnil => hback (List.append_eq_nil_iff.mp hnil).1

theorem append_left (v : List Char) (h : s.Inside (offset + byteSize v) w) :
    s.Inside offset (v ++ w) := by
  obtain ⟨front, run, back, rfl, hfront, hback, rfl⟩ := h
  refine ⟨v ++ front, run, back, ?_, ?_, hback, ?_⟩
  · simp only [List.append_assoc]
  · exact fun hnil => hfront (List.append_eq_nil_iff.mp hnil).2
  · rw [byteSize_append, Nat.add_assoc offset]

/-- A run inside of what a span covers lies strictly between the ends of that span. -/
theorem covers {text : List Char} {t : Span} (h : s.Inside t.start w) (ht : t.Covers text w) :
    (∃ run, s.Covers text run) ∧ t.start < s.start ∧ s.start ≤ s.stop ∧ s.stop < t.stop := by
  obtain ⟨front, run, back, rfl, hfront, hback, rfl⟩ := h
  have hf : 0 < byteSize front := byteSize_pos hfront
  have hb : 0 < byteSize back := byteSize_pos hback
  refine ⟨⟨run, ht.inner⟩, ?_, ht.inner.start_le_stop, ?_⟩
  · show t.start < t.start + byteSize front
    omega
  · obtain ⟨before, after, -, hstart, hstop⟩ := ht
    simp only [byteSize_append] at hstop
    show t.start + byteSize front + byteSize run < t.stop
    omega

end Span.Inside

/-! ## Cursors -/

namespace Cursor

variable {cur next : Cursor} {w : List Char}

/-- That `next` stands behind the run `w` at the front of `cur`. -/
structure Passes (cur : Cursor) (w : List Char) (next : Cursor) : Prop where
  rest : cur.rest = w ++ next.rest
  offset : next.offset = cur.offset + byteSize w

theorem Passes.refl (cur : Cursor) : cur.Passes [] cur := ⟨rfl, rfl⟩

theorem Passes.trans {last : Cursor} {v : List Char} (h : cur.Passes w next)
    (h' : next.Passes v last) : cur.Passes (w ++ v) last := by
  constructor
  · rw [h.rest, h'.rest, List.append_assoc]
  · rw [h'.offset, h.offset, byteSize_append, Nat.add_assoc]

theorem passes_skip (cur : Cursor) (n : Nat) : cur.Passes (cur.rest.take n) (cur.skip n) :=
  ⟨(List.take_append_drop n cur.rest).symm, rfl⟩

/-- Skipping as many characters as a run at the front has passes that run. -/
theorem skip_length (h : cur.rest = w ++ rest) :
    cur.skip w.length = ⟨rest, cur.offset + byteSize w⟩ := by
  unfold skip
  rw [h, List.take_left, List.drop_left]

theorem passes_of_eq (h : cur.rest = w ++ rest) : cur.Passes w (cur.skip w.length) := by
  rw [skip_length h]
  exact ⟨h, rfl⟩

theorem passes_of_isPrefix (h : w <+: cur.rest) : cur.Passes w (cur.skip w.length) := by
  obtain ⟨rest, hrest⟩ := h
  exact passes_of_eq hrest.symm

theorem Passes.stop_eq (h : cur.Passes w next) : next.stop = cur.stop := by
  unfold stop
  rw [h.offset, h.rest, byteSize_append, Nat.add_assoc]

theorem Passes.length_eq (h : cur.Passes w next) :
    cur.rest.length = w.length + next.rest.length := by
  rw [h.rest, List.length_append]

theorem Passes.run_eq {v : List Char} (h : cur.Passes w next) (h' : cur.Passes v next) : w = v :=
  List.append_cancel_right (h.rest.symm.trans h'.rest)

/-- That a character of the cursor's text begins at `offset`, or that the text ends there. -/
def Reaches (cur : Cursor) (offset : Nat) : Prop :=
  ∃ w next, cur.Passes w next ∧ next.offset = offset

theorem reaches_self (cur : Cursor) : cur.Reaches cur.offset := ⟨[], cur, .refl cur, rfl⟩

theorem reaches_of_isPrefix (h : w <+: cur.rest) : cur.Reaches (cur.offset + byteSize w) :=
  ⟨w, cur.skip w.length, passes_of_isPrefix h, (passes_of_isPrefix h).offset⟩

theorem Passes.reaches {offset : Nat} (h : cur.Passes w next) (h' : next.Reaches offset) :
    cur.Reaches offset := by
  obtain ⟨v, last, hv, hoffset⟩ := h'
  exact ⟨w ++ v, last, h.trans hv, hoffset⟩

/-- That the cursor's text is a part of `text`, at its own offset. -/
def In (text : List Char) (cur : Cursor) : Prop :=
  (⟨cur.offset, cur.stop⟩ : Span).Covers text cur.rest

/-- What a cursor passes is covered by the span between its offsets, and the cursor after it reads
the same text. -/
theorem In.passes {text : List Char} (h : cur.In text) (hw : cur.Passes w next) :
    (⟨cur.offset, next.offset⟩ : Span).Covers text w ∧ next.In text := by
  obtain ⟨before, after, htext, hstart, hstop⟩ := h
  replace hstart : cur.offset = byteSize before := hstart
  replace hstop : cur.stop = byteSize before + byteSize cur.rest := hstop
  constructor
  · refine ⟨before, next.rest ++ after, ?_, hstart, ?_⟩
    · rw [htext, hw.rest, List.append_assoc]
    · show next.offset = _
      rw [hw.offset, hstart]
  · refine ⟨before ++ w, after, ?_, ?_, ?_⟩
    · rw [htext, hw.rest, List.append_assoc, List.append_assoc]
    · show next.offset = _
      rw [hw.offset, hstart, byteSize_append]
    · show next.stop = _
      rw [hw.stop_eq, hstop, hw.rest, byteSize_append, byteSize_append, Nat.add_assoc]

end Cursor

end RubyJs
