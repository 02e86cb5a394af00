import RubyJs.Proofs.Token.EndData

set_option autoImplicit false

/-! # Texts at another place

The offsets of tokens and faults count from the beginning of the whole text, so a part of it that is
read where it stands gives other offsets than the same part read alone:

    x = "#{a + b}"        the code in the braces stands at 7..12
    a + b                 alone it stands at 0..5

Nothing else is different. The lexer looks at the characters that are left and at the tokens before
them, never at an offset, so each of its functions commutes with moving a text on by `d` bytes
(`Lexer.token_shift`), and so does a run of the loop (`Scan.Relocated.run`). What is left to compare
are the two things that the loop knows of the text in front of a part: whether a line begins there,
and whether a marker line counts.
-/

namespace RubyJs

/-! ## Moving on -/

/-- The span `d` bytes further on. -/
def Span.shift (d : Nat) (s : Span) : Span := ⟨s.start + d, s.stop + d⟩

/-- The segment of a text that stands `d` bytes further on. -/
def Segment.shift (d : Nat) : Segment → Segment
  | .text t => .text t
  | .code s => .code (s.shift d)

/-- The kind of a token that stands `d` bytes further on. -/
def TokenKind.shift (d : Nat) : TokenKind → TokenKind
  | .str ss => .str (ss.map (Segment.shift d))
  | .xstr ss => .xstr (ss.map (Segment.shift d))
  | .dsymbol ss => .dsymbol (ss.map (Segment.shift d))
  | kind => kind

/-- The token of a text that stands `d` bytes further on. -/
def Token.shift (d : Nat) (t : Token) : Token := ⟨t.kind.shift d, t.span.shift d, t.spaced⟩

/-- The fault of a text that stands `d` bytes further on. -/
def Fault.shift (d : Nat) (f : Fault) : Fault := ⟨f.offset + d, f.cause⟩

/-- The cursor in a text that stands `d` bytes further on. -/
def Cursor.shift (d : Nat) (cur : Cursor) : Cursor := ⟨cur.rest, cur.offset + d⟩

/-- The piece of a literal that stands `d` bytes further on. -/
def Piece.shift (d : Nat) : Piece → Piece
  | .char c => .char c
  | .code s => .code (s.shift d)

/-- The literal that opens `d` bytes further on. -/
def Literal.shift (d : Nat) (l : Literal) : Literal := { l with start := l.start + d }

/-- The answer for a text that stands `d` bytes further on, where `move` tells what becomes of
a result. -/
def moved {α : Type} (d : Nat) (move : α → α) : Except Fault α → Except Fault α
  | .ok a => .ok (move a)
  | .error f => .error (f.shift d)

section Moving

variable {α β : Type} {d : Nat}

theorem moved_bind {move : α → α} {move' : β → β} {x : Except Fault α} {f f' : α → Except Fault β}
    (hf : ∀ a, f' (move a) = moved d move' (f a)) :
    (moved d move x >>= f') = moved d move' (x >>= f) := by
  cases x with
  | error e => rfl
  | ok a => exact hf a

theorem Cursor.shift_skip (cur : Cursor) (n : Nat) : (cur.shift d).skip n = (cur.skip n).shift d := by
  simp only [skip, shift, Nat.add_right_comm]

theorem Cursor.shift_rest (cur : Cursor) : (cur.shift d).rest = cur.rest := rfl

theorem Cursor.shift_peekAt (cur : Cursor) (n : Nat) : (cur.shift d).peekAt n = cur.peekAt n := rfl

end Moving

/-! ## Literals -/

section Literals

variable {d : Nat}

theorem codePoint_shift (start : Nat) (ds : List Char) :
    codePoint (start + d) ds = moved d id (codePoint start ds) := by
  unfold codePoint
  split
  · rfl
  · split <;> rfl

theorem escapeSequence_shift (start : Nat) (cs : List Char) :
    escapeSequence (start + d) cs = moved d id (escapeSequence start cs) := by
  unfold escapeSequence
  split
  case h_13 =>
      dsimp only
      split <;> rfl
  case h_14 =>
      dsimp only
      split
      · rw [codePoint_shift]
        exact moved_bind fun _ => rfl
      · rfl
  case h_15 =>
      dsimp only
      rw [codePoint_shift]
      exact moved_bind fun _ => rfl
  all_goals rfl

theorem Quoting.escape_shift (q : Quoting) (closing : Char) (start : Nat) (cs : List Char) :
    q.escape closing (start + d) cs = moved d id (q.escape closing start cs) := by
  cases q with
  | double => exact escapeSequence_shift start cs
  | single | verbatim =>
      cases cs with
      | nil => rfl
      | cons c cs =>
          unfold escape
          dsimp only
          split <;> rfl

theorem interpolation_shift (cur : Cursor) : interpolation (cur.shift d) =
    moved d (fun r => (r.1.shift d, r.2.shift d)) (interpolation cur) := by
  unfold interpolation
  dsimp only
  rw [Cursor.shift_skip, Cursor.shift_rest]
  cases codeLength none 0 (cur.skip 2).rest with
  | none => rfl
  | some n =>
      dsimp only
      rw [Cursor.shift_skip, Cursor.shift_skip]
      rfl

namespace Piece

theorem group_shift (collected : List Char) (ps : List Piece) :
    group collected (ps.map (Piece.shift d)) = (group collected ps).map (Segment.shift d) := by
  have hflush : ∀ cs, (flush cs).map (Segment.shift d) = flush cs := by
    intro cs
    unfold flush
    split <;> rfl
  induction ps generalizing collected with
  | nil => exact (hflush collected).symm
  | cons p ps ih =>
      cases p with
      | char c => exact ih (c :: collected)
      | code s =>
          show flush collected ++ .code (s.shift d) :: group [] (ps.map (Piece.shift d)) = _
          rw [ih, group, List.map_append, hflush]
          rfl

theorem segments_shift (ps : List Piece) :
    segments (ps.map (Piece.shift d)) = (segments ps).map (Segment.shift d) := by
  unfold segments
  rw [group_shift]
  cases group [] ps <;> rfl

end Piece

namespace Literal

theorem pieces_shift (l : Literal) (fuel depth : Nat) (cur : Cursor) :
    (l.shift d).pieces fuel depth (cur.shift d) =
      moved d (fun r => (r.1.map (Piece.shift d), r.2.shift d)) (l.pieces fuel depth cur) := by
  induction fuel generalizing depth cur with
  | zero => rfl
  | succ fuel ih =>
      rw [pieces, pieces, Cursor.shift_rest]
      cases cur.rest with
      | nil => rfl
      | cons c cs =>
          have hclosing : (l.shift d).closing = l.closing := rfl
          have hquoting : (l.shift d).quoting = l.quoting := rfl
          have hnest : (l.shift d).nest = l.nest := rfl
          have hoffset : (cur.shift d).offset = cur.offset + d := rfl
          dsimp only
          rw [hclosing, hquoting, hnest, hoffset, Cursor.shift_peekAt]
          split
          · rw [Cursor.shift_skip]
            rfl
          split
          · rw [Quoting.escape_shift]
            refine moved_bind fun r => ?_
            show ((l.shift d).pieces fuel depth ((cur.shift d).skip (r.2 + 1)) >>= _) = _
            rw [Cursor.shift_skip, ih]
            refine moved_bind fun r' => ?_
            simp [moved, Piece.shift]
          split
          · rw [interpolation_shift]
            refine moved_bind fun r => ?_
            show ((l.shift d).pieces fuel depth (r.2.shift d) >>= _) = _
            rw [ih]
            exact moved_bind fun r' => rfl
          · rw [Cursor.shift_skip, ih]
            exact moved_bind fun r' => rfl

theorem body_shift (l : Literal) (cur : Cursor) : (l.shift d).body (cur.shift d) =
    moved d (fun r => (r.1.map (Segment.shift d), r.2.shift d)) (l.body cur) := by
  unfold body
  rw [Cursor.shift_rest, pieces_shift]
  refine moved_bind fun r => ?_
  simp only [Piece.segments_shift, moved]

end Literal

end Literals

/-! ## Tokens -/

section Tokens

variable {d : Nat}

namespace Numeral

theorem checkDigits_shift (start at_ radix : Nat) (body : List Char) :
    checkDigits (start + d) (at_ + d) radix body = moved d id (checkDigits start at_ radix body) := by
  unfold checkDigits
  split
  · rfl
  · split
    · simp only [moved, Fault.shift, Nat.add_right_comm]
    · rfl

theorem decimal_shift (start : Nat) (cs : List Char) : scan.decimal (start + d) cs =
    moved d (fun r => (r.1.shift d, r.2)) (scan.decimal start cs) := by
  unfold scan.decimal
  dsimp only
  split
  · split
    · rw [Nat.add_right_comm, checkDigits_shift]
      exact moved_bind fun _ => rfl
    · rfl
  · rfl

theorem scan_shift (start : Nat) (cs : List Char) : scan (start + d) cs =
    moved d (fun r => (r.1.shift d, r.2)) (scan start cs) := by
  unfold scan
  split
  · split
    · dsimp only
      rw [Nat.add_right_comm, checkDigits_shift]
      exact moved_bind fun _ => rfl
    · exact decimal_shift start _
  · exact decimal_shift start _

end Numeral

namespace Lexer

/-- A token with its place, in a text that stands `d` bytes further on. -/
def shiftRead (d : Nat) (r : TokenKind × Cursor) : TokenKind × Cursor := (r.1.shift d, r.2.shift d)

theorem word_shift (last : Option TokenKind) (cur : Cursor) :
    word last (cur.shift d) = shiftRead d (word last cur) := by
  rw [word_eq, word_eq, Cursor.shift_rest, Cursor.shift_skip]
  generalize cur.skip (wordChars cur.rest).length = next
  have hnext : (next.shift d).rest = next.rest := rfl
  unfold wordOf
  dsimp only
  rw [hnext, Cursor.shift_skip]
  split
  · rfl
  split
  · rfl
  split
  · rfl
  split <;> rfl

theorem instanceVariable_shift (cur : Cursor) :
    instanceVariable (cur.shift d) = moved d (shiftRead d) (instanceVariable cur) := by
  unfold instanceVariable
  dsimp only
  rw [Cursor.shift_peekAt, Cursor.shift_rest, Cursor.shift_skip]
  split
  · split
    · rfl
    split <;> rfl
  · rfl

theorem globalVariable_shift (cur : Cursor) :
    globalVariable (cur.shift d) = moved d (shiftRead d) (globalVariable cur) := by
  unfold globalVariable
  dsimp only
  rw [Cursor.shift_peekAt, Cursor.shift_rest, Cursor.shift_skip, Cursor.shift_skip]
  split
  · rfl
  split
  · split <;> rfl
  · rfl

/-- A literal that is read as a token. -/
theorem literal_shift (kind : List Segment → TokenKind)
    (hkind : ∀ ss, kind (ss.map (Segment.shift d)) = (kind ss).shift d) (l : Literal) (cur : Cursor) :
    ((l.shift d).body (cur.shift d) >>= fun r => .ok (kind r.1, r.2)) =
      moved d (shiftRead d) (l.body cur >>= fun r => .ok (kind r.1, r.2)) := by
  rw [Literal.body_shift]
  refine moved_bind fun r => ?_
  simp only [hkind, moved, shiftRead]

theorem literalAllowed_shift (last : Option TokenKind) (spaced : Bool) (cur : Cursor) :
    literalAllowed last spaced (cur.shift d) = literalAllowed last spaced cur := rfl

theorem colon_shift (last : Option TokenKind) (spaced : Bool) (cur : Cursor) :
    colon last spaced (cur.shift d) = moved d (shiftRead d) (colon last spaced cur) := by
  have hoffset : (cur.shift d).offset + 1 = cur.offset + 1 + d := Nat.add_right_comm _ _ _
  unfold colon
  simp only [Cursor.shift_peekAt, Cursor.shift_rest, literalAllowed_shift, hoffset, Cursor.shift_skip]
  split
  · rfl
  split
  · rfl
  split
  · rename_i c _
    split
    · exact literal_shift .dsymbol (fun _ => rfl) ⟨c, c, .double, cur.offset + 1⟩ (cur.skip 2)
    split
    · exact literal_shift .dsymbol (fun _ => rfl) ⟨c, c, .single, cur.offset + 1⟩ (cur.skip 2)
    split
    · rfl
    split <;> rfl
  · rfl

theorem segmentsText_shift (ss : List Segment) :
    segmentsText (ss.map (Segment.shift d)) = segmentsText ss := by
  unfold segmentsText
  rw [List.map_map]
  refine congrArg String.join (List.map_congr_left fun s _ => ?_)
  cases s <;> rfl

theorem percentLiteral?_shift (cur : Cursor) :
    percentLiteral? (cur.shift d) = (percentLiteral? cur).map (moved d (shiftRead d)) := by
  have hform : percentForm? (cur.shift d) = percentForm? cur := rfl
  unfold percentLiteral?
  rw [hform]
  split
  · rfl
  · rename_i form n _
    rw [Cursor.shift_peekAt]
    split
    · rfl
    · rename_i opening _
      have hoffset : (cur.shift d).offset + n = cur.offset + n + d := Nat.add_right_comm _ _ _
      have hliteral : ∀ (q : Quoting) (kind : List Segment → TokenKind),
          (∀ ss, kind (ss.map (Segment.shift d)) = (kind ss).shift d) →
          (Literal.body ⟨opening, closingDelimiter opening, q, cur.offset + n + d⟩
              ((cur.skip (n + 1)).shift d) >>= fun r => .ok (kind r.1, r.2)) =
            moved d (shiftRead d)
              (Literal.body ⟨opening, closingDelimiter opening, q, cur.offset + n⟩
                (cur.skip (n + 1)) >>= fun r => .ok (kind r.1, r.2)) := by
        intro q kind hkind
        exact literal_shift kind hkind ⟨opening, closingDelimiter opening, q, cur.offset + n⟩ _
      dsimp only
      rw [hoffset, Cursor.shift_skip, Option.map_some, Option.some.injEq]
      split
      · exact hliteral .verbatim .xstr fun _ => rfl
      · exact hliteral .single .str fun _ => rfl
      · exact hliteral .double .str fun _ => rfl
      · refine hliteral .single (fun ss => .words (Text.words (segmentsText ss))) fun ss => ?_
        rw [segmentsText_shift]
        rfl

theorem operator?_shift (cur : Cursor) :
    operator? (cur.shift d) = (operator? cur).map (shiftRead d) := by
  have hkinds : ∀ o ∈ operators, o.2.shift d = o.2 := by simp [operators, TokenKind.shift]
  unfold operator?
  rw [Cursor.shift_rest]
  cases hfind : operators.find? (fun o => startsWith o.1 cur.rest) with
  | none => rfl
  | some o =>
      simp only [Option.map_some, Cursor.shift_skip, shiftRead,
        hkinds o (List.mem_of_find?_eq_some hfind)]

/-- **A token is the same at every place**, but for its offsets. -/
theorem token_shift (last : Option TokenKind) (spaced : Bool) (cur : Cursor) :
    token last spaced (cur.shift d) = moved d (shiftRead d) (token last spaced cur) := by
  have hoffset : (cur.shift d).offset = cur.offset + d := rfl
  unfold token
  rw [Cursor.shift_rest]
  split
  · rfl
  · rename_i c cs _
    rw [hoffset, literalAllowed_shift, Cursor.shift_skip]
    by_cases hdouble : (c == '\x22') = true
    · rw [if_pos hdouble, if_pos hdouble]
      exact literal_shift .str (fun _ => rfl) ⟨c, c, .double, cur.offset⟩ (cur.skip 1)
    rw [if_neg hdouble, if_neg hdouble]
    by_cases hsingle : (c == '\x27') = true
    · rw [if_pos hsingle, if_pos hsingle]
      exact literal_shift .str (fun _ => rfl) ⟨c, c, .single, cur.offset⟩ (cur.skip 1)
    rw [if_neg hsingle, if_neg hsingle]
    by_cases hback : (c == '\x60') = true
    · rw [if_pos hback, if_pos hback]
      exact literal_shift .xstr (fun _ => rfl) ⟨c, c, .verbatim, cur.offset⟩ (cur.skip 1)
    rw [if_neg hback, if_neg hback]
    by_cases hdigit : c.isDigit = true
    · rw [if_pos hdigit, if_pos hdigit, Numeral.scan_shift]
      refine moved_bind fun r => ?_
      show Except.ok (r.1.shift d, (cur.shift d).skip r.2.length) = _
      rw [Cursor.shift_skip]
      rfl
    rw [if_neg hdigit, if_neg hdigit]
    by_cases hat : (c == '@') = true
    · rw [if_pos hat, if_pos hat]
      exact instanceVariable_shift cur
    rw [if_neg hat, if_neg hat]
    by_cases hdollar : (c == '$') = true
    · rw [if_pos hdollar, if_pos hdollar]
      exact globalVariable_shift cur
    rw [if_neg hdollar, if_neg hdollar]
    by_cases hcolon : (c == ':') = true
    · rw [if_pos hcolon, if_pos hcolon]
      exact colon_shift last spaced cur
    rw [if_neg hcolon, if_neg hcolon]
    by_cases hlambda : (c == '-' && cs.head? == some '>') = true
    · rw [if_pos hlambda, if_pos hlambda]
      rfl
    rw [if_neg hlambda, if_neg hlambda]
    by_cases hname : isNameStart c = true
    · rw [if_pos hname, if_pos hname, word_shift]
      rfl
    rw [if_neg hname, if_neg hname]
    rw [percentLiteral?_shift, operator?_shift]
    generalize (c == '%' && literalAllowed last spaced cur) = allowed
    cases allowed with
    | false => cases operator? cur <;> rfl
    | true =>
        cases percentLiteral? cur with
        | none => cases operator? cur <;> rfl
        | some x => rfl

end Lexer

end Tokens

/-! ## The tokens before

What stands in a literal never decides how the text goes on, only that a literal stands there. -/

namespace TokenKind

/-- Whether a token of this kind is a literal that can hold code. -/
def isQuoted : TokenKind → Bool
  | str _ | xstr _ | dsymbol _ => true
  | _ => false

/-- The kind of a token, without what stands in a literal. -/
def bare : TokenKind → TokenKind
  | str _ => str []
  | xstr _ => xstr []
  | dsymbol _ => dsymbol []
  | kind => kind

theorem bare_shift (d : Nat) (kind : TokenKind) : (kind.shift d).bare = kind.bare := by
  cases kind <;> rfl

theorem bare_eq_iff {kind k : TokenKind} (hk : k.isQuoted = false) : kind.bare = k ↔ kind = k := by
  cases kind with
  | str | xstr | dsymbol =>
      constructor <;>
      · rintro rfl
        cases hk
  | _ => exact Iff.rfl

end TokenKind

namespace Lexer

theorem bare_beq {k : TokenKind} (hk : k.isQuoted = false) (last : Option TokenKind) :
    (last.map TokenKind.bare == some k) = (last == some k) := by
  rcases last with _ | kind
  · rfl
  · rw [Bool.eq_iff_iff]
    simpa using TokenKind.bare_eq_iff hk

theorem word_bare (last : Option TokenKind) (cur : Cursor) :
    word (last.map TokenKind.bare) cur = word last cur := by
  rw [word_eq, word_eq]
  unfold wordOf
  rw [bne, bne, bare_beq rfl, bare_beq rfl]

theorem literalAllowed_bare (last : Option TokenKind) (spaced : Bool) (cur : Cursor) :
    literalAllowed (last.map TokenKind.bare) spaced cur = literalAllowed last spaced cur := by
  rcases last with _ | kind
  · rfl
  · cases kind <;> rfl

theorem token_bare (last : Option TokenKind) (spaced : Bool) (cur : Cursor) :
    token (last.map TokenKind.bare) spaced cur = token last spaced cur := by
  unfold token colon
  simp only [word_bare, literalAllowed_bare]

/-- Whether a line end is dropped is decided by the kinds of the tokens before it. -/
theorem lineEndDropped_bare {ts ts' : List Token}
    (h : ts.map (fun t => t.kind.bare) = ts'.map (fun t => t.kind.bare)) (cs : List Char) :
    lineEndDropped ts cs = lineEndDropped ts' cs := by
  have hat : ∀ n : Nat, (ts[n]?.map Token.kind).map TokenKind.bare =
      (ts'[n]?.map Token.kind).map TokenKind.bare := by
    intro n
    have hn := congrArg (fun ks => ks[n]?) h
    simpa only [List.getElem?_map, Option.map_map, Function.comp_def] using hn
  have hbeq : ∀ (n : Nat) (k : TokenKind), k.isQuoted = false →
      (ts[n]?.map Token.kind == some k) = (ts'[n]?.map Token.kind == some k) := by
    intro n k hk
    rw [← bare_beq hk, hat, bare_beq hk]
  have hnames : operatorNamesMethod ts = operatorNamesMethod ts' := by
    unfold operatorNamesMethod
    dsimp only
    rw [hbeq 1 (.keyword .defKw) rfl, hbeq 1 (.keyword .aliasKw) rfl, hbeq 1 .dot rfl,
      hbeq 2 (.keyword .aliasKw) rfl]
  have hgoesOn : ∀ kind : TokenKind, kind.bare.continuesLine = kind.continuesLine := by
    intro kind
    cases kind <;> rfl
  unfold lineEndDropped
  rw [hnames]
  cases ts with
  | nil =>
      obtain rfl : ts' = [] := List.map_eq_nil_iff.mp h.symm
      rfl
  | cons t ts =>
      cases ts' with
      | nil => cases h
      | cons t' ts' =>
          have hhead : t.kind.bare = t'.kind.bare := (List.cons.inj h).1
          dsimp only
          rw [← hgoesOn, hhead, hgoesOn]

/-! ## The loop -/

/-- That two texts which stand `d` bytes apart get the same answer: results that `R` relates, or the
same fault. -/
inductive Agree (d : Nat) {α : Type} (R : α → α → Prop) : Except Fault α → Except Fault α → Prop where
  | ok {a b : α} (related : R a b) : Agree d R (.ok a) (.ok b)
  | fault (f : Fault) : Agree d R (.error f) (.error (f.shift d))

namespace Scan

variable {d : Nat} {before before' : List Token} {s s' : Scan}

/-- That `s'` is `s` with its text `d` bytes further on. Before that text the tokens `before` were
read, and the tokens `before'`, which are of the same kinds. -/
structure Relocated (d : Nat) (before before' : List Token) (s s' : Scan) : Prop where
  cursor : s'.cursor = s.cursor.shift d
  lineStart : s'.lineStart = s.lineStart
  spaced : s'.spaced = s.spaced
  kinds : before.map (fun t => t.kind.bare) = before'.map (fun t => t.kind.bare)
  tokens : ∃ new, s.tokens = new ++ before ∧ s'.tokens = new.map (Token.shift d) ++ before'

namespace Relocated

theorem bare (h : Relocated d before before' s s') :
    s.tokens.map (fun t => t.kind.bare) = s'.tokens.map (fun t => t.kind.bare) := by
  obtain ⟨new, hs, hs'⟩ := h.tokens
  rw [hs, hs', List.map_append, List.map_append, List.map_map, h.kinds]
  refine congrArg (· ++ _) (List.map_congr_left fun t _ => ?_)
  exact (TokenKind.bare_shift d t.kind).symm

theorem blank (h : Relocated d before before' s s') (n : Nat) (lineStart : Bool) :
    Relocated d before before' (s.blank n lineStart) (s'.blank n lineStart) := by
  refine ⟨?_, rfl, rfl, h.kinds, h.tokens⟩
  show s'.cursor.skip n = _
  rw [h.cursor, Cursor.shift_skip]
  rfl

theorem push (h : Relocated d before before' s s') (kind : TokenKind) (next : Cursor) :
    Relocated d before before' (s.push kind next) (s'.push (kind.shift d) (next.shift d)) := by
  obtain ⟨new, hs, hs'⟩ := h.tokens
  refine ⟨rfl, rfl, rfl, h.kinds, ⟨kind, ⟨s.cursor.offset, next.offset⟩, s.spaced⟩ :: new, ?_, ?_⟩
  · show _ :: s.tokens = _
    rw [hs]
    rfl
  · show ⟨kind.shift d, ⟨s'.cursor.offset, next.offset + d⟩, s'.spaced⟩ :: s'.tokens = _
    rw [hs', h.cursor, h.spaced]
    rfl

theorem lineEnd (h : Relocated d before before' s s') : Relocated d before before' s.lineEnd s'.lineEnd := by
  have hrest : (s'.cursor.skip 1).rest = (s.cursor.skip 1).rest := by
    rw [h.cursor]
    rfl
  unfold Scan.lineEnd
  dsimp only
  rw [hrest, lineEndDropped_bare h.bare]
  split
  · exact ⟨(h.blank 1 true).cursor, rfl, rfl, h.kinds, h.tokens⟩
  · rw [h.cursor, Cursor.shift_skip]
    have hpush := h.push .newline (s.cursor.skip 1)
    exact ⟨hpush.cursor, rfl, rfl, h.kinds, hpush.tokens⟩

/-- **A step is the same at every place**, but for the offsets. -/
theorem step (h : Relocated d before before' s s') : Agree d (Relocated d before before') s.step s'.step := by
  have hrest : s'.cursor.rest = s.cursor.rest := by
    rw [h.cursor]
    rfl
  have hlast : (s.tokens.head?.map Token.kind).map TokenKind.bare =
      (s'.tokens.head?.map Token.kind).map TokenKind.bare := by
    have hhead := congrArg List.head? h.bare
    simpa only [List.head?_map, Option.map_map, Function.comp_def] using hhead
  have htoken : token (s'.tokens.head?.map Token.kind) s'.spaced s'.cursor =
      moved d (shiftRead d) (token (s.tokens.head?.map Token.kind) s.spaced s.cursor) := by
    rw [h.cursor, h.spaced, token_shift, ← token_bare, ← hlast, token_bare]
  rw [step_eq, step_eq, h.lineStart, hrest, htoken]
  split
  · split
    · exact .ok (h.blank _ true)
    · rw [h.cursor]
      exact .fault ⟨s.cursor.offset, .unclosedDocument⟩
  · split
    · exact .ok (h.blank _ _)
    · exact .ok h.lineEnd
    · cases token (s.tokens.head?.map Token.kind) s.spaced s.cursor with
      | error f => exact .fault f
      | ok r => exact .ok (h.push r.1 r.2)

/-- **What the loop reads is the same at every place**, but for the offsets of the new tokens. -/
theorem run (h : Relocated d before before' s s') (marker : Bool) (fuel : Nat) :
    Agree d (fun r r' => r'.2 = r.2
        ∧ ∃ new, r.1 = before.reverse ++ new ∧ r'.1 = before'.reverse ++ new.map (Token.shift d))
      (Scan.run marker fuel s) (Scan.run marker fuel s') := by
  have hread : ∀ {s s' : Scan}, Relocated d before before' s s' → ∃ new,
      s.tokens.reverse = before.reverse ++ new
        ∧ s'.tokens.reverse = before'.reverse ++ new.map (Token.shift d) := by
    intro s s' h
    obtain ⟨new, hs, hs'⟩ := h.tokens
    exact ⟨new.reverse, by rw [hs, List.reverse_append],
      by rw [hs', List.reverse_append, List.map_reverse]⟩
  induction fuel generalizing s s' with
  | zero => exact .ok ⟨rfl, hread h⟩
  | succ fuel ih =>
      have hrest : s'.cursor.rest = s.cursor.rest := by
        rw [h.cursor]
        rfl
      rw [Scan.run, Scan.run, hrest, h.lineStart]
      split
      · exact .ok ⟨rfl, hread h⟩
      split
      · exact .ok ⟨rfl, hread h⟩
      · have hstep := h.step
        generalize s.step = x, s'.step = x' at hstep
        cases hstep with
        | fault f => exact .fault f
        | ok hnext => exact ih hnext

end Relocated

/-! ## What the loop knows of the text before -/

/-- Whether a line begins at the front matters for a document alone. -/
theorem step_lineStart (h : startsWith "=begin" s.cursor.rest = false) (lineStart : Bool) :
    ({ s with lineStart } : Scan).step = s.step := by
  have hno : ∀ b : Bool, ¬ (b && startsWith "=begin" s.cursor.rest) = true := by
    intro b
    rw [h, Bool.and_false]
    exact Bool.false_ne_true
  rw [step_eq, step_eq, if_neg (hno _), if_neg (hno _)]
  cases gap s.cursor.rest with
  | blank | none => rfl
  | lineEnd =>
      unfold lineEnd
      dsimp only
      split <;> rfl

theorem run_lineStart (h : startsWith "=begin" s.cursor.rest = false) (lineStart : Bool)
    (fuel : Nat) : run false fuel { s with lineStart } = run false fuel s := by
  cases fuel with
  | zero => rfl
  | succ fuel =>
      rw [run, run, step_lineStart h]
      rfl

/-- Where no marker line is found, it makes no difference whether one is looked for. -/
theorem run_false {fuel : Nat} {x : Except Fault (List Token × Option (List Char))}
    (h : run true fuel s = x) (hdata : ∀ r, x = .ok r → r.2 = none) : run false fuel s = x := by
  induction fuel generalizing s with
  | zero => exact h
  | succ fuel ih =>
      rw [run] at h ⊢
      split at h
      · rename_i hrest
        rw [if_pos hrest]
        exact h
      · rename_i hrest
        rw [if_neg hrest]
        split at h
        · cases hdata _ h.symm
        · show (s.step >>= run false fuel) = x
          cases hstep : s.step with
          | error f =>
              rw [hstep] at h
              exact h
          | ok s₁ =>
              rw [hstep] at h
              exact ih h

end Scan

end Lexer

/-! ## Parts of a text -/

/-- The character before a place is the last one of what stands before it. -/
theorem charBefore_byteSize (front back : List Char) :
    charBefore (front ++ back) (byteSize front) = front.getLast? := by
  rw [charBefore_append (Nat.le_refl _)]
  -- the walk stands at `seen`, and the last character ends where it stops
  have hgo : ∀ (cs : List Char) (seen offset : Nat), offset = seen + byteSize cs →
      charBefore.go offset seen cs = cs.getLast? := by
    intro cs
    induction cs with
    | nil => exact fun _ _ _ => rfl
    | cons c cs ih =>
        intro seen offset hoffset
        rw [byteSize_cons] at hoffset
        rw [charBefore.go]
        cases cs with
        | nil =>
            rw [if_pos (by rw [hoffset, byteSize_nil, Nat.add_zero])]
            rfl
        | cons c' cs =>
            have hpos := byteSize_pos (List.cons_ne_nil c' cs)
            rw [if_neg (by omega), ih _ _ (by omega), List.getLast?_cons_cons]
  exact hgo front 0 _ (Nat.zero_add _).symm

/-- That a line of `text` begins at `offset`. -/
def BeginsLine (text : List Char) (offset : Nat) : Prop :=
  ∃ before after, text = before ++ after ∧ offset = byteSize before ∧ (before = [] ∨ LineEnded before)

theorem BeginsLine.lineStart {text : List Char} {offset : Nat} (h : BeginsLine text offset) :
    (offset == 0 || charBefore text offset == some '\n') = true := by
  obtain ⟨front, back, rfl, rfl, rfl | hline⟩ := h
  · rfl
  · rw [charBefore_byteSize, hline]
    simp

/-- The tokens of a text that stands `d` bytes further on. -/
def Lexed.shift (d : Nat) (l : Lexed) : Lexed :=
  ⟨l.written.map (Token.shift d), l.stop + d, l.endData⟩

theorem Lexed.tokens_shift (d : Nat) (l : Lexed) : (l.shift d).tokens = l.tokens.map (Token.shift d) := by
  unfold tokens
  rw [List.map_append]
  rfl

open Lexer in
theorem Lexer.Scan.Relocated.lexed {d : Nat} {s s' : Scan} (h : Scan.Relocated d [] [] s s') (marker : Bool)
    (fuel stop : Nat) : Agree d (fun l l' : Lexed => l' = l.shift d)
      ((Scan.run marker fuel s).map fun r => ⟨r.1, stop, r.2.map String.ofList⟩)
      ((Scan.run marker fuel s').map fun r => ⟨r.1, stop + d, r.2.map String.ofList⟩) := by
  have hrun := h.run marker fuel
  generalize Scan.run marker fuel s = x, Scan.run marker fuel s' = x' at hrun
  cases hrun with
  | fault f => exact .fault f
  | ok hr =>
      obtain ⟨hdata, new, hnew, hnew'⟩ := hr
      refine .ok ?_
      simp only [Lexed.shift, hdata, hnew, hnew', List.reverse_nil, List.nil_append]

open Lexer in
/-- Reading a part in its place and reading it alone agree, if the part has no marker line and does
not begin with a document that begins no line. -/
theorem lexRange_agree {source part : String} {range : Span}
    (hpart : range.Covers source.toList part.toList)
    (hmarker : ∀ l, lex part = .ok l → l.endData = none)
    (hdocument : startsWith "=begin" part.toList = true → BeginsLine source.toList range.start) :
    Agree range.start (fun l l' => l' = l.shift range.start) (lex part) (lexRange source range) := by
  have hrest : sliceBytes source.toList range.start range.stop = part.toList := hpart.sliceBytes_eq
  have hstop : range.stop = byteSize part.toList + range.start := by
    obtain ⟨before, after, -, hstart, hstop⟩ := hpart
    omega
  -- the part where it stands, as if a line began there
  have hstart : Scan.run false part.toList.length (Scan.ofRange source.toList range) =
      Scan.run false part.toList.length ⟨⟨part.toList, range.start⟩, true, false, []⟩ := by
    unfold Scan.ofRange
    rw [hrest]
    by_cases hbegin : startsWith "=begin" part.toList = true
    · rw [(hdocument hbegin).lineStart]
    · exact Scan.run_lineStart (s := ⟨⟨part.toList, range.start⟩, true, false, []⟩)
        (Bool.eq_false_iff.mpr hbegin) _ _
  have hrelocated : Scan.Relocated range.start [] [] (Scan.ofText part.toList)
      ⟨⟨part.toList, range.start⟩, true, false, []⟩ := by
    refine ⟨?_, rfl, rfl, rfl, [], rfl, rfl⟩
    simp [Scan.ofText, Cursor.shift]
  have hlength : (Scan.ofRange source.toList range).cursor.rest.length = part.toList.length :=
    congrArg List.length hrest
  rw [lex_eq_map] at hmarker
  rw [lex_eq_map, lexRange_eq_map, hlength, hstart]
  have hunmarked : Scan.run false part.toList.length (Scan.ofText part.toList) =
      Scan.run true part.toList.length (Scan.ofText part.toList) :=
    Scan.run_false rfl fun r hr => by simpa using hmarker _ (congrArg _ hr)
  rw [← hunmarked, hstop]
  exact hrelocated.lexed false _ _

/-- **A part of a text reads in its place as it reads alone**, if no marker line ends it and a document
at its front begins a line. One succeeds if the other does, with the same tokens further on, and both
fail for the same cause. -/
theorem lexRange_alone {source part : String} {range : Span}
    (hpart : range.Covers source.toList part.toList)
    (hmarker : ∀ l, lex part = .ok l → l.endData = none)
    (hdocument : startsWith "=begin" part.toList = true → BeginsLine source.toList range.start) :
    ((∃ l', lexRange source range = .ok l') ↔ ∃ l, lex part = .ok l)
      ∧ (∀ l l', lex part = .ok l → lexRange source range = .ok l' →
        l'.tokens = l.tokens.map (Token.shift range.start))
      ∧ ∀ f f', lex part = .error f → lexRange source range = .error f' →
        f'.cause.message = f.cause.message ∧ f'.offset = f.offset + range.start := by
  have hagree := lexRange_agree hpart hmarker hdocument
  generalize lex part = x, lexRange source range = x' at hagree
  cases hagree with
  | @ok l l' hshift =>
      refine ⟨⟨fun _ => ⟨l, rfl⟩, fun _ => ⟨l', rfl⟩⟩, ?_, fun _ _ hf => by cases hf⟩
      rintro _ _ ⟨⟩ ⟨⟩
      rw [hshift, Lexed.tokens_shift]
  | fault f =>
      refine ⟨?_, fun _ _ hl => (by cases hl), ?_⟩
      · constructor <;>
        · rintro ⟨_, hl⟩
          cases hl
      · rintro _ _ ⟨⟩ ⟨⟩
        exact ⟨rfl, rfl⟩

/-- A part behind a character of two bytes, with a document at its front and code in a literal. -/
theorem lexRange_alone_accented :
    let source := "é\n=begin\n=end\n\x22#\x7ba\x7d\x22"
    let part := "=begin\n=end\n\x22#\x7ba\x7d\x22"
    (⟨3, 21⟩ : Span).Covers source.toList part.toList ∧ BeginsLine source.toList 3
      ∧ (∃ l, lex part = .ok l ∧ l.endData = none)
      ∧ ∃ l', lexRange source ⟨3, 21⟩ = .ok l'
        ∧ l'.tokens = [⟨.str [.code ⟨18, 19⟩], ⟨15, 21⟩, true⟩, Token.endOfInput 21] := by
  intro source part
  have hpart : (⟨3, 21⟩ : Span).Covers source.toList part.toList :=
    ⟨"é\n".toList, [], by decide, by decide, by decide⟩
  have hline : BeginsLine source.toList 3 :=
    ⟨"é\n".toList, part.toList, by decide, by decide, .inr rfl⟩
  obtain ⟨l, hlex, rfl⟩ : ∃ l, lex part = .ok l
      ∧ l = ⟨[⟨.str [.code ⟨15, 16⟩], ⟨12, 18⟩, true⟩], 18, none⟩ :=
    exists_ok_of_any (by decide +kernel)
  have hmarker : ∀ l, lex part = .ok l → l.endData = none := by
    intro l hl
    rw [hlex] at hl
    rw [← Except.ok.inj hl]
  obtain ⟨hiff, htokens, -⟩ := lexRange_alone hpart hmarker fun _ => hline
  obtain ⟨l', hl'⟩ := hiff.mpr ⟨_, hlex⟩
  exact ⟨hpart, hline, ⟨_, hlex, rfl⟩, l', hl', htokens _ l' hlex hl'⟩

end RubyJs
