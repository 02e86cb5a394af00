import RubyJs.Proofs.Runs
import RubyJs.Proofs.Token.Braces
import RubyJs.Proofs.Token.Integers
import RubyJs.Proofs.Token.Places
import RubyJs.Token.Lexer

set_option autoImplicit false

/-! # What a token is written with

A token is read at a cursor, and the cursor after it stands behind the characters that the token is
written with. Each of the functions that read a token is shown to pass a run of at least one
character, to find the code of interpolations strictly inside of that run, and to place a fault at
a boundary of the text that it was given (`Lexer.token_reads`).

What can go wrong in between is the step from characters to bytes. A fault in the digits of a number
is placed by counting characters, which is right as all of them are ASCII; all other faults stand
where a cursor stood.
-/

namespace RubyJs

/-! ## Answers -/

/-- That `x` gives something `good`, or a fault at an offset that is `bad`. -/
structure Answers {α : Type} (x : Except Fault α) (good : α → Prop) (bad : Nat → Prop) : Prop where
  ok : ∀ a, x = .ok a → good a
  fault : ∀ f, x = .error f → bad f.offset

namespace Answers

variable {α β : Type} {good : α → Prop} {bad : Nat → Prop}

theorem of_ok {a : α} (h : good a) : Answers (.ok a) good bad := by
  constructor
  · intro b hb
    exact Except.ok.inj hb ▸ h
  · intro f hf
    exact absurd hf (by simp)

theorem of_error {f : Fault} (h : bad f.offset) : Answers (.error f) good bad := by
  constructor
  · intro b hb
    exact absurd hb (by simp)
  · intro f' hf
    exact Except.error.inj hf ▸ h

theorem bind {x : Except Fault α} {f : α → Except Fault β} {good' : β → Prop}
    (hx : Answers x good bad) (hf : ∀ a, good a → Answers (f a) good' bad) :
    Answers (x >>= f) good' bad := by
  cases x with
  | error e => exact of_error (hx.fault e rfl)
  | ok a => exact hf a (hx.ok a rfl)

theorem imp {x : Except Fault α} {good' : α → Prop} {bad' : Nat → Prop} (hx : Answers x good bad)
    (hgood : ∀ a, good a → good' a) (hbad : ∀ o, bad o → bad' o) : Answers x good' bad' :=
  ⟨fun a ha => hgood a (hx.ok a ha), fun f hf => hbad f.offset (hx.fault f hf)⟩

end Answers

/-! ## Escapes and code -/

theorem hexRun_length_le (n : Nat) (cs : List Char) : (hexRun n cs).length ≤ cs.length :=
  calc (hexRun n cs).length
      ≤ (cs.take n).length := (List.takeWhile_prefix _).length_le
    _ ≤ cs.length := List.length_take_le' n cs

theorem codePoint_answers (start : Nat) (ds : List Char) :
    Answers (codePoint start ds) (fun _ => True) (· = start) := by
  unfold codePoint
  split
  · exact .of_error rfl
  · split
    · exact .of_ok trivial
    · exact .of_error rfl

/-- An escape takes characters that are there, and is at fault where its backslash stands. -/
theorem escapeSequence_answers (start : Nat) (cs : List Char) :
    Answers (escapeSequence start cs) (fun r => r.2 ≤ cs.length) (· = start) := by
  unfold escapeSequence
  split
  case h_1 => exact .of_error rfl
  case h_13 ds =>
      dsimp only
      split
      · exact .of_error rfl
      · refine .of_ok ?_
        have hrun := hexRun_length_le 2 ds
        show 1 + (hexRun 2 ds).length ≤ ds.length + 1
        omega
  case h_14 ds =>
      dsimp only
      split
      · rename_i hclosed
        refine .bind (codePoint_answers start _) fun c _ => .of_ok ?_
        -- the brace that closes the escape stands behind the digits, so there is room for it
        have hlt : (hexRun 6 ds).length < ds.length :=
          (List.getElem?_eq_some_iff.mp hclosed).1
        show (hexRun 6 ds).length + 3 ≤ ds.length + 2
        omega
      · exact .of_error rfl
  case h_15 ds _ =>
      refine .bind (codePoint_answers start _) fun c _ => .of_ok ?_
      have hrun := hexRun_length_le 4 ds
      show (hexRun 4 ds).length + 1 ≤ ds.length + 1
      omega
  all_goals
    refine .of_ok ?_
    simp only [List.length_cons]
    omega

theorem Quoting.escape_answers (q : Quoting) (closing : Char) (start : Nat) (cs : List Char) :
    Answers (q.escape closing start cs) (fun r => r.2 ≤ cs.length) (· = start) := by
  cases q with
  | double => exact escapeSequence_answers start cs
  | single =>
      cases cs with
      | nil => exact .of_ok (Nat.le_refl 0)
      | cons c cs =>
          show Answers (if _ then _ else _) _ _
          split
          · exact .of_ok (by simp)
          · exact .of_ok (by simp)
  | verbatim =>
      cases cs with
      | nil => exact .of_ok (Nat.le_refl 0)
      | cons c cs =>
          show Answers (if _ then _ else _) _ _
          split
          · exact .of_ok (by simp)
          · exact .of_ok (by simp)

/-- The code of an interpolation stands between the opening braces and the closing one. -/
theorem interpolation_answers {cur : Cursor} {cs : List Char} (h : cur.rest = '#' :: '{' :: cs) :
    Answers (interpolation cur)
      (fun r => ∃ code, cur.Passes (['#', '{'] ++ (code ++ ['}'])) r.2
        ∧ r.1 = ⟨cur.offset + 2, cur.offset + 2 + byteSize code⟩ ∧ Nests 0 code 0)
      (· = cur.offset) := by
  unfold interpolation
  have hbody : (cur.skip 2).rest = cs := by simp [Cursor.skip, h]
  dsimp only
  rw [hbody]
  split
  case h_1 => exact .of_error rfl
  case h_2 n hn =>
      obtain ⟨code, rest, rfl, rfl, hnests⟩ := codeLength_eq_some_iff.mp hn
      have hopen : cur.Passes ['#', '{'] (cur.skip 2) := Cursor.passes_of_eq h
      have hcode : (cur.skip 2).Passes code ((cur.skip 2).skip code.length) :=
        Cursor.passes_of_eq hbody
      have hclose : (cur.skip 2).Passes (code ++ ['}']) ((cur.skip 2).skip (code.length + 1)) := by
        have hrest : (cur.skip 2).rest = code ++ ['}'] ++ rest := by
          rw [hbody, List.append_assoc, List.singleton_append]
        have hpass := Cursor.passes_of_eq hrest
        rwa [List.length_append] at hpass
      refine .of_ok ⟨code, hopen.trans hclose, ?_, hnests⟩
      rw [hcode.offset, hopen.offset]
      rfl

/-! ## Bodies of literals -/

namespace Piece

theorem code_mem_flush {s : Span} {collected : List Char} : Segment.code s ∉ flush collected := by
  unfold flush
  split <;> simp

theorem code_mem_group {s : Span} (collected : List Char) (ps : List Piece) :
    Segment.code s ∈ group collected ps ↔ Piece.code s ∈ ps := by
  induction ps generalizing collected with
  | nil => simp [group, code_mem_flush]
  | cons p ps ih =>
      cases p with
      | char c => simp [group, ih]
      | code t => simp [group, ih, code_mem_flush]

/-- The segments of a body have the code of its pieces. -/
theorem code_mem_segments {s : Span} (ps : List Piece) :
    Segment.code s ∈ segments ps ↔ Piece.code s ∈ ps := by
  rw [← code_mem_group []]
  unfold segments
  split
  · rename_i hnil
    simp [hnil]
  · rfl

end Piece

namespace Literal

variable {l : Literal} {depth depth' : Nat} {cur next : Cursor} {made : List Piece}

/-- One turn of the reading of a body: the pieces it makes, with the depth and the cursor before and
after. A closing delimiter at depth zero is no turn, it ends the body. -/
inductive Turn (l : Literal) : Nat → Cursor → List Piece → Nat → Cursor → Prop where
  | escape {depth : Nat} {cur : Cursor} {cs made : List Char} {n : Nat}
      (rest : cur.rest = '\\' :: cs) (goes_on : '\\' = l.closing → depth ≠ 0)
      (escape : l.quoting.escape l.closing cur.offset cs = .ok (made, n)) :
      Turn l depth cur (made.map .char) depth (cur.skip (n + 1))
  | code {depth : Nat} {cur next : Cursor} {cs : List Char} {span : Span}
      (rest : cur.rest = '#' :: '{' :: cs) (goes_on : '#' = l.closing → depth ≠ 0)
      (quoting : l.quoting ≠ .single) (code : interpolation cur = .ok (span, next)) :
      Turn l depth cur [.code span] depth next
  | char {depth : Nat} {cur : Cursor} {c : Char} {cs : List Char} (rest : cur.rest = c :: cs)
      (goes_on : c = l.closing → depth ≠ 0) (plain : c ≠ '\\')
      (text : c = '#' → l.quoting ≠ .single → cs.head? ≠ some '{') :
      Turn l depth cur [.char c] (l.nest depth c) (cur.skip 1)

/-- The pieces `made`, and then those of `x`. -/
def andThen (made : List Piece) (x : Except Fault (List Piece × Cursor)) :
    Except Fault (List Piece × Cursor) :=
  x.map (fun r => (made ++ r.1, r.2))

theorem bind_eq_andThen (made : List Piece) (x : Except Fault (List Piece × Cursor)) :
    (x >>= fun r => Except.ok (made ++ r.1, r.2)) = andThen made x := by
  cases x <;> rfl

theorem pieces_closing {cs : List Char} (h : cur.rest = l.closing :: cs) (fuel : Nat) :
    l.pieces (fuel + 1) 0 cur = .ok ([], cur.skip 1) := by
  simp [pieces, h]

/-- A turn is what the reading does next. -/
theorem Turn.pieces_eq (h : l.Turn depth cur made depth' next) (fuel : Nat) :
    l.pieces (fuel + 1) depth cur = andThen made (l.pieces fuel depth' next) := by
  rw [← bind_eq_andThen]
  cases h with
  | escape rest goes_on escape =>
      have hend : ¬ ('\\' = l.closing ∧ depth = 0) := fun h => goes_on h.1 h.2
      simp [pieces, rest, hend, escape, bind, Except.bind]
  | code rest goes_on quoting code =>
      have hend : ¬ ('#' = l.closing ∧ depth = 0) := fun h => goes_on h.1 h.2
      simp [pieces, rest, hend, quoting, code, Cursor.peekAt, bind, Except.bind]
  | @char c cs rest goes_on plain text =>
      have hend : ¬ (c = l.closing ∧ depth = 0) := fun h => goes_on h.1 h.2
      have hcode : ¬ ((c = '#' ∧ l.quoting ≠ .single) ∧ cs[0]? = some '{') := by
        rintro ⟨⟨hc, hq⟩, hbrace⟩
        exact text hc hq (by rw [← List.head?_eq_getElem?] at hbrace; exact hbrace)
      simp [pieces, rest, hend, plain, hcode, Cursor.peekAt]

/-- Where a body has no turn it ends, or is at fault. -/
theorem pieces_cases (l : Literal) (depth : Nat) (cur : Cursor) :
    (∃ cs, cur.rest = l.closing :: cs ∧ depth = 0)
      ∨ (∃ f, (f.offset = l.start ∨ f.offset = cur.offset)
        ∧ ∀ fuel, l.pieces (fuel + 1) depth cur = .error f)
      ∨ ∃ made depth' next, l.Turn depth cur made depth' next := by
  cases hrest : cur.rest with
  | nil =>
      refine .inr (.inl ⟨⟨l.start, .unclosedString⟩, .inl rfl, fun fuel => ?_⟩)
      simp [pieces, hrest]
  | cons c cs =>
      by_cases hend : c = l.closing ∧ depth = 0
      · exact .inl ⟨cs, by rw [hend.1], hend.2⟩
      have hgo : c = l.closing → depth ≠ 0 := fun hc hd => hend ⟨hc, hd⟩
      by_cases hslash : c = '\\'
      · subst hslash
        cases hesc : l.quoting.escape l.closing cur.offset cs with
        | ok r => exact .inr (.inr ⟨_, _, _, .escape hrest hgo hesc⟩)
        | error f =>
            have hoffset : f.offset = cur.offset :=
              (Quoting.escape_answers l.quoting l.closing cur.offset cs).fault f hesc
            refine .inr (.inl ⟨f, .inr hoffset, fun fuel => ?_⟩)
            simp [pieces, hrest, hend, hesc, bind, Except.bind]
      by_cases hcode : c = '#' ∧ l.quoting ≠ .single ∧ cs.head? = some '{'
      · obtain ⟨rfl, hquoting, hbrace⟩ := hcode
        obtain ⟨cs', rfl⟩ := List.head?_eq_some_iff.mp hbrace
        cases hint : interpolation cur with
        | ok r => exact .inr (.inr ⟨_, _, _, .code hrest hgo hquoting hint⟩)
        | error f =>
            have hoffset : f.offset = cur.offset := (interpolation_answers hrest).fault f hint
            refine .inr (.inl ⟨f, .inr hoffset, fun fuel => ?_⟩)
            simp [pieces, hrest, hend, hquoting, hint, Cursor.peekAt, bind, Except.bind]
      · refine .inr (.inr ⟨_, _, _, .char hrest hgo hslash ?_⟩)
        exact fun hc hq hbrace => hcode ⟨hc, hq, hbrace⟩

/-- A turn passes at least one character, with the code that it makes inside. -/
theorem Turn.passes (h : l.Turn depth cur made depth' next) :
    ∃ w, cur.Passes w next ∧ w ≠ [] ∧ ∀ s, .code s ∈ made → s.Inside cur.offset w := by
  cases h with
  | @escape cs made n rest goes_on escape =>
      have hn : n ≤ cs.length :=
        (Quoting.escape_answers l.quoting l.closing cur.offset cs).ok _ escape
      refine ⟨_, Cursor.passes_skip cur (n + 1), by simp [rest], ?_⟩
      intro s hs
      simp at hs
  | code rest goes_on quoting code =>
      obtain ⟨run, hpass, hspan, -⟩ := (interpolation_answers rest).ok _ code
      refine ⟨_, hpass, by simp, ?_⟩
      intro s hs
      obtain rfl : s = _ := by simpa using hs
      exact ⟨['#', '{'], run, ['}'], rfl, by simp, by simp, hspan⟩
  | char rest goes_on plain text =>
      refine ⟨_, Cursor.passes_skip cur 1, by simp [rest], ?_⟩
      intro s hs
      simp at hs

/-- The reading of a body passes at least one character, with the code of interpolations inside. A
fault is placed at the start of the literal or in what is read. -/
theorem pieces_answers (l : Literal) (fuel depth : Nat) (cur : Cursor) :
    Answers (l.pieces fuel depth cur)
      (fun r => ∃ w, cur.Passes w r.2 ∧ w ≠ [] ∧ ∀ s, .code s ∈ r.1 → s.Inside cur.offset w)
      (fun o => o = l.start ∨ cur.Reaches o) := by
  induction fuel generalizing depth cur with
  | zero => exact .of_error (.inl rfl)
  | succ fuel ih =>
      obtain ⟨cs, hrest, rfl⟩ | ⟨f, hoffset, hfault⟩ | ⟨made, depth', next, hturn⟩ :=
        pieces_cases l depth cur
      · rw [pieces_closing hrest]
        exact .of_ok ⟨_, Cursor.passes_skip cur 1, by simp [hrest], by simp⟩
      · rw [hfault]
        refine .of_error (hoffset.imp id ?_)
        intro hcur
        exact hcur ▸ Cursor.reaches_self cur
      · rw [hturn.pieces_eq, ← bind_eq_andThen]
        obtain ⟨w, hw, hne, hcode⟩ := hturn.passes
        refine .bind ((ih depth' next).imp (fun _ h => h) ?_) ?_
        · exact fun o ho => ho.imp id hw.reaches
        rintro ⟨ps, after⟩ ⟨v, hv, -, hcode'⟩
        refine .of_ok ⟨w ++ v, hw.trans hv, by simp [hne], ?_⟩
        intro s hs
        rcases List.mem_append.mp hs with hs | hs
        · exact (hcode s hs).append_right v
        · have hinside := hcode' s hs
          rw [hw.offset] at hinside
          exact hinside.append_left w

theorem pieces_nil (h : cur.rest = []) (fuel : Nat) :
    l.pieces fuel depth cur = .error ⟨l.start, .unclosedString⟩ := by
  cases fuel <;> simp [pieces, h]

theorem body_answers (l : Literal) (cur : Cursor) :
    Answers (l.body cur)
      (fun r => ∃ w, cur.Passes w r.2 ∧ w ≠ [] ∧ ∀ s, .code s ∈ r.1 → s.Inside cur.offset w)
      (fun o => o = l.start ∨ cur.Reaches o) := by
  refine .bind (pieces_answers l cur.rest.length 0 cur) ?_
  rintro ⟨ps, after⟩ ⟨w, hw, hne, hcode⟩
  exact .of_ok ⟨w, hw, hne, fun s hs => hcode s ((Piece.code_mem_segments ps).mp hs)⟩

end Literal

/-! ## Numbers -/

theorem isPrefix_append_of_drop {α : Type} {v w cs : List α} (hv : v <+: cs)
    (hw : w <+: cs.drop v.length) : v ++ w <+: cs := by
  obtain ⟨rest, rfl⟩ := hv
  rw [List.drop_left] at hw
  exact (List.prefix_append_right_inj v).mpr hw

/-- That a character can stand in a word: in its name, or as its mark. -/
def IsWordChar (c : Char) : Prop := isNameChar c = true ∨ c = '?' ∨ c = '!'

/-- Whether a word is a constant. -/
def isConstant : List Char → Bool
  | c :: _ => c.isUpper
  | [] => false

namespace TokenKind

/-- The pieces of a string-like token; other tokens have none. -/
def segments : TokenKind → List Segment
  | str ss | xstr ss | dsymbol ss => ss
  | _ => []

/-- How a token is written, as far as its kind tells: line ends, braces and names are written as they
are, constants with a capital letter, integers have digits, and the end of the input is not
written. -/
def SpelledBy : TokenKind → List Char → Prop
  | eof, _ => False
  | newline, w => w = ['\n']
  | lbrace, w => w = ['{']
  | rbrace, w => w = ['}']
  | ident name, w => w = name.toList ∧ ∀ c ∈ w, IsWordChar c
  | const name, w => w = name.toList ∧ (∀ c ∈ w, IsWordChar c) ∧ isConstant w = true
  | ivar name, w => w = '@' :: name.toList ∧ ∀ c ∈ name.toList, IsWordChar c
  | int text, _ => Numbers.isNumeral (Numbers.cleaned text) = true
  | _, _ => True

/-- That a token is written with `w`, without code in it. -/
def Plain (k : TokenKind) (w : List Char) : Prop := k.SpelledBy w ∧ k.segments = []

end TokenKind

namespace Numeral

variable {cs : List Char} {c : Char}

/-- That a number is written with a run at the front of `cs`. -/
def IsLexeme (cs : List Char) (r : TokenKind × List Char) : Prop :=
  r.2 <+: cs ∧ r.2 ≠ [] ∧ r.1.Plain r.2

/-- That a run at the front of `cs`, which begins at `start`, ends at `offset`. -/
def EndsAt (start : Nat) (cs : List Char) (offset : Nat) : Prop :=
  ∃ w, w <+: cs ∧ offset = start + byteSize w

theorem lt_of_isBodyChar (h : isBodyChar c = true) : c.toNat < 128 := by
  unfold isBodyChar Char.isAlphanum Char.isAlpha Char.isUpper Char.isLower Char.isDigit at h
  simp [UInt32.le_iff_toNat_le] at h
  rcases h with h | rfl
  · omega
  · decide

theorem lt_of_radixOf? {radix : Nat} (h : radixOf? c = some radix) : c.toNat < 128 := by
  unfold radixOf? at h
  split at h
  all_goals first | decide | exact absurd h (by simp)

/-- Digits are those of the radix, or at fault where the literal begins or at a character of them. -/
theorem checkDigits_answers {start at_ radix : Nat} {body : List Char}
    (hbody : ∀ c ∈ body, c.toNat < 128) :
    Answers (checkDigits start at_ radix body) (fun _ => AreDigits radix body)
      (fun o => o = start ∨ EndsAt at_ body o) := by
  have hfaults : Answers (checkDigits start at_ radix body) (fun _ => True)
      (fun o => o = start ∨ EndsAt at_ body o) := by
    unfold checkDigits
    split
    · exact .of_error (.inl rfl)
    split
    · rename_i i hi
      have hlt : i < body.length := (List.findIdx?_eq_some_iff_getElem.mp hi).1
      have hsize : byteSize (body.take i) = i := by
        rw [byteSize_eq_length (fun c hc => hbody c (List.mem_of_mem_take hc)), List.length_take]
        omega
      exact .of_error (.inr ⟨body.take i, List.take_prefix i body, by rw [hsize]⟩)
    · exact .of_ok trivial
  exact ⟨fun _ hok => areDigits_of_checkDigits hok, hfaults.fault⟩

theorem digitRun_isPrefix (cs : List Char) : digitRun cs <+: cs := List.takeWhile_prefix _

theorem lt_of_mem_digitRun (h : c ∈ digitRun cs) : c.toNat < 128 := by
  have hc : (c.isDigit || c == '_') = true := List.all_eq_true.mp List.all_takeWhile c h
  apply lt_of_isBodyChar
  unfold isBodyChar Char.isAlphanum
  rw [Bool.or_assoc, hc, Bool.or_true]

theorem fraction_isPrefix (cs : List Char) : fraction cs <+: cs := by
  unfold fraction
  split
  · split
    · exact (List.prefix_append_right_inj ['.']).mpr (digitRun_isPrefix _)
    · exact List.nil_prefix
  · exact List.nil_prefix

theorem exponent_isPrefix (cs : List Char) : exponent cs <+: cs := by
  unfold exponent
  split
  · rename_i e s cs
    split
    · split
      · split
        · exact (List.prefix_append_right_inj [e, s]).mpr (digitRun_isPrefix _)
        · exact List.nil_prefix
      · split
        · exact (List.prefix_append_right_inj [e]).mpr (digitRun_isPrefix _)
        · exact List.nil_prefix
    · exact List.nil_prefix
  · exact List.nil_prefix

/-- A number without a radix letter is written with a run of at least one digit. -/
theorem decimal_answers {start : Nat} (hc : c.isDigit = true) :
    Answers (scan.decimal start (c :: cs)) (IsLexeme (c :: cs)) (EndsAt start (c :: cs)) := by
  have hwhole : digitRun (c :: cs) ≠ [] := by simp [digitRun, hc]
  have hpre : digitRun (c :: cs) <+: c :: cs := digitRun_isPrefix _
  unfold scan.decimal
  dsimp only
  split
  · have hint : Numbers.isNumeral (Numbers.cleaned (String.ofList (digitRun (c :: cs)))) = true →
        IsLexeme (c :: cs) (.int (String.ofList (digitRun (c :: cs))), digitRun (c :: cs)) :=
      fun hnumeral => ⟨hpre, hwhole, hnumeral, rfl⟩
    split
    · rename_i d ds hdigits
      refine .bind ((checkDigits_answers ?_).imp (fun _ h => h) ?_) fun _ hchecked =>
        .of_ok (hint (hdigits ▸ isNumeral_octal hchecked))
      · intro x hx
        exact lt_of_mem_digitRun (hdigits ▸ List.mem_cons_of_mem '0' hx)
      · rintro o (rfl | ⟨w, hw, rfl⟩)
        · exact ⟨[], List.nil_prefix, rfl⟩
        · -- the digits that are checked stand behind the leading zero
          rw [hdigits] at hpre
          have hzero : '0' :: w <+: c :: cs :=
            ((List.prefix_append_right_inj ['0']).mpr hw).trans hpre
          refine ⟨'0' :: w, hzero, ?_⟩
          rw [byteSize_cons, Nat.add_assoc]
          rfl
    · rename_i hplain
      have hrun : digitRun (c :: cs) = c :: digitRun cs := by simp [digitRun, hc]
      refine .of_ok (hint ?_)
      rw [hrun]
      refine isNumeral_decimal hc (fun d hd => ?_) fun hzero => ?_
      · simpa using List.all_eq_true.mp List.all_takeWhile d hd
      · cases hrest : digitRun cs with
        | nil => rfl
        | cons d ds => exact absurd (by rw [hrun, hzero, hrest]) (hplain d ds)
  · refine .of_ok ⟨?_, ?_, ?_, rfl⟩
    · refine isPrefix_append_of_drop (isPrefix_append_of_drop hpre (fraction_isPrefix _)) ?_
      rw [List.length_append]
      exact exponent_isPrefix _
    · simp [hwhole]
    · trivial

/-- A number is written with a run of at least one character, and is at fault at a character of
it. -/
theorem scan_answers {start : Nat} (hc : c.isDigit = true) :
    Answers (scan start (c :: cs)) (IsLexeme (c :: cs)) (EndsAt start (c :: cs)) := by
  unfold scan
  split
  · rename_i r cs' heq
    split
    · rename_i radix hradix
      rw [heq]
      have hpre : '0' :: r :: cs'.takeWhile isBodyChar <+: '0' :: r :: cs' :=
        (List.prefix_append_right_inj ['0', r]).mpr (List.takeWhile_prefix _)
      refine .bind ((checkDigits_answers ?_).imp (fun _ h => h) ?_) fun _ hchecked =>
        .of_ok ⟨hpre, by simp, isNumeral_radix hradix hchecked, rfl⟩
      · intro x hx
        exact lt_of_isBodyChar (List.all_eq_true.mp List.all_takeWhile x hx)
      · rintro o (rfl | ⟨w, hw, rfl⟩)
        · exact ⟨[], List.nil_prefix, rfl⟩
        · have hzero : '0' :: r :: w <+: '0' :: r :: cs' :=
            ((List.prefix_append_right_inj ['0', r]).mpr hw).trans hpre
          have hr : r.utf8Size = 1 := utf8Size_of_lt (lt_of_radixOf? hradix)
          refine ⟨'0' :: r :: w, hzero, ?_⟩
          rw [byteSize_cons, byteSize_cons, hr, ← Nat.add_assoc, ← Nat.add_assoc]
          rfl
    · exact decimal_answers hc
  · exact decimal_answers hc

end Numeral

/-! ## Tokens -/

namespace Lexer

variable {cur next : Cursor} {w : List Char}
variable {cs : List Char} {kind : TokenKind}

/-- That the token `kind` is written with the run `w` at `cur`, up to `next`. -/
structure Written (cur : Cursor) (w : List Char) (kind : TokenKind) (next : Cursor) : Prop where
  passes : cur.Passes w next
  nonempty : w ≠ []
  spelled : kind.SpelledBy w
  code : ∀ s, .code s ∈ kind.segments → s.Inside cur.offset w

/-- That `x` is a token written at `cur`, or a fault in what `cur` reads. -/
def Reads (cur : Cursor) (x : Except Fault (TokenKind × Cursor)) : Prop :=
  Answers x (fun r => ∃ w, Written cur w r.1 r.2) cur.Reaches

theorem Written.of_plain (hw : cur.Passes w next) (hne : w ≠ []) (hkind : kind.Plain w) :
    Written cur w kind next := by
  refine ⟨hw, hne, hkind.1, ?_⟩
  intro s hs
  rw [hkind.2] at hs
  exact absurd hs List.not_mem_nil

theorem Written.ne_eof (h : Written cur w kind next) : kind ≠ .eof := by
  rintro rfl
  exact h.spelled

/-- A token without code is read by skipping what it is written with. -/
theorem reads_skip {n : Nat} (hkind : kind.Plain (cur.rest.take n)) (hrest : cur.rest ≠ [])
    (hn : 0 < n) : Reads cur (.ok (kind, cur.skip n)) := by
  refine .of_ok ⟨_, .of_plain (Cursor.passes_skip cur n) ?_ hkind⟩
  simp only [ne_eq, List.take_eq_nil_iff, hrest, or_false]
  omega

theorem reads_fault {cause : Cause} : Reads cur (.error ⟨cur.offset, cause⟩) :=
  .of_error cur.reaches_self

/-- A literal is read from its opening delimiter, the last of the characters `front`, on. -/
theorem reads_literal (kind : List Segment → TokenKind) {l : Literal} {inside : Cursor}
    {front : List Char} (hfront : cur.Passes front inside)
    (hstart : cur.Reaches l.start) (hkind : ∀ ss w, (kind ss).SpelledBy w ∧ (kind ss).segments ⊆ ss) :
    Reads cur (l.body inside >>= fun r => .ok (kind r.1, r.2)) := by
  refine .bind ((l.body_answers inside).imp (fun _ h => h) ?_) ?_
  · rintro o (rfl | ho)
    · exact hstart
    · exact hfront.reaches ho
  · rintro ⟨ss, after⟩ ⟨w, hw, hne, hcode⟩
    refine .of_ok ⟨front ++ w, hfront.trans hw, by simp [hne], (hkind ss _).1, ?_⟩
    intro s hs
    have hinside := hcode s ((hkind ss w).2 hs)
    rw [hfront.offset] at hinside
    exact hinside.append_left front

theorem operators_plain : ∀ o ∈ operators, o.2.Plain o.1.toList ∧ o.1.toList ≠ [] := by
  simp [operators, TokenKind.Plain, TokenKind.SpelledBy, TokenKind.segments]

theorem operator_reads {r : TokenKind × Cursor} (h : operator? cur = some r) :
    Reads cur (.ok r) := by
  obtain ⟨o, ho, rfl⟩ := Option.map_eq_some_iff.mp h
  have hmem := operators_plain o (List.mem_of_find?_eq_some ho)
  have hfound := List.find?_some ho
  have hstarts : o.1.toList <+: cur.rest := List.isPrefixOf_iff_prefix.mp hfound
  exact .of_ok ⟨_, .of_plain (Cursor.passes_of_isPrefix hstarts) hmem.2 hmem.1⟩

theorem nameMark_isPrefix (cs : List Char) : nameMark cs <+: cs := by
  unfold nameMark
  split
  · split
    · exact (List.prefix_append_right_inj [_]).mpr List.nil_prefix
    · exact List.nil_prefix
  · exact List.nil_prefix

/-- The characters of a word at the front: those of its name, and a mark. -/
def wordChars (cs : List Char) : List Char :=
  cs.takeWhile isNameChar ++ nameMark (cs.drop (cs.takeWhile isNameChar).length)

theorem wordChars_isPrefix (cs : List Char) : wordChars cs <+: cs :=
  isPrefix_append_of_drop (List.takeWhile_prefix _) (nameMark_isPrefix _)

theorem wordChars_ne_nil {c : Char} (hc : isNameStart c = true) : wordChars (c :: cs) ≠ [] := by
  have hname : isNameChar c = true := by rw [isNameChar, hc, Bool.true_or]
  rw [wordChars, List.takeWhile_cons_of_pos hname]
  exact List.cons_ne_nil _ _

/-- The word written as `text`, where `next` is the cursor behind it. -/
def wordOf (last : Option TokenKind) (text : String) (isConst : Bool) (next : Cursor) :
    TokenKind × Cursor :=
  let afterDot := last == some .dot
  if colonFollows next.rest && !isConst && !afterDot && last != some .question then
    (.label text, next.skip 1)
  else if isConst then (.const text, next)
  else if afterDot then (.ident text, next)
  else
    match Keyword.ofText? text with
    | some w => (.keyword w, next)
    | none => (.ident text, next)

theorem word_eq (last : Option TokenKind) (cur : Cursor) :
    word last cur = wordOf last (String.ofList (wordChars cur.rest)) (isConstant (wordChars cur.rest))
      (cur.skip (wordChars cur.rest).length) := rfl

/-- A word is a label, a constant, a reserved word or a name. A label has a colon behind it. -/
theorem word_cases (last : Option TokenKind) (cur : Cursor) :
    let text := String.ofList (wordChars cur.rest)
    let next := cur.skip (wordChars cur.rest).length
    word last cur = (.label text, next.skip 1)
      ∨ word last cur = (.const text, next) ∧ isConstant (wordChars cur.rest) = true
      ∨ word last cur = (.ident text, next) ∨ ∃ k, word last cur = (.keyword k, next) := by
  intro text next
  rw [word_eq, wordOf]
  split
  · exact .inl rfl
  · split
    · rename_i hconst
      exact .inr (.inl ⟨rfl, hconst⟩)
    · split
      · exact .inr (.inr (.inl rfl))
      · split
        · exact .inr (.inr (.inr ⟨_, rfl⟩))
        · exact .inr (.inr (.inl rfl))

theorem isWordChar_of_mem_wordChars {c : Char} (h : c ∈ wordChars cs) : IsWordChar c := by
  rcases List.mem_append.mp h with hc | hc
  · exact .inl (List.all_eq_true.mp List.all_takeWhile c hc)
  · right
    unfold nameMark at hc
    split at hc
    · split at hc
      · rename_i hmark
        obtain rfl := List.mem_singleton.mp hc
        simpa using (Bool.and_eq_true_iff.mp hmark).1
      · exact absurd hc List.not_mem_nil
    · exact absurd hc List.not_mem_nil

theorem word_reads (last : Option TokenKind) {c : Char} (h : cur.rest = c :: cs)
    (hc : isNameStart c = true) : Reads cur (.ok (word last cur)) := by
  have hne : wordChars cur.rest ≠ [] := h ▸ wordChars_ne_nil hc
  have hpasses := Cursor.passes_of_isPrefix (wordChars_isPrefix cur.rest)
  have hname : wordChars cur.rest = (String.ofList (wordChars cur.rest)).toList
      ∧ ∀ c ∈ wordChars cur.rest, IsWordChar c :=
    ⟨String.toList_ofList.symm, fun c hc => isWordChar_of_mem_wordChars hc⟩
  obtain hw | ⟨hw, hconst⟩ | hw | ⟨k, hw⟩ := word_cases last cur
  · rw [hw]
    refine .of_ok ⟨_, .of_plain (hpasses.trans (Cursor.passes_skip _ 1)) ?_ ⟨trivial, rfl⟩⟩
    simp [hne]
  · rw [hw]
    exact .of_ok ⟨_, .of_plain hpasses hne ⟨⟨hname.1, hname.2, hconst⟩, rfl⟩⟩
  · rw [hw]
    exact .of_ok ⟨_, .of_plain hpasses hne ⟨hname, rfl⟩⟩
  · rw [hw]
    exact .of_ok ⟨_, .of_plain hpasses hne ⟨trivial, rfl⟩⟩

theorem instanceVariable_reads (h : cur.rest = '@' :: cs) : Reads cur (instanceVariable cur) := by
  unfold instanceVariable
  dsimp only
  split
  · split
    · exact reads_fault
    · split
      · have htake : cur.rest.take (1 + (cs.takeWhile isNameChar).length)
            = '@' :: cs.takeWhile isNameChar := by
          rw [h, Nat.add_comm, List.take_succ_cons, ← List.prefix_iff_eq_take.mp]
          exact List.takeWhile_prefix _
        have hdrop : cur.rest.drop 1 = cs := by rw [h, List.drop_one, List.tail_cons]
        rw [hdrop]
        refine reads_skip ⟨⟨?_, ?_⟩, rfl⟩ (by simp [h]) (by omega)
        · rw [htake, String.toList_ofList]
        · intro c hc
          rw [String.toList_ofList] at hc
          exact .inl (List.all_eq_true.mp List.all_takeWhile c hc)
      · exact reads_fault
  · exact reads_fault

theorem globalVariable_reads (cur : Cursor) (hrest : cur.rest ≠ []) :
    Reads cur (globalVariable cur) := by
  unfold globalVariable
  dsimp only
  split
  · exact reads_skip ⟨trivial, rfl⟩ hrest (by omega)
  · split
    · split
      · exact reads_skip ⟨trivial, rfl⟩ hrest (by omega)
      · exact reads_fault
    · exact reads_fault

theorem colon_reads (last : Option TokenKind) (spaced : Bool) (h : cur.rest = ':' :: cs) :
    Reads cur (colon last spaced cur) := by
  have hrest : cur.rest ≠ [] := by simp [h]
  have hcolon : cur.Passes [':'] (cur.skip 1) := Cursor.passes_of_eq h
  have hquote : cur.Reaches (cur.offset + 1) := ⟨_, _, hcolon, hcolon.offset⟩
  unfold colon
  split
  · exact reads_skip ⟨trivial, rfl⟩ hrest (by omega)
  split
  · exact reads_skip ⟨trivial, rfl⟩ hrest (by omega)
  split
  · rename_i c hpeek
    split
    · exact reads_literal .dsymbol (cur.passes_skip 2) hquote fun ss _ => ⟨trivial, List.Subset.refl ss⟩
    split
    · exact reads_literal .dsymbol (cur.passes_skip 2) hquote fun ss _ => ⟨trivial, List.Subset.refl ss⟩
    split
    · exact reads_skip ⟨trivial, rfl⟩ hrest (by omega)
    split
    · exact reads_skip ⟨trivial, rfl⟩ hrest (by omega)
    · exact reads_skip ⟨trivial, rfl⟩ hrest (by omega)
  · exact reads_skip ⟨trivial, rfl⟩ hrest (by omega)

/-- The delimiter of a `%` literal stands behind the percent sign, or behind that and a letter. -/
theorem percentForm_reaches (h : cur.rest = '%' :: cs) {form : Char} {n : Nat}
    (hform : percentForm? cur = some (form, n)) : cur.Reaches (cur.offset + n) := by
  unfold percentForm? at hform
  split at hform
  · exact absurd hform (by simp)
  rename_i c hpeek
  have hc : cs[0]? = some c := by simpa [Cursor.peekAt, h] using hpeek
  obtain ⟨cs', rfl⟩ : ∃ cs', cs = c :: cs' :=
    List.head?_eq_some_iff.mp (by rw [List.head?_eq_getElem?, hc])
  split at hform
  · rename_i hletter
    obtain ⟨-, rfl⟩ : c = form ∧ 2 = n := by simpa using hform
    -- the letter is one of five, so it takes one byte
    have hsize : c.utf8Size = 1 := by
      simp only [Bool.and_eq_true, Bool.or_eq_true, beq_iff_eq] at hletter
      obtain ⟨(((rfl | rfl) | rfl) | rfl) | rfl, -⟩ := hletter <;> rfl
    have hreach : cur.Reaches (cur.offset + byteSize ['%', c]) :=
      Cursor.reaches_of_isPrefix ⟨cs', h.symm⟩
    rwa [byteSize_cons, byteSize_cons, hsize] at hreach
  · split at hform
    · obtain ⟨-, rfl⟩ : 'Q' = form ∧ 1 = n := by simpa using hform
      exact Cursor.reaches_of_isPrefix (w := ['%']) ⟨c :: cs', h.symm⟩
    · exact absurd hform (by simp)

theorem percentLiteral_reads (h : cur.rest = '%' :: cs) {x : Except Fault (TokenKind × Cursor)}
    (hx : percentLiteral? cur = some x) : Reads cur x := by
  unfold percentLiteral? at hx
  split at hx
  · exact absurd hx (by simp)
  rename_i form n hform
  split at hx
  · exact absurd hx (by simp)
  have hstart := percentForm_reaches h hform
  have hinside := cur.passes_skip (n + 1)
  obtain rfl := Option.some.inj hx
  split
  · exact reads_literal .xstr hinside hstart fun ss _ => ⟨trivial, List.Subset.refl ss⟩
  · exact reads_literal .str hinside hstart fun ss _ => ⟨trivial, List.Subset.refl ss⟩
  · exact reads_literal .str hinside hstart fun ss _ => ⟨trivial, List.Subset.refl ss⟩
  · exact reads_literal (fun ss => .words (Text.words (segmentsText ss))) hinside hstart fun ss _ =>
      ⟨trivial, List.nil_subset ss⟩

/-- **A token is written with at least one character**, its code stands strictly inside, and a fault
is placed at a boundary. -/
theorem token_reads (last : Option TokenKind) (spaced : Bool) (cur : Cursor)
    (hrest : cur.rest ≠ []) : Reads cur (token last spaced cur) := by
  obtain ⟨c, cs, h⟩ := List.exists_cons_of_ne_nil hrest
  have hc : cur.Passes [c] (cur.skip 1) := Cursor.passes_of_eq h
  unfold token
  rw [h]
  dsimp only
  by_cases hdouble : (c == '\x22') = true
  · rw [if_pos hdouble]
    exact reads_literal .str hc cur.reaches_self fun ss _ => ⟨trivial, List.Subset.refl ss⟩
  rw [if_neg hdouble]
  by_cases hsingle : (c == '\x27') = true
  · rw [if_pos hsingle]
    exact reads_literal .str hc cur.reaches_self fun ss _ => ⟨trivial, List.Subset.refl ss⟩
  rw [if_neg hsingle]
  by_cases hback : (c == '\x60') = true
  · rw [if_pos hback]
    exact reads_literal .xstr hc cur.reaches_self fun ss _ => ⟨trivial, List.Subset.refl ss⟩
  rw [if_neg hback]
  by_cases hdigit : c.isDigit = true
  · rw [if_pos hdigit]
    refine .bind ((Numeral.scan_answers hdigit).imp (fun _ h => h) ?_) ?_
    · rintro o ⟨w, hw, rfl⟩
      exact Cursor.reaches_of_isPrefix (h ▸ hw)
    · rintro ⟨kind, lexeme⟩ ⟨hpre, hne, hplain⟩
      exact .of_ok ⟨_, .of_plain (Cursor.passes_of_isPrefix (h ▸ hpre)) hne hplain⟩
  rw [if_neg hdigit]
  by_cases hat : (c == '@') = true
  · rw [if_pos hat]
    exact instanceVariable_reads (by rw [h, eq_of_beq hat])
  rw [if_neg hat]
  by_cases hdollar : (c == '$') = true
  · rw [if_pos hdollar]
    exact globalVariable_reads cur hrest
  rw [if_neg hdollar]
  by_cases hcolon : (c == ':') = true
  · rw [if_pos hcolon]
    exact colon_reads last spaced (by rw [h, eq_of_beq hcolon])
  rw [if_neg hcolon]
  by_cases hlambda : (c == '-' && cs.head? == some '>') = true
  · rw [if_pos hlambda]
    exact reads_fault
  rw [if_neg hlambda]
  by_cases hname : isNameStart c = true
  · rw [if_pos hname]
    exact word_reads last h hname
  rw [if_neg hname]
  split
  · rename_i x hx
    split at hx
    · rename_i hpercent
      have hc : c = '%' := eq_of_beq (Bool.and_eq_true_iff.mp hpercent).1
      exact percentLiteral_reads (hc ▸ h) hx
    · exact absurd hx (by simp)
  split
  · rename_i r hr
    exact operator_reads hr
  · exact reads_fault

end Lexer

end RubyJs
