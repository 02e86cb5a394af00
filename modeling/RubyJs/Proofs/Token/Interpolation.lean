import RubyJs.Proofs.Token.Safety

set_option autoImplicit false

/-! # Code in a string is not read as code on its own

The end of the code in `"#{…}"` is found before the code is read, by braces and quotes alone. So a
text can be code by itself and yet not stand in a string as it is:

    "#{"}"}"        by itself: one string, with the string "}" as its code
    "#{"#{"}"}"}"   in a string: the code ends at the first brace

What `"#{` `}"` can hold is exactly the nested text (`Nests`). Text that lexes by itself and whose
brace tokens nest is nested too, if its braces and quotes stand in the open: each of them is a brace
token, or stands in a token that is nested by itself. A string or quoted symbol is, whatever it
hides, if its own code does not hold its quote.
-/

namespace RubyJs

/-! ## Escapes in quoted runs -/

theorem not_isQuote_of_isDigitIn {c : Char} {radix : Nat} (h : Numeral.isDigitIn radix c = true) :
    ¬ IsQuote c ∧ c ≠ '\\' := by
  constructor
  · rintro (rfl | rfl) <;> exact absurd h (by simp [Numeral.isDigitIn, Numeral.digitValue?])
  · rintro rfl
    exact absurd h (by simp [Numeral.isDigitIn, Numeral.digitValue?])

theorem mem_hexRun {n : Nat} {cs : List Char} {c : Char} (h : c ∈ hexRun n cs) :
    ¬ IsQuote c ∧ c ≠ '\\' :=
  not_isQuote_of_isDigitIn (List.all_eq_true.mp List.all_takeWhile c h)

theorem take_hexRun (n : Nat) (cs : List Char) : cs.take (hexRun n cs).length = hexRun n cs := by
  have hpre : hexRun n cs <+: cs := (List.takeWhile_prefix _).trans (List.take_prefix n cs)
  exact (List.prefix_iff_eq_take.mp hpre).symm

/-- Behind its first character an escape has no quote and no backslash. -/
theorem escapeSequence_tail {start n : Nat} {cs made : List Char}
    (h : escapeSequence start cs = .ok (made, n)) :
    ∃ c tail, cs.take n = c :: tail ∧ ∀ x ∈ tail, ¬ IsQuote x ∧ x ≠ '\\' := by
  unfold escapeSequence at h
  split at h
  case h_1 => exact absurd h (by simp)
  case h_13 cs =>
      dsimp only at h
      split at h
      · exact absurd h (by simp)
      · obtain ⟨-, rfl⟩ := Prod.mk.inj (Except.ok.inj h)
        refine ⟨'x', hexRun 2 cs, ?_, fun x hx => mem_hexRun hx⟩
        rw [Nat.add_comm, List.take_succ_cons, take_hexRun]
  case h_14 cs =>
      dsimp only at h
      split at h
      · rename_i hclosed
        obtain ⟨c, -, hc⟩ := bind_eq_ok h
        obtain ⟨-, rfl⟩ := Prod.mk.inj (Except.ok.inj hc)
        refine ⟨'u', '{' :: (hexRun 6 cs ++ ['}']), ?_, ?_⟩
        · rw [List.take_succ_cons, List.take_succ_cons, List.take_add_one, take_hexRun, hclosed]
          rfl
        · intro x hx
          simp only [List.mem_cons, List.mem_append, List.not_mem_nil, or_false] at hx
          rcases hx with rfl | hx | rfl
          · decide
          · exact mem_hexRun hx
          · decide
      · exact absurd h (by simp)
  case h_15 cs _ =>
      obtain ⟨c, -, hc⟩ := bind_eq_ok h
      obtain ⟨-, rfl⟩ := Prod.mk.inj (Except.ok.inj hc)
      refine ⟨'u', hexRun 4 cs, ?_, fun x hx => mem_hexRun hx⟩
      rw [List.take_succ_cons, take_hexRun]
  all_goals
    obtain ⟨-, rfl⟩ := Prod.mk.inj (Except.ok.inj h)
    exact ⟨_, [], rfl, by simp⟩

/-- An escape in a string is passed by a quoted run, except for a backslash that stands for itself. -/
theorem Quoting.escape_run {q : Quoting} {closing : Char} {start n : Nat} {cs made : List Char}
    (hq : q ≠ .verbatim) (hclosing : IsQuote closing)
    (h : q.escape closing start cs = .ok (made, n)) :
    QuotedRun closing ('\\' :: cs.take n)
      ∨ n = 0 ∧ ∀ c, cs.head? = some c → c ≠ '\\' ∧ c ≠ closing := by
  cases q with
  | verbatim => exact absurd rfl hq
  | double =>
      obtain ⟨c, tail, htake, htail⟩ := escapeSequence_tail h
      rw [htake]
      refine .inl (.escape c (.of_plain fun x hx => ⟨?_, (htail x hx).2⟩))
      rintro rfl
      exact (htail x hx).1 hclosing
  | single =>
      cases cs with
      | nil => exact .inr ⟨(Prod.mk.inj (Except.ok.inj h)).2.symm, by simp⟩
      | cons c cs =>
          by_cases hc : c = '\\' ∨ c = closing
          · obtain ⟨-, rfl⟩ : [c] = made ∧ 1 = n := by simpa [Quoting.escape, hc] using h
            exact .inl (.escape c .nil)
          · obtain ⟨-, rfl⟩ : ['\\'] = made ∧ 0 = n := by simpa [Quoting.escape, hc] using h
            refine .inr ⟨rfl, ?_⟩
            intro x hx
            obtain rfl : c = x := by simpa using hx
            exact not_or.mp hc

/-! ## Strings -/

/-- A run that begins with a character that is neither the quote nor a backslash goes on behind it. -/
theorem QuotedRun.tail {q c : Char} {w rest rest' : List Char} (hw : QuotedRun q w)
    (h : w ++ q :: rest = c :: rest') (hc : c ≠ '\\' ∧ c ≠ q) :
    ∃ w', w = c :: w' ∧ QuotedRun q w' := by
  cases hw with
  | nil => exact absurd (List.cons.inj h).1.symm hc.2
  | char other plain tail =>
      obtain rfl := (List.cons.inj h).1
      exact ⟨_, rfl, tail⟩
  | escape x tail => exact absurd (List.cons.inj h).1.symm hc.1

namespace Literal

variable {text : List Char} {l : Literal} {q : Char}

/-- A turn over a string passes a quoted run, or a backslash that stands for itself. -/
theorem Turn.quotedRun {cur next : Cursor} {made : List Piece} {depth' : Nat} (hq : IsQuote q)
    (hl : l.opening = q ∧ l.closing = q) (hquoting : l.quoting ≠ .verbatim) (hcur : cur.In text)
    (hcode : ∀ s, .code s ∈ made → q ∉ sliceBytes text s.start s.stop)
    (h : l.Turn 0 cur made depth' next) :
    depth' = 0 ∧ ∃ u, cur.Passes u next
      ∧ (QuotedRun q u ∨ u = ['\\'] ∧ ∀ c, next.rest.head? = some c → c ≠ '\\' ∧ c ≠ q) := by
  cases h with
  | @char c cs rest goes_on plain _ =>
      have hc : c ≠ q := fun h => goes_on (h.trans hl.2.symm) rfl
      refine ⟨by simp [nest, hl], [c], Cursor.passes_of_eq rest, .inl (.char hc plain .nil)⟩
  | code rest goes_on quoting code =>
      obtain ⟨run, hpass, hspan, -⟩ := (interpolation_answers rest).ok _ code
      dsimp only at hpass hspan
      subst hspan
      have hrun : q ∉ run := by
        have hslice := hcode _ (List.mem_singleton.mpr rfl)
        have hcovers := (hcur.passes hpass).1.inner
        rwa [← hcovers.sliceBytes_eq]
      have hplain : ∀ c, c = '#' ∨ c = '{' ∨ c = '}' → c ≠ q ∧ c ≠ '\\' := by
        rintro c (rfl | rfl | rfl) <;> rcases hq with rfl | rfl <;> decide
      refine ⟨rfl, _, hpass, .inl ?_⟩
      refine .append (.of_plain ?_) (.of_not_mem (hplain _ (.inr (.inr rfl))).1 (by decide) hrun)
      intro c hc
      apply hplain
      simp only [List.mem_cons, List.not_mem_nil, or_false] at hc
      exact hc.imp id .inl
  | @escape cs made n rest goes_on escape =>
      have hpass : cur.Passes ('\\' :: cs.take n) (cur.skip (n + 1)) := by
        have hskip := cur.passes_skip (n + 1)
        rwa [rest, List.take_succ_cons] at hskip
      refine ⟨rfl, _, hpass, ?_⟩
      rw [hl.2] at escape
      rcases Quoting.escape_run hquoting hq escape with hrun | ⟨rfl, hhead⟩
      · exact .inl hrun
      · refine .inr ⟨rfl, ?_⟩
        have hrest : (cur.skip 1).rest = cs := by simp [Cursor.skip, rest]
        rw [hrest]
        exact hhead

/-- The body of a string whose code does not hold its quote is a quoted run. -/
theorem quotedRun_of_pieces (hq : IsQuote q) (hl : l.opening = q ∧ l.closing = q)
    (hquoting : l.quoting ≠ .verbatim) {fuel : Nat} {cur after : Cursor} {ps : List Piece}
    (hcur : cur.In text) (hcode : ∀ s, .code s ∈ ps → q ∉ sliceBytes text s.start s.stop)
    (h : l.pieces fuel 0 cur = .ok (ps, after)) :
    ∃ w, cur.Passes (w ++ [q]) after ∧ QuotedRun q w := by
  induction fuel generalizing cur ps with
  | zero => exact absurd h (by simp [pieces])
  | succ fuel ih =>
      obtain ⟨cs, hrest, -⟩ | ⟨f, -, hfault⟩ | ⟨made, depth', next, hturn⟩ := pieces_cases l 0 cur
      · rw [pieces_closing hrest] at h
        obtain ⟨-, rfl⟩ := Prod.mk.inj (Except.ok.inj h)
        rw [hl.2] at hrest
        exact ⟨[], Cursor.passes_of_eq hrest, .nil⟩
      · rw [hfault] at h
        exact absurd h (by simp)
      · rw [hturn.pieces_eq, ← bind_eq_andThen] at h
        obtain ⟨⟨ps', after'⟩, hps, heq⟩ := bind_eq_ok h
        obtain ⟨rfl, rfl⟩ := Prod.mk.inj (Except.ok.inj heq)
        obtain ⟨rfl, u, hu, hrun⟩ := hturn.quotedRun hq hl hquoting hcur
          fun s hs => hcode s (List.mem_append_left ps' hs)
        obtain ⟨w, hw, hwrun⟩ := ih (hcur.passes hu).2
          (fun s hs => hcode s (List.mem_append_right made hs)) hps
        rcases hrun with hrun | ⟨rfl, hhead⟩
        · refine ⟨u ++ w, ?_, hrun.append hwrun⟩
          rw [List.append_assoc]
          exact hu.trans hw
        · -- the backslash hides the next character from the scanner of code, and that character is
          -- neither the quote nor a backslash
          obtain ⟨c, rest, hrest⟩ : ∃ c rest, w ++ q :: after'.rest = c :: rest :=
            List.exists_cons_of_ne_nil (by simp)
          have hnext : next.rest = c :: rest := by rw [hw.rest, List.append_assoc]; exact hrest
          obtain ⟨w', rfl, hw'⟩ := hwrun.tail hrest (hhead c (by rw [hnext, List.head?_cons]))
          exact ⟨'\\' :: c :: w', hu.trans hw, .escape c hw'⟩

/-- A string whose code does not hold its quote keeps the depth of braces. -/
theorem nests_of_body (hq : IsQuote q) (hl : l.opening = q ∧ l.closing = q)
    (hquoting : l.quoting ≠ .verbatim) {cur after : Cursor} {ss : List Segment}
    (hcur : cur.In text) (hcode : ∀ s, .code s ∈ ss → q ∉ sliceBytes text s.start s.stop)
    (h : l.body cur = .ok (ss, after)) (d : Nat) :
    ∃ w, cur.Passes w after ∧ Nests d (q :: w) d := by
  obtain ⟨⟨ps, after'⟩, hps, heq⟩ := bind_eq_ok h
  obtain ⟨rfl, rfl⟩ := Prod.mk.inj (Except.ok.inj heq)
  obtain ⟨w, hw, hrun⟩ := quotedRun_of_pieces hq hl hquoting hcur
    (fun s hs => hcode s ((Piece.code_mem_segments ps).mpr hs)) hps
  exact ⟨w ++ [q], hw, .quoted hq hrun (.nil d)⟩

end Literal

/-! ## Tokens -/

/-- The depth of braces behind a token, if it does not fall below zero. -/
def TokenKind.depthAfter? (d : Nat) : TokenKind → Option Nat
  | lbrace => some (d + 1)
  | rbrace => if d = 0 then none else some (d - 1)
  | _ => some d

theorem TokenKind.depthAfter?_eq {d : Nat} {kind : TokenKind} (hopen : kind ≠ .lbrace)
    (hclose : kind ≠ .rbrace) : kind.depthAfter? d = some d := by
  unfold depthAfter?
  split
  · exact absurd rfl hopen
  · exact absurd rfl hclose
  · rfl

/-- The depth of braces behind tokens. -/
def braceDepth? (d : Nat) (ts : List Token) : Option Nat :=
  ts.foldlM (fun d t => t.kind.depthAfter? d) d

/-- That the braces and quotes in a token stand in the open: it is a brace, or nested by itself, or a
string or quoted symbol whose own code does not hold its quote. -/
def Token.Overt (text : List Char) (t : Token) : Prop :=
  t.kind = .lbrace ∨ t.kind = .rbrace ∨ Nests 0 (sliceBytes text t.span.start t.span.stop) 0
    ∨ ∃ q w, IsQuote q
      ∧ (sliceBytes text t.span.start t.span.stop = q :: w
        ∨ sliceBytes text t.span.start t.span.stop = ':' :: q :: w)
      ∧ ∀ s, .code s ∈ t.kind.segments → q ∉ sliceBytes text s.start s.stop

namespace Lexer

variable {text : List Char} {cur next : Cursor} {last : Option TokenKind} {spaced : Bool}
  {kind : TokenKind} {q : Char} {cs : List Char}
variable {w : List Char}

/-- At a quote stands a string. -/
theorem token_of_quote (hq : IsQuote q) (h : cur.rest = q :: cs)
    (htoken : token last spaced cur = .ok (kind, next)) :
    ∃ (l : Literal) (ss : List Segment), (l.opening = q ∧ l.closing = q) ∧ l.quoting ≠ .verbatim
      ∧ l.body (cur.skip 1) = .ok (ss, next) ∧ kind = .str ss := by
  unfold token at htoken
  rw [h] at htoken
  rcases hq with rfl | rfl
  all_goals
    obtain ⟨⟨ss, next'⟩, hbody, heq⟩ := bind_eq_ok htoken
    obtain ⟨rfl, rfl⟩ := Prod.mk.inj (Except.ok.inj heq)
    exact ⟨_, ss, ⟨rfl, rfl⟩, by simp, hbody, rfl⟩

/-- At a colon before a quote stands a colon or a quoted symbol. -/
theorem token_of_colon_quote (hq : IsQuote q) (h : cur.rest = ':' :: q :: cs)
    (htoken : token last spaced cur = .ok (kind, next)) :
    next = cur.skip 1
      ∨ ∃ (l : Literal) (ss : List Segment), (l.opening = q ∧ l.closing = q)
        ∧ l.quoting ≠ .verbatim ∧ l.body (cur.skip 2) = .ok (ss, next) ∧ kind = .dsymbol ss := by
  have hcolon : token last spaced cur = colon last spaced cur := by
    unfold token
    rw [h]
    rfl
  have hpeek : cur.peekAt 1 = some q := by simp [Cursor.peekAt, h]
  rw [hcolon] at htoken
  unfold colon at htoken
  rw [hpeek] at htoken
  by_cases hallowed : literalAllowed last spaced cur = true
  · right
    rw [hallowed] at htoken
    rcases hq with rfl | rfl
    all_goals
      obtain ⟨⟨ss, next'⟩, hbody, heq⟩ := bind_eq_ok htoken
      obtain ⟨rfl, rfl⟩ := Prod.mk.inj (Except.ok.inj heq)
      exact ⟨_, ss, ⟨rfl, rfl⟩, by simp, hbody, rfl⟩
  · left
    have hne : (some q == some ':') = false := by rcases hq with rfl | rfl <;> rfl
    simp only [hne, hallowed] at htoken
    exact (Prod.mk.inj (Except.ok.inj htoken)).2.symm

/-- A string or quoted symbol whose code does not hold its quote keeps the depth. -/
theorem Written.nests_of_quote {v : List Char} (h : Written cur w kind next) (hcur : cur.In text)
    (htoken : token last spaced cur = .ok (kind, next)) (hq : IsQuote q)
    (hw : w = q :: v ∨ w = ':' :: q :: v)
    (hcode : ∀ s, .code s ∈ kind.segments → q ∉ sliceBytes text s.start s.stop) (d : Nat) :
    Nests d w d := by
  rcases hw with rfl | rfl
  · have hrest : cur.rest = q :: (v ++ next.rest) := h.passes.rest
    obtain ⟨l, ss, hl, hquoting, hbody, rfl⟩ := token_of_quote hq hrest htoken
    have hopen : cur.Passes [q] (cur.skip 1) := Cursor.passes_of_eq hrest
    obtain ⟨u, hu, hnests⟩ :=
      Literal.nests_of_body hq hl hquoting (hcur.passes hopen).2 hcode hbody d
    have heq : q :: v = q :: u := h.passes.run_eq (hopen.trans hu)
    rwa [heq]
  · have hrest : cur.rest = ':' :: q :: (v ++ next.rest) := h.passes.rest
    rcases token_of_colon_quote hq hrest htoken with rfl | ⟨l, ss, hl, hquoting, hbody, rfl⟩
    · have hcolon : cur.Passes [':'] (cur.skip 1) := Cursor.passes_of_eq hrest
      exact absurd (h.passes.run_eq hcolon) (by simp)
    · have hopen : cur.Passes [':', q] (cur.skip 2) := Cursor.passes_of_eq hrest
      obtain ⟨u, hu, hnests⟩ :=
        Literal.nests_of_body hq hl hquoting (hcur.passes hopen).2 hcode hbody d
      have heq : ':' :: q :: v = ':' :: q :: u := h.passes.run_eq (hopen.trans hu)
      rw [heq]
      exact .char (by decide) hnests

/-- A token whose braces and quotes stand in the open leads to the depth behind it. -/
theorem Written.nests {d e : Nat} (h : Written cur w kind next) (hcur : cur.In text)
    (htoken : kind = .newline ∨ token last spaced cur = .ok (kind, next))
    (hovert : ∀ c ∈ w, IsDelimiter c → (⟨kind, ⟨cur.offset, next.offset⟩, spaced⟩ : Token).Overt text)
    (hdepth : kind.depthAfter? d = some e) : Nests d w e := by
  by_cases hopen : kind = .lbrace
  · subst hopen
    obtain rfl : w = ['{'] := h.spelled
    obtain rfl : d + 1 = e := Option.some.inj hdepth
    exact .opening (.nil _)
  by_cases hclose : kind = .rbrace
  · subst hclose
    obtain rfl : w = ['}'] := h.spelled
    obtain ⟨d, rfl⟩ : ∃ k, d = k + 1 := by
      cases d with
      | zero => exact absurd hdepth (by simp [TokenKind.depthAfter?])
      | succ k => exact ⟨k, rfl⟩
    obtain rfl : d = e := Option.some.inj hdepth
    exact .closing (.nil _)
  obtain rfl : d = e := Option.some.inj ((TokenKind.depthAfter?_eq hopen hclose).symm.trans hdepth)
  by_cases hplain : ∀ c ∈ w, ¬ IsDelimiter c
  · exact .of_plain hplain
  obtain ⟨c, hc, hdelim⟩ : ∃ c ∈ w, IsDelimiter c := by simpa using hplain
  rcases htoken with rfl | htoken
  · obtain rfl : w = ['\n'] := h.spelled
    obtain rfl := List.mem_singleton.mp hc
    exact absurd hdelim (by decide)
  have hcovers : sliceBytes text cur.offset next.offset = w :=
    (hcur.passes h.passes).1.sliceBytes_eq
  rcases hovert c hc hdelim with hbrace | hbrace | hnested | ⟨q, v, hq, hslice, hcode⟩
  · exact absurd hbrace hopen
  · exact absurd hbrace hclose
  · dsimp only at hnested
    rw [hcovers] at hnested
    simpa using hnested.deeper d
  · dsimp only at hslice
    rw [hcovers] at hslice
    exact h.nests_of_quote hcur htoken hq hslice hcode d

/-! ## Runs -/

/-- That the braces and quotes of what a cursor reads stand in the open, in one of `ts`. -/
def Covered (text : List Char) (cur : Cursor) (ts : List Token) : Prop :=
  ∀ w c rest, cur.rest = w ++ c :: rest → IsDelimiter c →
    ∃ t ∈ ts, t.span.start ≤ cur.offset + byteSize w ∧ cur.offset + byteSize w < t.span.stop
      ∧ t.Overt text

/-- A delimiter in the run that a cursor passes stands in a token that begins before the end of the
run. -/
theorem Covered.of_mem {ts : List Token} {c : Char} (h : Covered text cur ts)
    (hw : cur.Passes w next) (hc : c ∈ w) (hdelim : IsDelimiter c) :
    ∃ t ∈ ts, t.span.start < next.offset ∧ t.Overt text := by
  obtain ⟨u, v, rfl⟩ := List.append_of_mem hc
  obtain ⟨t, ht, hstart, -, hovert⟩ := h u c (v ++ next.rest) (by simp [hw.rest]) hdelim
  have hsize : 0 < byteSize (c :: v) := byteSize_pos (List.cons_ne_nil c v)
  have hnext := hw.offset
  rw [byteSize_append] at hnext
  exact ⟨t, ht, by omega, hovert⟩

/-- Behind the run, only tokens that end behind it matter. -/
theorem Covered.passes {ts ts' : List Token} (h : Covered text cur ts) (hw : cur.Passes w next)
    (hts : ∀ t ∈ ts, t ∈ ts' ∨ t.span.stop ≤ next.offset) : Covered text next ts' := by
  intro u c rest hrest hdelim
  obtain ⟨t, ht, hstart, hstop, hovert⟩ :=
    h (w ++ u) c rest (by rw [hw.rest, hrest, List.append_assoc]) hdelim
  rw [byteSize_append, ← Nat.add_assoc, ← hw.offset] at hstart hstop
  rcases hts t ht with ht' | hbefore
  · exact ⟨t, ht', hstart, hstop, hovert⟩
  · omega

theorem braceDepth?_cons (d : Nat) (t : Token) (ts : List Token) :
    braceDepth? d (t :: ts) = (t.kind.depthAfter? d).bind (fun e => braceDepth? e ts) := rfl

namespace Scan

variable {marker : Bool} {s last : Scan}

/-- What is left to read leads to the depth behind its tokens, if its braces and quotes stand in the
open. The tokens still to come lie behind the cursor. -/
theorem nests_rest (hturns : Turns marker s last) (hlast : last.cursor.rest = [])
    (hcur : s.cursor.In text) :
    ∃ newer, last.tokens = newer ++ s.tokens ∧ (∀ t ∈ newer, s.cursor.offset ≤ t.span.start)
      ∧ ∀ d e, Covered text s.cursor newer → braceDepth? d newer.reverse = some e →
        Nests d s.cursor.rest e := by
  induction hturns using Relation.ReflTransGen.head_induction_on with
  | refl =>
      refine ⟨[], rfl, by simp, ?_⟩
      intro d e _ hdepth
      obtain rfl : d = e := Option.some.inj hdepth
      rw [hlast]
      exact .nil d
  | @head s s' hturn _ ih =>
      obtain ⟨w, hmove⟩ := hturn.moves
      have hpass := hmove.passes
      have hoffset : s.cursor.offset ≤ s'.cursor.offset := by
        rw [hpass.offset]
        omega
      obtain ⟨newer, hnewer, hbehind, hnests⟩ := ih (hcur.passes hpass).2
      have hbehind' : ∀ t ∈ newer, s.cursor.offset ≤ t.span.start :=
        fun t ht => Nat.le_trans hoffset (hbehind t ht)
      rcases hmove.tokens with hsame | ⟨kind, hwritten, htoken, hnew⟩
      · refine ⟨newer, by rw [hnewer, hsame], hbehind', ?_⟩
        intro d e hcovered hdepth
        -- a delimiter between tokens would have to stand in a token that lies behind it
        have hplain : ∀ c ∈ w, ¬ IsDelimiter c := by
          intro c hc hdelim
          obtain ⟨t, ht, hstart, -⟩ := hcovered.of_mem hpass hc hdelim
          have := hbehind t ht
          omega
        rw [hpass.rest]
        exact (Nests.of_plain hplain).append
          (hnests d e (hcovered.passes hpass fun t ht => .inl ht) hdepth)
      · refine ⟨newer ++ [⟨kind, ⟨s.cursor.offset, s'.cursor.offset⟩, s.spaced⟩], ?_, ?_, ?_⟩
        · rw [hnewer, hnew, List.append_assoc, List.singleton_append]
        · intro t ht
          rcases List.mem_append.mp ht with ht | ht
          · exact hbehind' t ht
          · obtain rfl := List.mem_singleton.mp ht
            exact Nat.le_refl _
        · intro d e hcovered hdepth
          rw [List.reverse_append, List.reverse_singleton, List.singleton_append,
            braceDepth?_cons] at hdepth
          obtain ⟨d', hkind, hdepth⟩ := Option.bind_eq_some_iff.mp hdepth
          have hrun : Nests d w d' := by
            refine hwritten.nests hcur htoken ?_ hkind
            intro c hc hdelim
            obtain ⟨t, ht, hstart, hovert⟩ := hcovered.of_mem hpass hc hdelim
            rcases List.mem_append.mp ht with ht | ht
            · have := hbehind t ht
              omega
            · obtain rfl := List.mem_singleton.mp ht
              exact hovert
          have hrest : Covered text s'.cursor newer := by
            refine hcovered.passes hpass fun t ht => ?_
            rcases List.mem_append.mp ht with ht | ht
            · exact .inl ht
            · obtain rfl := List.mem_singleton.mp ht
              exact .inr (Nat.le_refl _)
          rw [hpass.rest]
          exact hrun.append (hnests d' e hrest hdepth)

end Scan

/-! ## Strings that hold code only -/

/-- The text of a string that holds the code `s` and nothing else. -/
def interpolated (s : String) : String := "\x22#\x7b" ++ s ++ "\x7d\x22"

/-- What `interpolated s` is read as where its code is `s`: one string, with one piece of code. -/
def codeOnly (s : String) : Lexed :=
  ⟨[⟨.str [.code ⟨3, 3 + byteSize s.toList⟩], ⟨0, 5 + byteSize s.toList⟩, false⟩],
    5 + byteSize s.toList, none⟩

/-- The string of an interpolated text. -/
def codeLiteral : Literal := ⟨'\x22', '\x22', .double, 0⟩

/-- The cursor at the body of that string. -/
def codeCursor (s : String) : Cursor := ⟨'#' :: '{' :: (s.toList ++ ['}', '\x22']), 1⟩

theorem toList_interpolated (s : String) :
    (interpolated s).toList = '\x22' :: '#' :: '{' :: (s.toList ++ ['}', '\x22']) := by
  simp [interpolated]

theorem token_of_double_quote {cur : Cursor} {cs : List Char} (h : cur.rest = '\x22' :: cs)
    (last : Option TokenKind) (spaced : Bool) :
    token last spaced cur = (Literal.body ⟨'\x22', '\x22', .double, cur.offset⟩ (cur.skip 1)
      >>= fun r => .ok (.str r.1, r.2)) := by
  unfold token
  rw [h]
  rfl

theorem step_of_double_quote {s : Scan} {cs : List Char} (h : s.cursor.rest = '\x22' :: cs) :
    s.step = (token (s.tokens.head?.map Token.kind) s.spaced s.cursor
      >>= fun r => .ok (s.push r.1 r.2)) := by
  simp [Scan.step, h, startsWith]

theorem step_interpolated (s : String) :
    (Scan.ofText (interpolated s).toList).step
      = (codeLiteral.body (codeCursor s) >>= fun r =>
          .ok ((Scan.ofText (interpolated s).toList).push (.str r.1) r.2)) := by
  have hrest : (Scan.ofText (interpolated s).toList).cursor.rest
      = '\x22' :: '#' :: '{' :: (s.toList ++ ['}', '\x22']) := toList_interpolated s
  have hcursor : (Scan.ofText (interpolated s).toList).cursor.skip 1 = codeCursor s := by
    simp [Scan.ofText, toList_interpolated, Cursor.skip, codeCursor]
    rfl
  rw [step_of_double_quote hrest, token_of_double_quote hrest, hcursor]
  show (codeLiteral.body (codeCursor s) >>= _) >>= _ = _
  cases codeLiteral.body (codeCursor s) <;> rfl

/-- An interpolated text is read from its string on. -/
theorem lex_interpolated (s : String) :
    lex (interpolated s)
      = (codeLiteral.body (codeCursor s) >>= fun r =>
          Scan.run true (s.toList.length + 4)
            ((Scan.ofText (interpolated s).toList).push (.str r.1) r.2)).map
        (fun r => ⟨r.1, 5 + byteSize s.toList, r.2.map String.ofList⟩) := by
  have hsize : byteSize (interpolated s).toList = 5 + byteSize s.toList := by
    rw [toList_interpolated]
    simp only [byteSize_cons, byteSize_append, byteSize_nil]
    have : '\x22'.utf8Size = 1 ∧ '#'.utf8Size = 1 ∧ '{'.utf8Size = 1 ∧ '}'.utf8Size = 1 := by decide
    omega
  have hlength : (interpolated s).toList.length = s.toList.length + 4 + 1 := by
    rw [toList_interpolated]
    simp
  have hrest : (Scan.ofText (interpolated s).toList).cursor.rest ≠ [] := by
    show (interpolated s).toList ≠ []
    simp [toList_interpolated]
  have hunmarked : markedData? (interpolated s).toList = none := by
    rw [toList_interpolated]
    rfl
  rw [lex_eq_map, hsize, hlength, Scan.run_succ hrest (fun _ _ => hunmarked), step_interpolated]
  cases codeLiteral.body (codeCursor s) <;> rfl

/-- Nested code is read as the code of its string. -/
theorem lex_interpolated_of_nests {s : String} (h : Nests 0 s.toList 0) :
    lex (interpolated s) = .ok (codeOnly s) := by
  have hint : interpolation (codeCursor s)
      = .ok (⟨3, 3 + byteSize s.toList⟩, ⟨['\x22'], 4 + byteSize s.toList⟩) := by
    have hcode : codeLength none 0 (s.toList ++ ['}', '\x22']) = some s.toList.length :=
      codeLength_eq_some_iff.mpr ⟨s.toList, ['\x22'], rfl, rfl, h⟩
    have hopen : (codeCursor s).skip 2 = ⟨s.toList ++ ['}', '\x22'], 3⟩ := rfl
    have hend : (⟨s.toList ++ ['}', '\x22'], 3⟩ : Cursor).skip s.toList.length
        = ⟨['}', '\x22'], 3 + byteSize s.toList⟩ := Cursor.skip_length rfl
    have hclose : (⟨s.toList ++ ['}', '\x22'], 3⟩ : Cursor).skip (s.toList.length + 1)
        = ⟨['\x22'], 4 + byteSize s.toList⟩ := by
      have hskip : (⟨s.toList ++ ['}', '\x22'], 3⟩ : Cursor).skip (s.toList ++ ['}']).length
          = ⟨['\x22'], 3 + byteSize (s.toList ++ ['}'])⟩ := Cursor.skip_length (by simp)
      have hsize : 3 + byteSize (s.toList ++ ['}']) = 4 + byteSize s.toList := by
        rw [byteSize_append]
        show 3 + (byteSize s.toList + 1) = _
        omega
      rwa [List.length_append, hsize] at hskip
    unfold interpolation
    rw [hopen]
    dsimp only
    rw [hcode]
    dsimp only
    rw [hclose, hend]
  have hturn : codeLiteral.Turn 0 (codeCursor s) [.code ⟨3, 3 + byteSize s.toList⟩] 0
      ⟨['\x22'], 4 + byteSize s.toList⟩ :=
    .code rfl (by decide) (by decide) hint
  have hlength : (codeCursor s).rest.length = s.toList.length + 2 + 1 + 1 := by
    simp [codeCursor]
  have hbody : codeLiteral.body (codeCursor s)
      = .ok ([.code ⟨3, 3 + byteSize s.toList⟩], ⟨[], 5 + byteSize s.toList⟩) := by
    unfold Literal.body
    rw [hlength, hturn.pieces_eq, Literal.pieces_closing rfl]
    have hskip : (⟨['\x22'], 4 + byteSize s.toList⟩ : Cursor).skip 1
        = ⟨[], 4 + byteSize s.toList + 1⟩ := rfl
    rw [hskip, show 4 + byteSize s.toList + 1 = 5 + byteSize s.toList by omega]
    rfl
  rw [lex_interpolated, hbody]
  simp only [bind, Except.bind]
  rw [Scan.run_of_rest_eq_nil true rfl]
  rfl

/-- Two runs at the front of a text that take as many bytes are one. -/
theorem eq_of_byteSize_eq {u u' v v' : List Char} (h : u ++ v = u' ++ v')
    (hsize : byteSize u = byteSize u') : u = u' := by
  rcases List.append_eq_append_iff.mp h with ⟨w, rfl, -⟩ | ⟨w, rfl, -⟩
  all_goals
    by_cases hw : w = []
    · rw [hw, List.append_nil]
    · have hpos := byteSize_pos hw
      rw [byteSize_append] at hsize
      omega

theorem Scan.Turns.tokens_suffix {marker : Bool} {s last : Scan} (h : Turns marker s last) :
    s.tokens <:+ last.tokens := by
  obtain ⟨new, hnew, -⟩ := h.new_tokens
  exact ⟨new, hnew.symm⟩

/-- A string in which code comes first: the code ends where `codeLength` finds its end. -/
theorem nests_of_body_eq {s : String} {ss : List Segment} {next : Cursor} {stop : Nat}
    (h : codeLiteral.body (codeCursor s) = .ok (.code ⟨3, stop⟩ :: ss, next)) :
    ∃ code rest, s.toList ++ ['}', '\x22'] = code ++ '}' :: rest ∧ stop = 3 + byteSize code
      ∧ Nests 0 code 0 := by
  obtain ⟨⟨ps, next'⟩, hps, heq⟩ := bind_eq_ok h
  obtain ⟨hss, rfl⟩ := Prod.mk.inj (Except.ok.inj heq)
  have hlength : (codeCursor s).rest.length = s.toList.length + 3 + 1 := by simp [codeCursor]
  rw [hlength] at hps
  obtain ⟨cs, hrest, -⟩ | ⟨f, -, hfault⟩ | ⟨made, depth', next, hturn⟩ :=
    Literal.pieces_cases codeLiteral 0 (codeCursor s)
  · exact absurd (List.cons.inj hrest).1 (by decide)
  · rw [hfault] at hps
    exact absurd hps (by simp)
  · rw [hturn.pieces_eq, ← Literal.bind_eq_andThen] at hps
    obtain ⟨⟨ps', after⟩, -, heq⟩ := bind_eq_ok hps
    obtain ⟨rfl, rfl⟩ := Prod.mk.inj (Except.ok.inj heq)
    cases hturn with
    | escape rest => exact absurd (List.cons.inj rest).1 (by decide)
    | char rest goes_on plain text =>
        obtain ⟨rfl, rfl⟩ := List.cons.inj rest
        exact absurd rfl (text rfl (by decide))
    | code rest goes_on quoting code =>
        obtain ⟨run, hpass, hspan, hnests⟩ := (interpolation_answers rest).ok _ code
        dsimp only at hpass hspan
        subst hspan
        have hstop : (⟨1 + 2, 1 + 2 + byteSize run⟩ : Span) = ⟨3, stop⟩ :=
          Segment.code.inj (List.cons.inj hss).1
        refine ⟨run, next.rest, ?_, (Span.mk.inj hstop).2.symm, hnests⟩
        have hrest := hpass.rest
        simpa [codeCursor] using hrest

/-- Only nested code is read as the code of its string. -/
theorem nests_of_lex_interpolated {s : String} (h : lex (interpolated s) = .ok (codeOnly s)) :
    Nests 0 s.toList 0 := by
  rw [lex_interpolated] at h
  cases hbody : codeLiteral.body (codeCursor s) with
  | error f =>
      rw [hbody] at h
      exact absurd h (by simp [bind, Except.bind, Except.map])
  | ok r =>
      obtain ⟨ss, next⟩ := r
      rw [hbody] at h
      simp only [bind, Except.bind] at h
      have hfuel : next.rest.length ≤ s.toList.length + 4 := by
        obtain ⟨w, hw, -⟩ := (codeLiteral.body_answers (codeCursor s)).ok _ hbody
        have hlen := hw.length_eq
        simp [codeCursor] at hlen
        omega
      obtain ⟨last, hturns, hends⟩ := Scan.run_ends true
        (s := (Scan.ofText (interpolated s).toList).push (.str ss) next) hfuel
      obtain ⟨newer, hnewer⟩ := hturns.tokens_suffix
      have htokens : last.tokens.reverse = (codeOnly s).written := by
        generalize Scan.run true _ _ = found at h hends
        cases hends with
        | fault => exact absurd h (by simp [Except.map])
        | text | marked => exact congrArg Lexed.written (Except.ok.inj h)
      rw [← hnewer, List.reverse_append] at htokens
      have hstr : TokenKind.str ss = .str [.code ⟨3, 3 + byteSize s.toList⟩] :=
        congrArg Token.kind (List.cons.inj htokens).1
      obtain rfl := TokenKind.str.inj hstr
      obtain ⟨code, rest, hcode, hsize, hnests⟩ := nests_of_body_eq hbody
      have heq : s.toList = code := eq_of_byteSize_eq hcode (by omega)
      rwa [heq]

end Lexer

/-! ## Code by itself and in a string -/

/-- That the braces and quotes of a text stand in the open. -/
def Lexed.Overt (text : List Char) (l : Lexed) : Prop :=
  ∀ before c after, text = before ++ c :: after → IsDelimiter c →
    ∃ t ∈ l.written, t.span.start ≤ byteSize before ∧ byteSize before < t.span.stop
      ∧ t.Overt text

/-- Code by itself is nested, if its brace tokens are and its braces and quotes stand in the open. -/
theorem Lexed.Overt.nests {s : String} {l : Lexed} (hovert : l.Overt s.toList)
    (hlex : lex s = .ok l) (hdata : l.endData = none)
    (hbraces : braceDepth? 0 l.written = some 0) : Nests 0 s.toList 0 := by
  rw [Lexer.lex_eq_map] at hlex
  have hplaced := Lexer.Scan.ofText_placed s.toList
  obtain ⟨last, hturns, hends⟩ :=
    Lexer.Scan.run_ends true (Nat.le_refl (Lexer.Scan.ofText s.toList).cursor.rest.length)
  change Lexer.Scan.Ends true last
    (Lexer.Scan.run true s.toList.length (Lexer.Scan.ofText s.toList)) at hends
  generalize Lexer.Scan.run true s.toList.length (Lexer.Scan.ofText s.toList) = found at hlex hends
  cases hends with
  | fault => exact absurd hlex (by simp [Except.map])
  | marked =>
      obtain rfl := Except.ok.inj hlex
      exact absurd hdata (by simp)
  | text rest =>
      obtain rfl := Except.ok.inj hlex
      obtain ⟨newer, hnewer, -, hnests⟩ := Lexer.Scan.nests_rest hturns rest hplaced.cursor
      obtain rfl : last.tokens = newer := by simpa [Lexer.Scan.ofText] using hnewer
      refine hnests 0 0 ?_ hbraces
      intro w c rest hrest hdelim
      obtain ⟨t, ht, hstart, hstop, htoken⟩ := hovert w c rest hrest hdelim
      refine ⟨t, List.mem_reverse.mp ht, ?_, ?_, htoken⟩
      · rwa [show (Lexer.Scan.ofText s.toList).cursor.offset = 0 from rfl, Nat.zero_add]
      · rwa [show (Lexer.Scan.ofText s.toList).cursor.offset = 0 from rfl, Nat.zero_add]

open Lexer in
/-- **What a string can hold as its code** is exactly the nested text. A text that lexes by itself,
with nested brace tokens, is held as it is if its braces and quotes stand in the open. -/
theorem interpolated_code_iff_nests (s : String) :
    (lex (interpolated s) = .ok (codeOnly s) ↔ Nests 0 s.toList 0)
      ∧ ∀ l : Lexed, lex s = .ok l → l.endData = none → braceDepth? 0 l.written = some 0 →
        l.Overt s.toList → lex (interpolated s) = .ok (codeOnly s) := by
  constructor
  · exact ⟨nests_of_lex_interpolated, lex_interpolated_of_nests⟩
  · intro l hlex hdata hbraces hovert
    exact lex_interpolated_of_nests (hovert.nests hlex hdata hbraces)

open Lexer in
/-- A block with a string that hides a brace: the block is held as it is. -/
theorem interpolated_block :
    let s := "\x7b\x22\x7d\x22\x7d"
    ∃ l, lex s = .ok l ∧ l.endData = none ∧ braceDepth? 0 l.written = some 0
      ∧ l.Overt s.toList ∧ lex (interpolated s) = .ok (codeOnly s) := by
  have hlex : lex "\x7b\x22\x7d\x22\x7d"
      = .ok ⟨[⟨.lbrace, ⟨0, 1⟩, false⟩, ⟨.str [.text "\x7d"], ⟨1, 4⟩, false⟩,
        ⟨.rbrace, ⟨4, 5⟩, false⟩], 5, none⟩ := by rfl
  have hovert : Lexed.Overt "\x7b\x22\x7d\x22\x7d".toList
      ⟨[⟨.lbrace, ⟨0, 1⟩, false⟩, ⟨.str [.text "\x7d"], ⟨1, 4⟩, false⟩,
        ⟨.rbrace, ⟨4, 5⟩, false⟩], 5, none⟩ := by
    have hstr : Token.Overt "\x7b\x22\x7d\x22\x7d".toList
        ⟨.str [.text "\x7d"], ⟨1, 4⟩, false⟩ :=
      .inr (.inr (.inr ⟨'\x22', ['}', '\x22'], .inl rfl, .inl rfl, by simp [TokenKind.segments]⟩))
    intro before c after h hdelim
    change ['{', '\x22', '}', '\x22', '}'] = before ++ c :: after at h
    rcases before with _ | ⟨x, _ | ⟨y, _ | ⟨z, _ | ⟨u, _ | ⟨v, before⟩⟩⟩⟩⟩
    all_goals
      simp only [List.nil_append, List.cons_append, List.cons.injEq] at h
    · exact ⟨_, List.mem_cons_self, Nat.le_refl 0, Nat.one_pos, .inl rfl⟩
    · obtain ⟨rfl, -⟩ := h
      exact ⟨_, List.mem_cons_of_mem _ List.mem_cons_self, by decide, by decide, hstr⟩
    · obtain ⟨rfl, rfl, -⟩ := h
      exact ⟨_, List.mem_cons_of_mem _ List.mem_cons_self, by decide, by decide, hstr⟩
    · obtain ⟨rfl, rfl, rfl, -⟩ := h
      exact ⟨_, List.mem_cons_of_mem _ List.mem_cons_self, by decide, by decide, hstr⟩
    · obtain ⟨rfl, rfl, rfl, rfl, -⟩ := h
      exact ⟨_, List.mem_cons_of_mem _ (List.mem_cons_of_mem _ List.mem_cons_self), by decide,
        by decide, .inr (.inl rfl)⟩
    · simp at h
  exact ⟨_, hlex, rfl, rfl, hovert, (interpolated_code_iff_nests _).2 _ hlex rfl rfl hovert⟩

open Lexer in
/-- A string whose code is a string with a brace in it lexes by itself, without any brace token, and
is not held as it is. -/
theorem interpolated_nested_string :
    let s := "\x22#\x7b\x22\x7d\x22\x7d\x22"
    ∃ l, lex s = .ok l ∧ l.endData = none ∧ braceDepth? 0 l.written = some 0
      ∧ lex (interpolated s) ≠ .ok (codeOnly s) := by
  obtain ⟨l, hlex, hdata, hbraces⟩ : ∃ l, lex "\x22#\x7b\x22\x7d\x22\x7d\x22" = .ok l
      ∧ l.endData = none ∧ braceDepth? 0 l.written = some 0 := exists_ok_of_any (by decide +kernel)
  refine ⟨l, hlex, hdata, hbraces, ?_⟩
  intro h
  -- as code it would have to be passed as a whole, but its first brace ends it
  have hnests : Nests 0 "\x22#\x7b\x22\x7d\x22\x7d\x22".toList 0 := nests_of_lex_interpolated h
  have hlength := hnests.codeLength_eq ['}']
  exact absurd hlength (by decide +kernel)

end RubyJs
