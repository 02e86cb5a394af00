import Mathlib.Data.List.Find
import RubyJs.Proofs.Token.EndData

set_option autoImplicit false

/-! # Texts of chains

A chain is a sequence of integers with binary operators between them, and with as many blanks around
each operator as one likes:

    1+2 * 0x1f  ** 017

Its tokens are the integers and the operators (`Spelled.lex_eq`): no operator is longer than it is
meant to be, since a blank or a digit stands behind it, and a `%` behind a number opens no literal.
-/

namespace RubyJs

open Lexer

variable {t : String} {cur : Cursor}

/-! ## Integers -/

/-- That `t` is an integer literal: a number that is scanned to its end. -/
def IsInteger (t : String) : Prop :=
  Numeral.startsWithDigit t.toList = true ∧ Numeral.scan 0 t.toList = .ok (.int t, t.toList)

instance (t : String) : Decidable (IsInteger t) := inferInstanceAs (Decidable (_ ∧ _))

theorem IsInteger.exists_digit (h : IsInteger t) (more : List Char) :
    ∃ c cs, t.toList ++ more = c :: cs ∧ c.isDigit = true := by
  cases hcs : t.toList with
  | nil =>
      rw [IsInteger, hcs] at h
      cases h.1
  | cons c cs =>
      rw [IsInteger, hcs] at h
      exact ⟨c, cs ++ more, rfl, h.1⟩

/-- That no number goes on with `more`. -/
def Numeral.Apart (more : List Char) : Prop :=
  ∀ c ∈ more.head?, isBodyChar c = false ∧ c ≠ '.'

namespace Numeral

variable {cs more : List Char}

theorem checkDigits_of_ok {start at_ radix : Nat} {ds : List Char}
    (h : checkDigits start at_ radix ds = .ok ()) (start' at_' : Nat) :
    checkDigits start' at_' radix ds = .ok () := by
  unfold checkDigits at h ⊢
  split at h
  · cases h
  · rename_i hall
    rw [if_neg hall]
    split at h
    · cases h
    · rfl

theorem Apart.takeWhile_append {p : Char → Bool} (h : Apart more)
    (hp : ∀ c, p c = true → isBodyChar c = true) (hcs : cs.takeWhile p = cs) :
    (cs ++ more).takeWhile p = cs := by
  have hall : ∀ c ∈ cs, p c = true := by
    have := List.all_takeWhile (l := cs) (p := p)
    rw [hcs] at this
    exact List.all_eq_true.mp this
  rw [List.takeWhile_append_of_pos hall]
  cases more with
  | nil => simp
  | cons c more =>
      have hc : ¬ p c = true := fun hpc => by simpa [(h c rfl).1] using hp c hpc
      simp [hc]

theorem Apart.fraction_eq (h : Apart more) : fraction more = [] := by
  unfold fraction
  split
  · exact absurd rfl (h '.' rfl).2
  · rfl

theorem Apart.exponent_eq (h : Apart more) : exponent more = [] := by
  unfold exponent
  split
  · rename_i e s cs
    have he : ¬ (e == 'e' || e == 'E') = true := by
      intro he
      have hbody := (h e rfl).1
      simp only [Bool.or_eq_true, beq_iff_eq] at he
      rcases he with rfl | rfl <;> exact absurd hbody (by decide)
    rw [if_neg he]
  · rfl

theorem Apart.radixOf?_eq {c : Char} (h : Apart (c :: more)) : radixOf? c = none := by
  unfold radixOf?
  have hbody := (h c rfl).1
  split
  all_goals first
    | rfl
    | exact absurd hbody (by decide)

/-- That the digits `ds` are a decimal or, behind a leading zero, an octal integer. -/
def Whole (start : Nat) (ds : List Char) : Prop :=
  digitRun ds = ds ∧ ∀ d ds', ds = '0' :: d :: ds' →
    checkDigits start (start + 1) 8 (d :: ds') = .ok ()

theorem whole_of_decimal {start : Nat} (h : scan.decimal start cs = .ok (.int t, cs)) :
    Whole start cs ∧ String.ofList cs = t := by
  unfold scan.decimal at h
  dsimp only at h
  split at h
  · split at h
    · rename_i d ds heq
      obtain ⟨u, hcheck, h⟩ := bind_eq_ok h
      obtain ⟨hkind, hrun⟩ := Prod.mk.inj (Except.ok.inj h)
      rw [hrun] at hkind heq
      refine ⟨⟨hrun, ?_⟩, TokenKind.int.inj hkind⟩
      rintro d' ds' rfl
      obtain ⟨-, heq⟩ := List.cons.inj heq
      rw [heq]
      exact hcheck
    · rename_i hne
      obtain ⟨hkind, hrun⟩ := Prod.mk.inj (Except.ok.inj h)
      rw [hrun] at hkind hne
      exact ⟨⟨hrun, fun d ds heq => absurd heq (hne d ds)⟩, TokenKind.int.inj hkind⟩
  · exact absurd h (by simp)

/-- An integer without a radix letter is scanned up to where it ends. -/
theorem Whole.decimal_append {start : Nat} (h : Whole start cs) (hmore : Apart more)
    (start' : Nat) : scan.decimal start' (cs ++ more) = .ok (.int (String.ofList cs), cs) := by
  have hrun : digitRun (cs ++ more) = cs := by
    refine hmore.takeWhile_append ?_ h.1
    intro c hc
    simp only [Bool.or_eq_true] at hc
    simp only [isBodyChar, Char.isAlphanum, Bool.or_eq_true]
    exact hc.imp .inr id
  unfold scan.decimal
  simp only [hrun, List.drop_left, hmore.fraction_eq, List.length_nil, Nat.add_zero,
    hmore.exponent_eq, List.isEmpty_nil, Bool.and_self, if_true]
  split
  · rw [checkDigits_of_ok (h.2 _ _ rfl)]
    rfl
  · rfl

/-- That `cs` begins with a zero and the letter of a radix. -/
def Prefixed (cs : List Char) : Prop :=
  ∃ c ds radix, cs = '0' :: c :: ds ∧ radixOf? c = some radix

theorem scan_eq_decimal (h : ¬ Prefixed cs) (start : Nat) :
    scan start cs = scan.decimal start cs := by
  unfold scan
  split
  · rename_i c ds
    split
    · rename_i radix hradix
      exact absurd ⟨c, ds, radix, rfl, hradix⟩ h
    · rfl
  · rfl

theorem Prefixed.of_append (h : Prefixed (cs ++ more)) (hcs : cs ≠ []) (hmore : Apart more) :
    Prefixed cs := by
  obtain ⟨c, ds, radix, heq, hradix⟩ := h
  match cs, hcs with
  | [_], _ =>
      obtain rfl : more = c :: ds := (List.cons.inj heq).2
      rw [hmore.radixOf?_eq] at hradix
      cases hradix
  | x :: y :: cs, _ =>
      obtain ⟨rfl, htail⟩ := List.cons.inj heq
      obtain ⟨rfl, -⟩ := List.cons.inj htail
      exact ⟨y, cs, radix, rfl, hradix⟩

/-- An integer is scanned up to where it ends. -/
theorem scan_of_isInteger (h : IsInteger t) (hmore : Apart more) (start : Nat) :
    scan start (t.toList ++ more) = .ok (.int t, t.toList) := by
  obtain ⟨hdigit, hscan⟩ := h
  -- behind a radix letter all letters and digits belong to the number, else only digits do
  by_cases hradix : Prefixed t.toList
  · obtain ⟨c, ds, radix, heq, hradix⟩ := hradix
    rw [heq] at hscan ⊢
    simp only [scan, hradix] at hscan
    obtain ⟨u, hcheck, hscan⟩ := bind_eq_ok hscan
    obtain ⟨hkind, hbody⟩ := Prod.mk.inj (Except.ok.inj hscan)
    have hds : ds.takeWhile isBodyChar = ds := (List.cons.inj (List.cons.inj hbody).2).2
    rw [hds] at hcheck hkind
    show scan start ('0' :: c :: (ds ++ more)) = _
    simp only [scan, hradix, hmore.takeWhile_append (fun _ hc => hc) hds]
    rw [checkDigits_of_ok hcheck, ← hkind]
    rfl
  · have hne : t.toList ≠ [] := by
      intro hnil
      rw [hnil] at hdigit
      cases hdigit
    rw [scan_eq_decimal hradix] at hscan
    obtain ⟨hwhole, htext⟩ := whole_of_decimal hscan
    rw [scan_eq_decimal (fun happend => hradix (happend.of_append hne hmore)),
      hwhole.decimal_append hmore, htext]

end Numeral

/-! ## Operators -/

/-- The binary operators, from the loosest on. -/
inductive Operator where
  | or
  | and
  | cmp
  | eq
  | eqq
  | notEq
  | isMatch
  | noMatch
  | lt
  | le
  | gt
  | ge
  | pipe
  | caret
  | amp
  | shl
  | shr
  | plus
  | minus
  | times
  | divided
  | modulo
  | power
deriving DecidableEq, Repr

namespace Operator

/-- How an operator is written. -/
def text : Operator → String
  | or => "||"
  | and => "&&"
  | cmp => "<=>"
  | eq => "=="
  | eqq => "==="
  | notEq => "!="
  | isMatch => "=~"
  | noMatch => "!~"
  | lt => "<"
  | le => "<="
  | gt => ">"
  | ge => ">="
  | pipe => "|"
  | caret => "^"
  | amp => "&"
  | shl => "<<"
  | shr => ">>"
  | plus => "+"
  | minus => "-"
  | times => "*"
  | divided => "/"
  | modulo => "%"
  | power => "**"

/-- The token of an operator. -/
def kind : Operator → TokenKind
  | or => .orOr
  | and => .andAnd
  | cmp => .cmp
  | eq => .eq
  | eqq => .eqq
  | notEq => .notEq
  | isMatch => .eqTilde
  | noMatch => .bangTilde
  | lt => .lt
  | le => .le
  | gt => .gt
  | ge => .ge
  | pipe => .pipe
  | caret => .caret
  | amp => .amp
  | shl => .shl
  | shr => .shr
  | plus => .plus
  | minus => .minus
  | times => .star
  | divided => .slash
  | modulo => .percent
  | power => .pow

/-- That an operator ends before `more`: a blank or a digit follows. -/
def Ended (more : List Char) : Prop :=
  ∃ c cs, more = c :: cs ∧ (c = ' ' ∨ c.isDigit = true)

theorem isPrefixOf_append {w u cs : List Char} {c : Char} (h : c ∉ w) :
    w.isPrefixOf (u ++ c :: cs) = w.isPrefixOf u := by
  induction w generalizing u with
  | nil => simp
  | cons x w ih =>
      obtain ⟨hx, hw⟩ := List.ne_and_not_mem_of_not_mem_cons h
      cases u with
      | nil => simp [List.isPrefixOf, Ne.symm hx]
      | cons y u => simp [List.isPrefixOf, ih hw]

/-- Operators are written with marks only, so no longer one goes on with a blank or a digit. -/
theorem operator?_text (o : Operator) {more : List Char} (h : cur.rest = o.text.toList ++ more)
    (hmore : Ended more) : operator? cur = some (o.kind, cur.skip o.text.length) := by
  obtain ⟨c, cs, rfl, hc⟩ := hmore
  have hmarks : operators.all (fun e => e.1.toList.all fun x => !(x == ' ' || x.isDigit)) := by
    decide
  simp only [List.all_eq_true, Bool.not_eq_true', Bool.or_eq_false_iff] at hmarks
  have hsame : operators.find? (fun e => startsWith e.1 (o.text.toList ++ c :: cs))
      = operators.find? (fun e => startsWith e.1 o.text.toList) :=
    List.find?_congr fun e he => isPrefixOf_append fun hmem => by
      obtain ⟨hblank, hdigit⟩ := hmarks e he c hmem
      rcases hc with rfl | hc
      · cases hblank
      · exact Bool.noConfusion (hc.symm.trans hdigit)
  have hfind : operators.find? (fun e => startsWith e.1 o.text.toList) = some (o.text, o.kind) := by
    cases o <;> decide
  unfold operator?
  rw [h, hsame, hfind]
  rfl

/-- Behind a number stands an operator, and no literal. -/
theorem token_text (o : Operator) {more : List Char} (h : cur.rest = o.text.toList ++ more)
    (hmore : Ended more) (t : String) (spaced : Bool) :
    token (some (.int t)) spaced cur = .ok (o.kind, cur.skip o.text.length) := by
  have hoperator := o.operator?_text h hmore
  have hliteral : literalAllowed (some (.int t)) spaced cur = false := rfl
  have hlambda : (more.head? == some '>') = false := by
    obtain ⟨c, cs, rfl, rfl | hc⟩ := hmore
    · rfl
    · simp only [List.head?_cons, beq_eq_false_iff_ne, ne_eq, Option.some.injEq]
      rintro rfl
      cases hc
  unfold token
  rw [h]
  cases o <;> simp [text, isNameStart, hliteral, hoperator, hlambda]

end Operator

/-! ## Reading a text -/

namespace Lexer

theorem ne_of_isDigit {c : Char} (hc : c.isDigit = true) (x : Char) (hx : x.isDigit = false) :
    c ≠ x := by
  rintro rfl
  rw [hx] at hc
  cases hc

theorem token_of_isInteger {more : List Char} (ht : IsInteger t) (h : cur.rest = t.toList ++ more)
    (hmore : Numeral.Apart more) (last : Option TokenKind) (spaced : Bool) :
    token last spaced cur = .ok (.int t, cur.skip t.toList.length) := by
  have hscan := Numeral.scan_of_isInteger ht hmore cur.offset
  rw [← h] at hscan
  obtain ⟨c, cs, hrest, hc⟩ := ht.exists_digit more
  have hne := ne_of_isDigit hc
  unfold token
  rw [h, hrest]
  simp only [beq_eq_false_iff_ne.mpr (hne '\x22' rfl), beq_eq_false_iff_ne.mpr (hne '\x27' rfl),
    beq_eq_false_iff_ne.mpr (hne '\x60' rfl), hc, if_true, Bool.false_eq_true, if_false]
  rw [← hrest, ← h, hscan]
  rfl

/-- That a token stands at the front of `cs`: no blank, comment, document or marker line. -/
structure Fronts (cs : List Char) : Prop where
  nonempty : cs ≠ []
  gap : gap cs = .none
  document : startsWith "=begin" cs = false
  marker : markedData? cs = none

theorem fronts_of_isInteger (h : IsInteger t) (more : List Char) : Fronts (t.toList ++ more) := by
  obtain ⟨c, cs, hrest, hc⟩ := h.exists_digit more
  have hne := ne_of_isDigit hc
  rw [hrest]
  constructor
  · exact List.cons_ne_nil c cs
  · simp [gap, hne ' ' rfl, hne '\t' rfl, hne '\r' rfl, hne '\n' rfl, hne '\\' rfl, hne '#' rfl]
  · simp [startsWith, List.isPrefixOf, (hne '=' rfl).symm]
  · simp [markedData?, startsWith, List.isPrefixOf, (hne '_' rfl).symm]

theorem fronts_of_operator (o : Operator) (more : List Char) : Fronts (o.text.toList ++ more) := by
  constructor
  · cases o <;> simp [Operator.text]
  · cases o <;> rfl
  · cases o <;> rfl
  · cases o <;> rfl

namespace Scan

variable {s s' : Scan} {ks : List TokenKind}

/-- That reading on from `s` finds tokens of the kinds `ks`, and then the end of the text. -/
def Finds (s : Scan) (ks : List TokenKind) : Prop :=
  ∀ fuel, s.cursor.rest.length ≤ fuel →
    ∃ ts, run true fuel s = .ok (s.tokens.reverse ++ ts, none) ∧ ts.map Token.kind = ks

theorem finds_nil (h : s.cursor.rest = []) : s.Finds [] := by
  intro fuel _
  exact ⟨[], by rw [run_of_rest_eq_nil true h, List.append_nil], rfl⟩

/-- A turn leaves less to read. -/
theorem Turn.run_eq {fuel : Nat} (h : Turn true s s') (hfuel : s.cursor.rest.length ≤ fuel) :
    ∃ n, s'.cursor.rest.length ≤ n ∧ run true fuel s = run true n s' := by
  obtain ⟨w, hmove⟩ := (step_answers h.rest).ok s' h.step
  have hlength := hmove.passes.length_eq
  have hw : 0 < w.length := List.length_pos_iff.mpr hmove.nonempty
  obtain ⟨n, rfl⟩ : ∃ n, fuel = n + 1 := ⟨fuel - 1, by omega⟩
  refine ⟨n, by omega, ?_⟩
  rw [run_succ h.rest h.unmarked, h.step]
  rfl

theorem Finds.skipped (h : s'.Finds ks) (hturn : Turn true s s') (htokens : s'.tokens = s.tokens) :
    s.Finds ks := by
  intro fuel hfuel
  obtain ⟨n, hn, hrun⟩ := hturn.run_eq hfuel
  rw [hrun, ← htokens]
  exact h n hn

theorem Finds.found {t : Token} (h : s'.Finds ks) (hturn : Turn true s s')
    (htokens : s'.tokens = t :: s.tokens) : s.Finds (t.kind :: ks) := by
  intro fuel hfuel
  obtain ⟨n, hn, hrun⟩ := hturn.run_eq hfuel
  obtain ⟨ts, hts, hkinds⟩ := h n hn
  refine ⟨t :: ts, ?_, by rw [List.map_cons, hkinds]⟩
  rw [hrun, hts, htokens]
  simp

theorem turn_of_fronts {kind : TokenKind} {next : Cursor} (h : Fronts s.cursor.rest)
    (htoken : token (s.tokens.head?.map Token.kind) s.spaced s.cursor = .ok (kind, next)) :
    Turn true s (s.push kind next) where
  rest := h.nonempty
  unmarked _ _ := h.marker
  step := by
    rw [step_eq, h.document, Bool.and_false, h.gap, htoken]
    rfl

theorem turn_of_blank {cs : List Char} (h : s.cursor.rest = ' ' :: cs) :
    Turn true s (s.blank 1 false) where
  rest := by simp [h]
  unmarked _ _ := by
    rw [h]
    rfl
  step := by
    have hdocument : startsWith "=begin" (' ' :: cs) = false := rfl
    rw [step_eq, h, hdocument, Bool.and_false]
    rfl

/-- Blanks mean nothing. -/
theorem finds_of_blanks {n : Nat} {cs : List Char}
    (h : ∀ s' : Scan, s'.cursor.rest = cs → s'.tokens = s.tokens → s'.Finds ks)
    (hrest : s.cursor.rest = List.replicate n ' ' ++ cs) : s.Finds ks := by
  induction n generalizing s with
  | zero => exact h s hrest rfl
  | succ n ih =>
      have hblank : s.cursor.rest = ' ' :: (List.replicate n ' ' ++ cs) := hrest
      have hnext : (s.blank 1 false).cursor.rest = List.replicate n ' ' ++ cs := by
        simp [blank, Cursor.skip, hblank]
      exact (ih (s := s.blank 1 false) h hnext).skipped (turn_of_blank hblank) rfl

end Scan

end Lexer

/-! ## Chains -/

/-- The tokens behind the first operand of a chain. -/
def tailKinds : List (Operator × String) → List TokenKind
  | [] => []
  | (o, t) :: rest => o.kind :: .int t :: tailKinds rest

/-- The tokens of a chain. -/
def chainKinds (first : String) (rest : List (Operator × String)) : List TokenKind :=
  .int first :: tailKinds rest

/-- The texts of what stands behind the first operand of a chain: each operator with the operand to
its right, and any number of blanks on both sides of the operator. -/
inductive SpelledTail : List (Operator × String) → List Char → Prop where
  | nil : SpelledTail [] []
  | cons {o : Operator} {t : String} {rest : List (Operator × String)} {cs : List Char}
      (before after : Nat) (integer : IsInteger t) (tail : SpelledTail rest cs) :
      SpelledTail ((o, t) :: rest)
        (List.replicate before ' '
          ++ (o.text.toList ++ (List.replicate after ' ' ++ (t.toList ++ cs))))

/-- The texts of the chain that begins with `first`. -/
def Spelled (first : String) (rest : List (Operator × String)) (text : String) : Prop :=
  IsInteger first ∧ ∃ cs, SpelledTail rest cs ∧ text.toList = first.toList ++ cs

theorem SpelledTail.apart {rest : List (Operator × String)} {cs : List Char}
    (h : SpelledTail rest cs) : Numeral.Apart cs := by
  cases h with
  | nil => simp [Numeral.Apart]
  | @cons o t rest cs before after integer tail =>
      cases before with
      | zero =>
          intro c hc
          cases o
          all_goals
            obtain rfl := Option.some.inj hc
            decide
      | succ n =>
          intro c hc
          obtain rfl := Option.some.inj hc
          decide

theorem ended_of_isInteger (h : IsInteger t) (n : Nat) (more : List Char) :
    Operator.Ended (List.replicate n ' ' ++ (t.toList ++ more)) := by
  cases n with
  | zero =>
      obtain ⟨c, cs, hrest, hc⟩ := h.exists_digit more
      exact ⟨c, cs, hrest, .inr hc⟩
  | succ n => exact ⟨' ', _, rfl, .inl rfl⟩

namespace Lexer.Scan

variable {s : Scan} {first : String} {rest : List (Operator × String)} {cs : List Char}

theorem finds_of_isInteger {ks : List TokenKind} (hfirst : IsInteger first)
    (hmore : Numeral.Apart cs) (h : s.cursor.rest = first.toList ++ cs)
    (hnext : ∀ s' : Scan, s'.cursor.rest = cs → s'.tokens.head?.map Token.kind = some (.int first) →
      s'.Finds ks) : s.Finds (.int first :: ks) := by
  have hfronts : Fronts s.cursor.rest := h ▸ fronts_of_isInteger hfirst cs
  have hturn := turn_of_fronts hfronts (token_of_isInteger hfirst h hmore _ _)
  have hrest : (s.cursor.skip first.toList.length).rest = cs := by rw [Cursor.skip_length h]
  exact (hnext (s.push (.int first) _) hrest rfl).found hturn rfl

theorem finds_of_operator {ks : List TokenKind} {o : Operator} (hmore : Operator.Ended cs)
    (h : s.cursor.rest = o.text.toList ++ cs)
    (hlast : s.tokens.head?.map Token.kind = some (.int first))
    (hnext : ∀ s' : Scan, s'.cursor.rest = cs → s'.Finds ks) : s.Finds (o.kind :: ks) := by
  have hfronts : Fronts s.cursor.rest := h ▸ fronts_of_operator o cs
  have htoken := o.token_text h hmore first s.spaced
  rw [← hlast] at htoken
  have hrest : (s.cursor.skip o.text.length).rest = cs := by
    rw [← String.length_toList, Cursor.skip_length h]
  exact (hnext (s.push o.kind _) hrest).found (turn_of_fronts hfronts htoken) rfl

/-- A chain is read as its tokens. The induction is on the operators: behind an operand comes an
operator, and behind that another operand. -/
theorem finds_chain (hfirst : IsInteger first) (htail : SpelledTail rest cs)
    (h : s.cursor.rest = first.toList ++ cs) : s.Finds (chainKinds first rest) := by
  induction htail generalizing s first with
  | nil => exact finds_of_isInteger hfirst SpelledTail.nil.apart h fun _ hrest _ => finds_nil hrest
  | @cons o t rest cs before after integer tail ih =>
      refine finds_of_isInteger hfirst (tail.cons before after integer).apart h ?_
      intro s₁ hs₁ hlast
      refine finds_of_blanks ?_ hs₁
      intro s₂ hs₂ htokens
      rw [← htokens] at hlast
      refine finds_of_operator (ended_of_isInteger integer after cs) hs₂ hlast ?_
      intro s₃ hs₃
      exact finds_of_blanks (fun _ hrest _ => ih integer hrest) hs₃

end Lexer.Scan

/-- The tokens of a chain are its operands and operators. -/
theorem Spelled.lex_eq {first text : String} {rest : List (Operator × String)}
    (h : Spelled first rest text) :
    ∃ l, lex text = .ok l ∧ l.written.map Token.kind = chainKinds first rest
      ∧ l.endData = none := by
  obtain ⟨hfirst, cs, htail, htext⟩ := h
  have hfinds : (Scan.ofText text.toList).Finds (chainKinds first rest) :=
    Scan.finds_chain hfirst htail htext
  obtain ⟨ts, hrun, hkinds⟩ := hfinds text.toList.length (Nat.le_refl _)
  refine ⟨⟨ts, byteSize text.toList, none⟩, ?_, hkinds, rfl⟩
  rw [lex_eq_map, hrun]
  rfl

end RubyJs
