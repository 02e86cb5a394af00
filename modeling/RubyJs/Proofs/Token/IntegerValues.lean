import Mathlib.Data.List.TakeWhile
import RubyJs.Proofs.Token.Chains

set_option autoImplicit false

/-! # The values of integers

An integer literal is written in one of four ways, and stands for the number that its digits are in
their radix. Underscores mean nothing.

    0x1F    0b1_01    0o17    0d19      behind the letter of the radix, in either case
    017     0_17                        octal, behind a zero alone
    19_000                              decimal, if there is no zero in front
    0

`Numeral.Denotes` says so of a text, by its characters alone. The texts that denote a number are
those of the integers among the tokens (`isIntegerToken_iff`), and the output of such a text is the
decimal numeral of the number, as long as it has 128 bits at most.
-/

namespace RubyJs

open Lexer

/-! ## What a literal stands for -/

/-- The digits, from zero on. -/
def smallDigits : List Char := "0123456789abcdef".toList

/-- The digits, from zero on, with capital letters. -/
def capitalDigits : List Char := "0123456789ABCDEF".toList

/-- That `c` writes the digit `d`. -/
def WritesDigit (c : Char) (d : Nat) : Prop :=
  smallDigits[d]? = some c ∨ capitalDigits[d]? = some c

instance (c : Char) (d : Nat) : Decidable (WritesDigit c d) := inferInstanceAs (Decidable (_ ∨ _))

/-- That the characters write the digits `ds` of a radix, with underscores between them. -/
inductive WritesDigits (radix : Nat) : List Char → List Nat → Prop where
  | nil : WritesDigits radix [] []
  | underscore {cs : List Char} {ds : List Nat} (rest : WritesDigits radix cs ds) :
      WritesDigits radix ('_' :: cs) ds
  | digit {c : Char} {d : Nat} {cs : List Char} {ds : List Nat} (small : d < radix)
      (writes : WritesDigit c d) (rest : WritesDigits radix cs ds) :
      WritesDigits radix (c :: cs) (d :: ds)

/-- That the characters write the number `v` in a radix, with one digit at least. -/
def WritesNumber (radix : Nat) (cs : List Char) (v : Nat) : Prop :=
  ∃ ds, ds ≠ [] ∧ WritesDigits radix cs ds ∧ v = Nat.ofDigits radix ds.reverse

/-- The letters that announce a radix behind a zero. -/
def radixLetters : List (Char × Nat) :=
  [('b', 2), ('B', 2), ('o', 8), ('O', 8), ('d', 10), ('D', 10), ('x', 16), ('X', 16)]

/-- That the characters are an integer literal, which stands for `v`. -/
inductive Numeral.Denotes : List Char → Nat → Prop where
  | lettered {c : Char} {radix v : Nat} {cs : List Char} (letter : (c, radix) ∈ radixLetters)
      (number : WritesNumber radix cs v) : Numeral.Denotes ('0' :: c :: cs) v
  | octal {cs : List Char} {v : Nat} (number : WritesNumber 8 cs v) : Numeral.Denotes ('0' :: cs) v
  | decimal {c : Char} {cs : List Char} {v : Nat} (nonzero : c ≠ '0') (front : c ≠ '_')
      (number : WritesNumber 10 (c :: cs) v) : Numeral.Denotes (c :: cs) v
  | zero : Numeral.Denotes ['0'] 0

/-! ## Digits -/

theorem digitValue?_of_writesDigit {c : Char} {d : Nat} (h : WritesDigit c d) :
    Numeral.digitValue? c = some d := by
  have hd : d < 16 := by
    rcases h with h | h <;> exact (List.getElem?_eq_some_iff.mp h).1
  have hsmall : ∀ d < 16, smallDigits[d]?.bind Numeral.digitValue? = some d := by decide
  have hcapital : ∀ d < 16, capitalDigits[d]?.bind Numeral.digitValue? = some d := by decide
  rcases h with h | h
  · have hvalue := hsmall d hd
    rwa [h] at hvalue
  · have hvalue := hcapital d hd
    rwa [h] at hvalue

theorem writesDigit_of_digitValue? {c : Char} {d : Nat} (h : Numeral.digitValue? c = some d) :
    WritesDigit c d := by
  have hc : c.toNat < 128 := by
    by_contra hge
    have hnone : Numeral.digitValue? c = none := by
      have hnot : ∀ x : Char, x.toNat < 128 → ¬ c ≤ x := fun x hx hle => by
        have hle : c.toNat ≤ x.toNat := hle
        omega
      simp [Numeral.digitValue?, hnot]
    rw [hnone] at h
    cases h
  have htable : ∀ n < 128, ∀ d ∈ Numeral.digitValue? (Char.ofNat n),
      WritesDigit (Char.ofNat n) d := by decide
  have hchar := htable c.toNat hc d
  rw [Char.ofNat_toNat] at hchar
  exact hchar h

/-- The value of a character that is a digit. -/
def Numeral.value (c : Char) : Nat := (Numeral.digitValue? c).getD 0

theorem isDigitIn_of_writesDigit {c : Char} {d radix : Nat} (h : WritesDigit c d) (hd : d < radix) :
    Numeral.isDigitIn radix c = true := by
  rw [Numeral.isDigitIn, digitValue?_of_writesDigit h]
  exact decide_eq_true hd

theorem writesDigit_of_isDigitIn {c : Char} {radix : Nat} (h : Numeral.isDigitIn radix c = true) :
    Numeral.value c < radix ∧ WritesDigit c (Numeral.value c) := by
  unfold Numeral.isDigitIn at h
  split at h
  · rename_i d hd
    have hvalue : Numeral.value c = d := by rw [Numeral.value, hd, Option.getD_some]
    rw [hvalue]
    exact ⟨of_decide_eq_true h, writesDigit_of_digitValue? hd⟩
  · cases h

theorem not_writesDigit_underscore {d : Nat} : ¬ WritesDigit '_' d := by
  intro h
  cases digitValue?_of_writesDigit h

/-- Characters write digits if all but the underscores are digits, and then they write those. -/
theorem writesDigits_iff {radix : Nat} {cs : List Char} {ds : List Nat} :
    WritesDigits radix cs ds ↔ (∀ c ∈ cs.filter (· != '_'), Numeral.isDigitIn radix c = true)
      ∧ ds = (cs.filter (· != '_')).map Numeral.value := by
  constructor
  · intro h
    induction h with
    | nil => exact ⟨fun c hc => absurd hc List.not_mem_nil, rfl⟩
    | underscore _ ih => exact ih
    | @digit c d cs ds small writes _ ih =>
        have hc : c ≠ '_' := by
          rintro rfl
          exact not_writesDigit_underscore writes
        have hvalue : Numeral.value c = d := by
          rw [Numeral.value, digitValue?_of_writesDigit writes, Option.getD_some]
        rw [Numbers.filter_bar_cons hc, List.forall_mem_cons, List.map_cons, hvalue, ← ih.2]
        exact ⟨⟨isDigitIn_of_writesDigit writes small, ih.1⟩, rfl⟩
  · rintro ⟨hdigits, rfl⟩
    induction cs with
    | nil => exact .nil
    | cons c cs ih =>
        by_cases hc : c = '_'
        · subst hc
          exact .underscore (ih hdigits)
        · rw [Numbers.filter_bar_cons hc, List.forall_mem_cons] at hdigits
          rw [Numbers.filter_bar_cons hc, List.map_cons]
          obtain ⟨hsmall, hwrites⟩ := writesDigit_of_isDigitIn hdigits.1
          exact .digit hsmall hwrites (ih hdigits.2)

theorem writesNumber_iff {radix : Nat} {cs : List Char} {v : Nat} :
    WritesNumber radix cs v ↔ Numeral.AreDigits radix cs
      ∧ v = Nat.ofDigits radix ((cs.filter (· != '_')).reverse.map Numeral.value) := by
  rw [WritesNumber, Numeral.AreDigits]
  simp only [writesDigits_iff, List.map_reverse]
  constructor
  · rintro ⟨ds, hne, ⟨hdigits, rfl⟩, rfl⟩
    exact ⟨⟨fun h => hne (by rw [h, List.map_nil]), hdigits⟩, rfl⟩
  · rintro ⟨⟨hne, hdigits⟩, rfl⟩
    exact ⟨_, fun h => hne (List.map_eq_nil_iff.mp h), ⟨hdigits, rfl⟩, rfl⟩

/-- The letters of the radices are those that the lexer knows. -/
theorem mem_radixLetters_iff {c : Char} {radix : Nat} :
    (c, radix) ∈ radixLetters ↔ Numeral.radixOf? c = some radix := by
  constructor
  · intro h
    have hall : radixLetters.all (fun l => Numeral.radixOf? l.1 == some l.2) = true := by decide
    exact eq_of_beq (List.all_eq_true.mp hall _ h)
  · intro h
    unfold Numeral.radixOf? at h
    split at h
    all_goals first
      | obtain rfl := Option.some.inj h
        decide
      | cases h

/-! ## The output -/

namespace Numeral.Denotes

variable {raw : String} {cs : List Char} {v : Nat}

/-- How the output takes a literal apart is how it is written. -/
theorem splitRadix (h : Numeral.Denotes cs v) :
    ∃ radix ds, Numbers.splitRadix (Numbers.cleaned (String.ofList cs)) = (radix, ds)
      ∧ ds ≠ [] ∧ (∀ c ∈ ds, Numeral.isDigitIn radix c = true)
      ∧ v = Nat.ofDigits radix (ds.reverse.map Numeral.value) := by
  cases h with
  | lettered letter number =>
      obtain ⟨hdigits, hv⟩ := writesNumber_iff.mp number
      exact ⟨_, _, Numeral.splitRadix_lettered _ (mem_radixLetters_iff.mp letter), hdigits.1,
        hdigits.2, hv⟩
  | octal number =>
      obtain ⟨hdigits, hv⟩ := writesNumber_iff.mp number
      exact ⟨_, _, Numeral.splitRadix_octal hdigits, hdigits.1, hdigits.2, hv⟩
  | decimal nonzero front number =>
      obtain ⟨hdigits, hv⟩ := writesNumber_iff.mp number
      exact ⟨_, _, Numeral.splitRadix_decimal front nonzero, hdigits.1, hdigits.2, hv⟩
  | zero => exact ⟨10, ['0'], rfl, List.cons_ne_nil _ _, List.all_eq_true.mp rfl, rfl⟩

theorem isNumeral (h : Numeral.Denotes raw.toList v) :
    Numbers.isNumeral (Numbers.cleaned raw) = true := by
  obtain ⟨radix, ds, hsplit, hne, hdigits, -⟩ := h.splitRadix
  rw [String.ofList_toList] at hsplit
  rw [Numbers.isNumeral, hsplit, Bool.and_eq_true, Bool.not_eq_true', List.isEmpty_eq_false_iff]
  exact ⟨hne, List.all_eq_true.mpr hdigits⟩

theorem magnitude_eq (h : Numeral.Denotes raw.toList v) : Numbers.magnitude raw = v := by
  obtain ⟨radix, ds, hsplit, -, -, rfl⟩ := h.splitRadix
  rw [String.ofList_toList] at hsplit
  rw [Numbers.magnitude, Numbers.splitSign_of_isNumeral h.isNumeral, hsplit]
  rfl

/-- A literal stands for one number. -/
theorem unique {w : Nat} (h : Numeral.Denotes cs v) (h' : Numeral.Denotes cs w) : v = w := by
  rw [← @String.toList_ofList cs] at h h'
  rw [← h.magnitude_eq, ← h'.magnitude_eq]

theorem integerText?_eq (h : Numeral.Denotes raw.toList v) :
    Numbers.integerText? raw = if v < 2 ^ 128 then some (toString v) else none := by
  rw [Numbers.integerText?_eq (Numbers.isInteger_of_isNumeral h.isNumeral), h.magnitude_eq,
    Numbers.splitSign_of_isNumeral h.isNumeral]
  simp

theorem integerText?_minus (h : Numeral.Denotes raw.toList v) :
    Numbers.integerText? ("-" ++ raw) = if v < 2 ^ 128 then some ("-" ++ toString v) else none := by
  have hmagnitude : Numbers.magnitude ("-" ++ raw) = v := by
    rw [← h.magnitude_eq, Numbers.magnitude, Numbers.magnitude, Numbers.cleaned_minus,
      Numbers.splitSign_of_isNumeral h.isNumeral]
    rfl
  rw [Numbers.integerText?_eq (Numbers.isInteger_minus h.isNumeral), hmagnitude,
    Numbers.cleaned_minus]
  rfl

end Numeral.Denotes

/-! ## The tokens -/

namespace Numeral

variable {cs : List Char} {radix : Nat} {c : Char}

/-- That an integer that was read denotes a number. -/
def Valued (kind : TokenKind) : Prop := ∀ t, kind = .int t → ∃ v, Numeral.Denotes t.toList v

theorem exists_writesNumber (h : AreDigits radix cs) : ∃ v, WritesNumber radix cs v :=
  ⟨_, writesNumber_iff.mpr ⟨h, rfl⟩⟩

theorem denotes_of_decimal {start : Nat} {w : List Char} {t : String} (hc : c.isDigit = true)
    (h : scan.decimal start (c :: cs) = .ok (.int t, w)) : ∃ v, Numeral.Denotes t.toList v := by
  have hrun : digitRun (c :: cs) = c :: digitRun cs := by simp [digitRun, hc]
  unfold scan.decimal at h
  dsimp only at h
  split at h
  · split at h
    · rename_i d ds hdigits
      obtain ⟨u, hcheck, h⟩ := bind_eq_ok h
      obtain ⟨hkind, -⟩ := Prod.mk.inj (Except.ok.inj h)
      obtain rfl := TokenKind.int.inj hkind
      obtain ⟨v, hv⟩ := exists_writesNumber (areDigits_of_checkDigits hcheck)
      rw [hdigits, String.toList_ofList]
      exact ⟨v, .octal hv⟩
    · rename_i hplain
      obtain ⟨hkind, -⟩ := Prod.mk.inj (Except.ok.inj h)
      obtain rfl := TokenKind.int.inj hkind
      rw [hrun] at hplain ⊢
      rw [String.toList_ofList]
      by_cases hzero : c = '0'
      · subst hzero
        cases hrest : digitRun cs with
        | nil => exact ⟨0, .zero⟩
        | cons d ds => exact absurd (by rw [hrest]) (hplain d ds)
      · have hne : c ≠ '_' := by
          rintro rfl
          cases hc
        have hds : ∀ d ∈ digitRun cs, d.isDigit = true ∨ d = '_' := fun d hd => by
          simpa using List.all_eq_true.mp List.all_takeWhile d hd
        obtain ⟨v, hv⟩ := exists_writesNumber (areDigits_ten hc hds)
        exact ⟨v, .decimal hzero hne hv⟩
  · exact absurd h (by simp)

/-- The text of an integer that is scanned denotes a number. -/
theorem denotes_of_scan {start : Nat} {w : List Char} {t : String} (hc : c.isDigit = true)
    (h : scan start (c :: cs) = .ok (.int t, w)) : ∃ v, Numeral.Denotes t.toList v := by
  by_cases hradix : Prefixed (c :: cs)
  · obtain ⟨r, ds, radix, heq, hradix⟩ := hradix
    rw [heq] at h
    simp only [scan, hradix] at h
    obtain ⟨u, hcheck, h⟩ := bind_eq_ok h
    obtain ⟨hkind, -⟩ := Prod.mk.inj (Except.ok.inj h)
    obtain rfl := TokenKind.int.inj hkind
    obtain ⟨v, hv⟩ := exists_writesNumber (areDigits_of_checkDigits hcheck)
    rw [String.toList_ofList]
    exact ⟨v, .lettered (mem_radixLetters_iff.mpr hradix) hv⟩
  · rw [scan_eq_decimal hradix] at h
    exact denotes_of_decimal hc h

/-- Digits go on to the end of the literal, and are not at fault. -/
theorem AreDigits.scans (h : AreDigits radix cs) (start at_ : Nat) :
    checkDigits start at_ radix cs = .ok () ∧ ∀ c ∈ cs, isBodyChar c = true := by
  have hdigit : ∀ c ∈ cs, c ≠ '_' → isDigitIn radix c = true := fun c hc hne =>
    h.2 c (List.mem_filter.mpr ⟨hc, by simpa using hne⟩)
  have hall : ¬ cs.all (· == '_') = true := by
    intro hall
    refine h.1 (List.filter_eq_nil_iff.mpr fun c hc => ?_)
    have := List.all_eq_true.mp hall c hc
    simpa using this
  have hnone : cs.findIdx? (fun c => c != '_' && !isDigitIn radix c) = none := by
    refine List.findIdx?_eq_none_iff.mpr fun c hc => ?_
    by_cases hbar : c = '_'
    · simp [hbar]
    · simp [hdigit c hc hbar]
  refine ⟨by rw [checkDigits, if_neg hall, hnone], fun c hc => ?_⟩
  by_cases hbar : c = '_'
  · rw [hbar]
    rfl
  · obtain ⟨-, hwrites⟩ := writesDigit_of_isDigitIn (hdigit c hc hbar)
    rcases hwrites with hc | hc
    · have htable : smallDigits.all isBodyChar = true := by decide
      exact List.all_eq_true.mp htable c (List.mem_of_getElem? hc)
    · have htable : capitalDigits.all isBodyChar = true := by decide
      exact List.all_eq_true.mp htable c (List.mem_of_getElem? hc)

theorem isDigit_of_isDigitIn (h : isDigitIn radix c = true) (hradix : radix ≤ 10) :
    c.isDigit = true := by
  obtain ⟨hd, hwrites⟩ := writesDigit_of_isDigitIn h
  have hten : value c < 10 := Nat.lt_of_lt_of_le hd hradix
  have hsmall : ∀ d < 10, smallDigits[d]?.all Char.isDigit = true := by decide
  have hcapital : ∀ d < 10, capitalDigits[d]?.all Char.isDigit = true := by decide
  rcases hwrites with hc | hc
  · simpa [hc] using hsmall _ hten
  · simpa [hc] using hcapital _ hten

/-- Digits of a radix without letters are a run of digits and underscores. -/
theorem AreDigits.digitRun_eq (h : AreDigits radix cs) (hradix : radix ≤ 10) :
    digitRun cs = cs := by
  refine List.takeWhile_eq_self_iff.mpr fun c hc => ?_
  by_cases hbar : c = '_'
  · simp [hbar]
  · have hdigit := h.2 c (List.mem_filter.mpr ⟨hc, by simpa using hbar⟩)
    simp [isDigit_of_isDigitIn hdigit hradix]

theorem isInteger_of_whole {ds : List Char} (hcs : cs = c :: ds) (hc : c.isDigit = true)
    (hprefixed : ¬ Prefixed cs) (h : Whole 0 cs) : IsInteger (String.ofList cs) := by
  have hmore : Apart [] := fun _ hx => by cases hx
  have hscan := h.decimal_append hmore 0
  rw [List.append_nil] at hscan
  rw [IsInteger, String.toList_ofList, scan_eq_decimal hprefixed]
  exact ⟨by rw [hcs]; exact hc, hscan⟩

end Numeral

/-- A text that denotes a number is scanned to its end. -/
theorem Numeral.Denotes.isInteger {cs : List Char} {v : Nat} (h : Numeral.Denotes cs v) :
    IsInteger (String.ofList cs) := by
  cases h with
  | @lettered c radix v cs letter number =>
      obtain ⟨hdigits, -⟩ := writesNumber_iff.mp number
      obtain ⟨hcheck, hbody⟩ := hdigits.scans 0 2
      have hrun : cs.takeWhile Numeral.isBodyChar = cs := List.takeWhile_eq_self_iff.mpr hbody
      refine ⟨by rw [String.toList_ofList]; rfl, ?_⟩
      rw [String.toList_ofList]
      simp only [Numeral.scan, mem_radixLetters_iff.mp letter, hrun]
      rw [hcheck]
      rfl
  | @octal cs v number =>
      obtain ⟨hdigits, -⟩ := writesNumber_iff.mp number
      refine Numeral.isInteger_of_whole rfl rfl ?_ ⟨?_, ?_⟩
      · rintro ⟨c, ds, radix, heq, hradix⟩
        obtain rfl := (List.cons.inj heq).2
        have hc : c ≠ '_' := by
          rintro rfl
          cases hradix
        have hoctal := hdigits.2 c (by rw [Numbers.filter_bar_cons hc]; exact List.mem_cons_self)
        rw [Numeral.radixOf?_of_octal hoctal] at hradix
        cases hradix
      · have hrun := hdigits.digitRun_eq (by decide)
        show List.takeWhile _ _ = _
        rw [List.takeWhile_cons_of_pos rfl]
        exact congrArg _ hrun
      · rintro d ds heq
        obtain rfl := (List.cons.inj heq).2
        exact (hdigits.scans 0 1).1
  | @decimal c cs v nonzero front number =>
      obtain ⟨hdigits, -⟩ := writesNumber_iff.mp number
      have hc : c.isDigit = true := by
        have hten := hdigits.2 c (by rw [Numbers.filter_bar_cons front]; exact List.mem_cons_self)
        exact Numeral.isDigit_of_isDigitIn hten (Nat.le_refl 10)
      refine Numeral.isInteger_of_whole rfl hc ?_ ⟨hdigits.digitRun_eq (Nat.le_refl 10), ?_⟩
      · rintro ⟨r, ds, radix, heq, -⟩
        exact nonzero (List.cons.inj heq).1
      · intro d ds heq
        exact absurd (List.cons.inj heq).1 nonzero
  | zero => decide +kernel

namespace Lexer

variable {r : TokenKind × Cursor} {cur : Cursor}

/-- Whether a token is neither an integer nor a name. -/
def isSign : TokenKind → Bool
  | .int _ | .ident _ => false
  | _ => true

/-- That what is read is neither an integer nor a name. -/
def ReadsSign (x : Except Fault (TokenKind × Cursor)) : Prop := ∀ r, x = .ok r → isSign r.1 = true

theorem readsSign_ok (h : isSign r.1 = true) : ReadsSign (.ok r) := by
  intro r' heq
  rwa [← Except.ok.inj heq]

theorem readsSign_error (f : Fault) : ReadsSign (.error f) := by
  intro r heq
  cases heq

theorem readsSign_literal (l : Literal) (inside : Cursor) (kind : List Segment → TokenKind)
    (h : ∀ ss, isSign (kind ss) = true) :
    ReadsSign (l.body inside >>= fun r => .ok (kind r.1, r.2)) := by
  intro r heq
  obtain ⟨r', -, heq⟩ := bind_eq_ok heq
  exact readsSign_ok (h r'.1) r heq

theorem readsSign_instanceVariable (cur : Cursor) : ReadsSign (instanceVariable cur) := by
  unfold instanceVariable
  dsimp only
  split
  · split
    · exact readsSign_error _
    · split
      · exact readsSign_ok rfl
      · exact readsSign_error _
  · exact readsSign_error _

theorem readsSign_globalVariable (cur : Cursor) : ReadsSign (globalVariable cur) := by
  unfold globalVariable
  dsimp only
  split
  · exact readsSign_ok rfl
  · split
    · split
      · exact readsSign_ok rfl
      · exact readsSign_error _
    · exact readsSign_error _

theorem readsSign_colon (last : Option TokenKind) (spaced : Bool) (cur : Cursor) :
    ReadsSign (colon last spaced cur) := by
  unfold colon
  split
  · exact readsSign_ok rfl
  split
  · exact readsSign_ok rfl
  split
  · split
    · exact readsSign_literal _ _ .dsymbol fun _ => rfl
    split
    · exact readsSign_literal _ _ .dsymbol fun _ => rfl
    split
    · exact readsSign_ok rfl
    split <;> exact readsSign_ok rfl
  · exact readsSign_ok rfl

theorem readsSign_percentLiteral {x : Except Fault (TokenKind × Cursor)}
    (h : percentLiteral? cur = some x) : ReadsSign x := by
  unfold percentLiteral? at h
  split at h
  · cases h
  split at h
  · cases h
  obtain rfl := Option.some.inj h
  split
  · exact readsSign_literal _ _ .xstr fun _ => rfl
  · exact readsSign_literal _ _ .str fun _ => rfl
  · exact readsSign_literal _ _ .str fun _ => rfl
  · exact readsSign_literal _ _ (fun ss => .words (Text.words (segmentsText ss))) fun _ => rfl

theorem readsSign_operator (h : operator? cur = some r) : ReadsSign (.ok r) := by
  obtain ⟨o, ho, rfl⟩ := Option.map_eq_some_iff.mp h
  have htable : ∀ o ∈ operators, isSign o.2 = true := by simp [operators, isSign]
  exact readsSign_ok (htable o (List.mem_of_find?_eq_some ho))

/-- Integers are read where a digit stands, as they are scanned, and names as words. -/
theorem token_cases {last : Option TokenKind} {spaced : Bool} (h : token last spaced cur = .ok r) :
    isSign r.1 = true
    ∨ (∃ c cs w, c.isDigit = true ∧ Numeral.scan cur.offset (c :: cs) = .ok (r.1, w))
    ∨ word last cur = r := by
  unfold token at h
  cases hrest : cur.rest with
  | nil =>
      rw [hrest] at h
      exact .inl (readsSign_ok rfl r h)
  | cons c cs =>
      rw [hrest] at h
      dsimp only at h
      by_cases hdouble : (c == '\x22') = true
      · rw [if_pos hdouble] at h
        exact .inl (readsSign_literal _ _ .str (fun _ => rfl) r h)
      rw [if_neg hdouble] at h
      by_cases hsingle : (c == '\x27') = true
      · rw [if_pos hsingle] at h
        exact .inl (readsSign_literal _ _ .str (fun _ => rfl) r h)
      rw [if_neg hsingle] at h
      by_cases hback : (c == '\x60') = true
      · rw [if_pos hback] at h
        exact .inl (readsSign_literal _ _ .xstr (fun _ => rfl) r h)
      rw [if_neg hback] at h
      by_cases hdigit : c.isDigit = true
      · rw [if_pos hdigit] at h
        obtain ⟨⟨kind, w⟩, hscan, h⟩ := bind_eq_ok h
        obtain rfl := Except.ok.inj h
        exact .inr (.inl ⟨c, cs, w, hdigit, hscan⟩)
      rw [if_neg hdigit] at h
      by_cases hat : (c == '@') = true
      · rw [if_pos hat] at h
        exact .inl (readsSign_instanceVariable _ r h)
      rw [if_neg hat] at h
      by_cases hdollar : (c == '$') = true
      · rw [if_pos hdollar] at h
        exact .inl (readsSign_globalVariable _ r h)
      rw [if_neg hdollar] at h
      by_cases hcolon : (c == ':') = true
      · rw [if_pos hcolon] at h
        exact .inl (readsSign_colon _ _ _ r h)
      rw [if_neg hcolon] at h
      by_cases hlambda : (c == '-' && cs.head? == some '>') = true
      · rw [if_pos hlambda] at h
        cases h
      rw [if_neg hlambda] at h
      by_cases hname : isNameStart c = true
      · rw [if_pos hname] at h
        exact .inr (.inr (Except.ok.inj h))
      rw [if_neg hname] at h
      split at h
      · rename_i x hx
        split at hx
        · exact .inl (readsSign_percentLiteral hx r h)
        · cases hx
      split at h
      · rename_i r' hr
        exact .inl (readsSign_operator hr r h)
      · cases h

namespace Scan

/-- The integers among the tokens that the loop has read denote numbers. -/
theorem Turns.valued {marker : Bool} {s s' : Scan} (hturns : Turns marker s s')
    (h : ∀ t ∈ s.tokens, Numeral.Valued t.kind) : ∀ t ∈ s'.tokens, Numeral.Valued t.kind := by
  induction hturns with
  | refl => exact h
  | tail _ hturn ih =>
      obtain ⟨w, hmove⟩ := hturn.moves
      rcases hmove.tokens with hsame | ⟨kind, -, hkind, hnew⟩
      · exact hsame ▸ ih
      · rw [hnew]
        refine List.forall_mem_cons.mpr ⟨?_, ih⟩
        rintro t rfl
        rcases hkind with hkind | hkind
        · cases hkind
        · rcases token_cases hkind with hsign | ⟨c, cs, w, hc, hscan⟩ | hword
          · cases hsign
          · exact Numeral.denotes_of_scan hc hscan
          · obtain hw | ⟨hw, -⟩ | hw | ⟨k, hw⟩ := word_cases _ _ <;> cases hw.symm.trans hword

end Scan

end Lexer

/-- That the text of an integer among the tokens of a unit, or of a part of one, is `raw`. -/
def IsIntegerToken (raw : String) : Prop :=
  ∃ text l, (lex text = .ok l ∨ ∃ range, lexRange text range = .ok l)
    ∧ ∃ t ∈ l.written, t.kind = .int raw

/-- The texts of integers are those that denote a number. -/
theorem isIntegerToken_iff {raw : String} :
    IsIntegerToken raw ↔ ∃ v, Numeral.Denotes raw.toList v := by
  constructor
  · rintro ⟨text, l, hlex, t, ht, hkind⟩
    obtain ⟨marker, start, last, hstart, hturns, hwritten⟩ := turns_of_lexed hlex
    rw [hwritten, List.mem_reverse] at ht
    exact hturns.valued (by simp [hstart]) t ht raw hkind
  · rintro ⟨v, hv⟩
    have hraw := hv.isInteger
    rw [String.ofList_toList] at hraw
    have hspelled : Spelled raw [] raw := ⟨hraw, [], .nil, (List.append_nil _).symm⟩
    obtain ⟨l, hlex, hkinds, -⟩ := hspelled.lex_eq
    refine ⟨raw, l, .inl hlex, ?_⟩
    have hmem : TokenKind.int raw ∈ l.written.map Token.kind := by
      rw [hkinds]
      exact List.mem_cons_self
    simpa using hmem

/-- **Integers keep their value.** The texts of integers among the tokens are those that denote a
number, which is one number each. The output is the decimal numeral of that number, behind a minus
sign if the literal has one, as long as the number is below `2 ^ 128`; there is none for larger
ones, and for no other reason. -/
theorem integers_keep_value (raw : String) :
    (IsIntegerToken raw ↔ ∃! v, Numeral.Denotes raw.toList v)
    ∧ ∀ v, Numeral.Denotes raw.toList v →
      Numbers.integerText? raw = (if v < 2 ^ 128 then some (toString v) else none)
      ∧ Numbers.integerText? ("-" ++ raw) =
        (if v < 2 ^ 128 then some ("-" ++ toString v) else none) := by
  refine ⟨isIntegerToken_iff.trans ⟨?_, ExistsUnique.exists⟩, fun v hv =>
    ⟨hv.integerText?_eq, hv.integerText?_minus⟩⟩
  rintro ⟨v, hv⟩
  exact ⟨v, hv, fun w hw => hw.unique hv⟩

/-- The first number that is too large, and two that are not. -/
theorem integers_keep_value_limit :
    IsIntegerToken "0b1_01" ∧ Numbers.integerText? "0b1_01" = some "5"
    ∧ Numbers.integerText? "-0_17" = some "-15"
    ∧ Numbers.integerText? "0X100000000000000000000000000000000" = none := by
  have hbinary : Numeral.Denotes "0b1_01".toList 5 :=
    .lettered (show ('b', 2) ∈ radixLetters by decide)
      (writesNumber_iff.mpr ⟨⟨by decide +kernel, List.all_eq_true.mp rfl⟩, by decide +kernel⟩)
  have hoctal : Numeral.Denotes "0_17".toList 15 :=
    .octal (writesNumber_iff.mpr ⟨⟨by decide +kernel, List.all_eq_true.mp rfl⟩, by decide +kernel⟩)
  have hlimit : Numeral.Denotes "0X100000000000000000000000000000000".toList (2 ^ 128) :=
    .lettered (show ('X', 16) ∈ radixLetters by decide)
      (writesNumber_iff.mpr ⟨⟨by decide +kernel, List.all_eq_true.mp rfl⟩, by decide +kernel⟩)
  obtain ⟨htoken, htext⟩ := integers_keep_value "0b1_01"
  refine ⟨htoken.mpr ⟨5, hbinary, fun w hw => hw.unique hbinary⟩, (htext 5 hbinary).1, ?_, ?_⟩
  · exact ((integers_keep_value "0_17").2 15 hoctal).2
  · exact ((integers_keep_value "0X100000000000000000000000000000000").2 _ hlimit).1

end RubyJs
