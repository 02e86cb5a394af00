import Mathlib.Data.Nat.Digits.Defs
import RubyJs.Decimal.Numbers

set_option autoImplicit false

/-! # Integer literals

An integer literal is digits of a radix, which is written in front of them: by a letter after a zero, by
a zero alone, or not at all. The tokens of integers are such literals, so what decides whether an integer
can be written in the output is its magnitude alone.

    0x1f    0b1_01    017    19_000
-/

namespace RubyJs

namespace Numbers

variable {raw : String}

/-- The number that an integer literal means, without its sign. -/
def magnitude (raw : String) : Nat :=
  let literal := splitRadix (splitSign (cleaned raw)).2
  Nat.ofDigits literal.1 (literal.2.reverse.map fun d => (Numeral.digitValue? d).getD 0)

/-- Whether an integer literal without sign and underscores has digits, all of its radix. -/
def isNumeral (cs : List Char) : Bool :=
  let literal := splitRadix cs
  !literal.2.isEmpty && literal.2.all (Numeral.isDigitIn literal.1)

/-- Whether a literal is an integer, with or without a sign. -/
def isInteger (raw : String) : Bool := isNumeral (splitSign (cleaned raw)).2

theorem foldl_digits (radix : Nat) (value : Char → Nat) (ds : List Char) :
    ds.foldl (fun v d => radix * v + value d) 0 = Nat.ofDigits radix (ds.reverse.map value) := by
  rw [Nat.ofDigits_eq_foldr, List.foldr_map, List.foldr_reverse]
  simp only [Nat.cast_id, Nat.add_comm]

/-- The output of an integer is its sign and the decimal numeral of its magnitude, if that has 128
bits at most. -/
theorem integerText?_eq (h : isInteger raw = true) :
    integerText? raw = if magnitude raw < 2 ^ 128 then
      some ((if (splitSign (cleaned raw)).1 then "-" else "") ++ toString (magnitude raw)) else none := by
  rw [isInteger, isNumeral, Bool.and_eq_true, Bool.not_eq_true'] at h
  obtain ⟨hsome, hdigits⟩ := h
  have hvalue : valueIn? (splitRadix (splitSign (cleaned raw)).2).1
      (splitRadix (splitSign (cleaned raw)).2).2 = some (magnitude raw) := by
    rw [valueIn?, hsome, hdigits, magnitude, ← foldl_digits]
    rfl
  rw [integerText?]
  dsimp only
  rw [hvalue]
  rfl

/-- An integer has no output exactly if it has more than 128 bits. -/
theorem integerText?_eq_none_iff (h : isInteger raw = true) :
    integerText? raw = none ↔ 2 ^ 128 ≤ magnitude raw := by
  rw [integerText?_eq h]
  split
  · rename_i hlt
    simpa using hlt
  · rename_i hge
    simpa using hge

theorem filter_bar_cons {c : Char} (h : c ≠ '_') (cs : List Char) :
    (c :: cs).filter (· != '_') = c :: cs.filter (· != '_') := by
  rw [List.filter_cons, if_pos (by simpa using h)]

theorem cleaned_ofList (cs : List Char) : cleaned (String.ofList cs) = cs.filter (· != '_') := by
  rw [cleaned, String.toList_ofList]

/-- A literal without a sign does not begin with one. -/
theorem splitSign_of_isNumeral {cs : List Char} (h : isNumeral cs = true) :
    splitSign cs = (false, cs) := by
  unfold splitSign
  split
  · simp [isNumeral, splitRadix, Numeral.isDigitIn, Numeral.digitValue?] at h
  · rfl

theorem isInteger_of_isNumeral (h : isNumeral (cleaned raw) = true) : isInteger raw = true := by
  rw [isInteger, splitSign_of_isNumeral h]
  exact h

theorem cleaned_minus (raw : String) : cleaned ("-" ++ raw) = '-' :: cleaned raw := by
  rw [cleaned, String.toList_append, List.filter_append]
  rfl

theorem isInteger_minus (h : isNumeral (cleaned raw) = true) : isInteger ("-" ++ raw) = true := by
  rw [isInteger, cleaned_minus]
  exact h

end Numbers

namespace Numeral

variable {ds : List Char} {c : Char} {radix : Nat}

/-- That `ds` are digits of a radix, at least one, with underscores between them. -/
def AreDigits (radix : Nat) (ds : List Char) : Prop :=
  ds.filter (· != '_') ≠ [] ∧ ∀ c ∈ ds.filter (· != '_'), isDigitIn radix c = true

instance (radix : Nat) (ds : List Char) : Decidable (AreDigits radix ds) :=
  inferInstanceAs (Decidable (_ ∧ _))

theorem areDigits_of_checkDigits {start at_ : Nat} (h : checkDigits start at_ radix ds = .ok ()) :
    AreDigits radix ds := by
  unfold checkDigits at h
  split at h
  · cases h
  · rename_i hall
    split at h
    · cases h
    · rename_i hnone
      refine ⟨fun hempty => hall ?_, fun c hc => ?_⟩
      · rw [List.filter_eq_nil_iff] at hempty
        simpa using hempty
      · obtain ⟨hc, hne⟩ := List.mem_filter.mp hc
        have := List.findIdx?_eq_none_iff.mp hnone c hc
        simpa [hne] using this

theorem isDigitIn_ten (h : c.isDigit = true) : isDigitIn 10 c = true := by
  simp only [Char.isDigit, ge_iff_le, Bool.and_eq_true, decide_eq_true_eq] at h
  have hlo : '0' ≤ c := h.1
  have hhi : c ≤ '9' := h.2
  have hle : c.toNat ≤ '9'.toNat := hhi
  have hzero : '9'.toNat = '0'.toNat + 9 := rfl
  simp only [isDigitIn, digitValue?, hlo, hhi, decide_true, Bool.and_self, if_true,
    decide_eq_true_eq]
  omega

/-- The letter of a radix is no digit of a smaller one. -/
theorem radixOf?_of_octal (h : isDigitIn 8 c = true) : radixOf? c = none := by
  unfold radixOf?
  split
  all_goals first
    | rfl
    | exact absurd h (by decide)

theorem AreDigits.isNumeral {cs : List Char} (h : AreDigits radix ds)
    (hsplit : Numbers.splitRadix cs = (radix, ds.filter (· != '_'))) :
    Numbers.isNumeral cs = true := by
  rw [Numbers.isNumeral, hsplit, Bool.and_eq_true, Bool.not_eq_true', List.isEmpty_eq_false_iff]
  exact ⟨h.1, List.all_eq_true.mpr h.2⟩

/-- Digits behind the letter of their radix. -/
theorem splitRadix_lettered (ds : List Char) (hradix : radixOf? c = some radix) :
    Numbers.splitRadix (Numbers.cleaned (String.ofList ('0' :: c :: ds))) =
      (radix, ds.filter (· != '_')) := by
  have hc : c ≠ '_' := by
    rintro rfl
    cases hradix
  rw [Numbers.cleaned_ofList, Numbers.filter_bar_cons (by decide), Numbers.filter_bar_cons hc,
    Numbers.splitRadix, hradix]

/-- Octal digits behind a zero. -/
theorem splitRadix_octal (h : AreDigits 8 ds) :
    Numbers.splitRadix (Numbers.cleaned (String.ofList ('0' :: ds))) =
      (8, ds.filter (· != '_')) := by
  rw [Numbers.cleaned_ofList, Numbers.filter_bar_cons (by decide)]
  obtain ⟨hne, hdigits⟩ := h
  cases hfilter : ds.filter (· != '_') with
  | nil => exact absurd hfilter hne
  | cons d ds' =>
      have hd : isDigitIn 8 d = true := hdigits d (hfilter ▸ List.mem_cons_self)
      rw [Numbers.splitRadix, radixOf?_of_octal hd]

/-- Digits that do not begin with a zero. -/
theorem splitRadix_decimal (hne : c ≠ '_') (hzero : c ≠ '0') :
    Numbers.splitRadix (Numbers.cleaned (String.ofList (c :: ds))) =
      (10, (c :: ds).filter (· != '_')) := by
  rw [Numbers.cleaned_ofList, Numbers.filter_bar_cons hne]
  unfold Numbers.splitRadix
  split
  · rename_i heq
    exact absurd (List.cons.inj heq).1 hzero
  · rfl

theorem isNumeral_radix (hradix : radixOf? c = some radix) (h : AreDigits radix ds) :
    Numbers.isNumeral (Numbers.cleaned (String.ofList ('0' :: c :: ds))) = true :=
  h.isNumeral (splitRadix_lettered ds hradix)

theorem isNumeral_octal (h : AreDigits 8 ds) :
    Numbers.isNumeral (Numbers.cleaned (String.ofList ('0' :: ds))) = true :=
  h.isNumeral (splitRadix_octal h)

/-- That digits with underscores between them are digits of the radix ten. -/
theorem areDigits_ten (hc : c.isDigit = true) (hds : ∀ d ∈ ds, d.isDigit = true ∨ d = '_') :
    AreDigits 10 (c :: ds) := by
  have hne : c ≠ '_' := by
    rintro rfl
    cases hc
  rw [AreDigits, Numbers.filter_bar_cons hne]
  refine ⟨List.cons_ne_nil _ _, List.forall_mem_cons.mpr ⟨isDigitIn_ten hc, fun d hd => ?_⟩⟩
  obtain ⟨hd, hbar⟩ := List.mem_filter.mp hd
  exact isDigitIn_ten ((hds d hd).resolve_right (by simpa using hbar))

/-- Decimal digits that do not begin with a zero, or a zero alone. -/
theorem isNumeral_decimal (hc : c.isDigit = true) (hds : ∀ d ∈ ds, d.isDigit = true ∨ d = '_')
    (hzero : c = '0' → ds = []) :
    Numbers.isNumeral (Numbers.cleaned (String.ofList (c :: ds))) = true := by
  have hne : c ≠ '_' := by
    rintro rfl
    cases hc
  by_cases hc0 : c = '0'
  · rw [hzero hc0, hc0]
    rfl
  · exact (areDigits_ten hc hds).isNumeral (splitRadix_decimal hne hc0)

end Numeral

end RubyJs
