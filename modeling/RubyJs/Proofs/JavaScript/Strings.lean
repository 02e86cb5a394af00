import RubyJs.Proofs.Logic.Units

set_option autoImplicit false

/-! # The values of strings and the names of properties

A string of JavaScript is a sequence of code units of 16 bits; a character beyond them is a pair of
surrogates. Here is what a literal in double quotes stands for, as far as its escapes are among
those of the table `escapedUnit?` or give four hexadecimal digits, and which property a text behind
an object names.

    "a\n"         0x61 0x0A
    "\u2028"      0x2028
    .$map         $map
    ["$[]="]      $[]=

The literal for a text stands for the text again, so two texts never have one literal, and wherever
a script mentions a method, to call it, to send it or to define it, it is the same property.
-/

namespace RubyJs.JavaScript

open Script (stringLiteral methodAccess)

/-! ## Code units -/

/-- The code units of a character: one, or a pair of surrogates. -/
def charUnits (c : Char) : List Nat :=
  if c.toNat < 0x10000 then [c.toNat]
  else [0xD800 + (c.toNat - 0x10000) / 0x400, 0xDC00 + (c.toNat - 0x10000) % 0x400]

/-- The code units of a text. -/
def codeUnits (s : String) : List Nat := s.toList.flatMap charUnits

/-- The code units of a character tell where they end. -/
theorem charUnits_append_inj {c d : Char} {us vs : List Nat}
    (h : charUnits c ++ us = charUnits d ++ vs) : c = d ∧ us = vs := by
  have hc : c.toNat < 0xD800 ∨ 0xDFFF < c.toNat ∧ c.toNat < 0x110000 := c.valid
  have hd : d.toNat < 0xD800 ∨ 0xDFFF < d.toNat ∧ d.toNat < 0x110000 := d.valid
  unfold charUnits at h
  split at h <;> split at h
  all_goals
    simp only [List.cons_append, List.nil_append, List.cons.injEq] at h
  · exact ⟨Char.toNat_inj.mp h.1, h.2⟩
  -- No character is a surrogate itself.
  · omega
  · omega
  · exact ⟨Char.toNat_inj.mp (by omega), h.2.2⟩

theorem charUnits_ne_nil (c : Char) : charUnits c ≠ [] := by
  unfold charUnits
  split <;> exact List.cons_ne_nil _ _

theorem codeUnits_injective : Function.Injective codeUnits := by
  intro s t h
  rw [← String.toList_inj]
  unfold codeUnits at h
  generalize s.toList = cs, t.toList = ds at h
  induction cs generalizing ds with
  | nil =>
      cases ds with
      | nil => rfl
      | cons d ds =>
          rw [List.flatMap_nil, List.flatMap_cons] at h
          exact absurd (List.append_eq_nil_iff.mp h.symm).1 (charUnits_ne_nil d)
  | cons c cs ih =>
      cases ds with
      | nil =>
          rw [List.flatMap_nil, List.flatMap_cons] at h
          exact absurd (List.append_eq_nil_iff.mp h).1 (charUnits_ne_nil c)
      | cons d ds =>
          obtain ⟨rfl, hrest⟩ := charUnits_append_inj h
          rw [ih ds hrest]

/-! ## The value of a literal -/

/-- The code unit that a character behind a backslash stands for. -/
def escapedUnit? : Char → Option Nat
  | '\x22' => some 0x22
  | '\\' => some 0x5C
  | 'n' => some 0x0A
  | 'r' => some 0x0D
  | 't' => some 0x09
  | 'b' => some 0x08
  | 'f' => some 0x0C
  | _ => none

/-- The code unit that four hexadecimal digits stand for. -/
def hexUnit? (a b c d : Char) : Option Nat := do
  let a ← Numeral.digitValue? a
  let b ← Numeral.digitValue? b
  let c ← Numeral.digitValue? c
  let d ← Numeral.digitValue? d
  return 4096 * a + 256 * b + 16 * c + d

/-- The code units of a literal whose opening quote is taken. The next quote that no backslash
stands before has to be its end, and no line ends inside. -/
def bodyUnits? : List Char → Option (List Nat)
  | [] => none
  | ['\x22'] => some []
  | '\\' :: 'u' :: a :: b :: c :: d :: rest =>
    (hexUnit? a b c d).bind fun u => (bodyUnits? rest).map (u :: ·)
  | '\\' :: e :: rest => (escapedUnit? e).bind fun u => (bodyUnits? rest).map (u :: ·)
  | c :: rest =>
    if c == '\x22' || c == '\\' || isLineEnd c then none
    else (bodyUnits? rest).map (charUnits c ++ ·)

/-- The code units that a literal in double quotes stands for, if the text is one. -/
def stringValue? (text : String) : Option (List Nat) :=
  match text.toList with
  | '\x22' :: rest => bodyUnits? rest
  | _ => none

/-- Whether a character is no control character and ends no line. -/
def isPrintable (c : Char) : Bool := 0x20 ≤ c.toNat && c != '\u2028' && c != '\u2029'

/-- Whether the quotes and backslashes in a text all belong to escapes. -/
def isEscaped : List Char → Bool
  | [] => true
  | '\\' :: _ :: rest => isEscaped rest
  | c :: rest => c != '\x22' && c != '\\' && isEscaped rest

/-- That a text is a literal in double quotes: inside there is no quote without a backslash, no
control character and no line end. -/
def WellQuoted (text : String) : Prop :=
  ∃ body, text.toList = '\x22' :: (body ++ ['\x22']) ∧ isEscaped body = true
    ∧ ∀ c ∈ body, isPrintable c = true

/-! ## Escapes -/

theorem isLineEnd_of_isPrintable {c : Char} (h : isPrintable c = true) : isLineEnd c = false := by
  simp only [isPrintable, Bool.and_eq_true, decide_eq_true_eq, bne_iff_ne, ← Char.toNat_inj.ne] at h
  obtain ⟨⟨hcontrol, hline⟩, hparagraph⟩ := h
  have hline : c.toNat ≠ 0x2028 := hline
  have hparagraph : c.toNat ≠ 0x2029 := hparagraph
  simp only [isLineEnd, List.contains_eq_mem, List.mem_cons, List.not_mem_nil, or_false,
    decide_eq_false_iff_not, not_or]
  omega

theorem isPrintable_digitChar (n : Nat) : isPrintable (Nat.digitChar (n % 16)) = true
    ∧ Nat.digitChar (n % 16) ≠ '\x22' ∧ Nat.digitChar (n % 16) ≠ '\\' := by
  have hdigit : ∀ d < 16, isPrintable (Nat.digitChar d) = true
      ∧ Nat.digitChar d ≠ '\x22' ∧ Nat.digitChar d ≠ '\\' := by decide
  exact hdigit _ (Nat.mod_lt _ (by decide))

/-- The ways to write a character: an escape of its own, its number, or as it is. -/
theorem escape_cases (c : Char) :
    (∃ e, Script.escape c = ['\\', e] ∧ escapedUnit? e = some c.toNat ∧ isPrintable e = true
      ∧ e ≠ 'u' ∧ c.toNat < 0x10000)
    ∨ (Script.escape c = '\\' :: 'u' :: Script.escape.hexDigits4 c.toNat ∧ c.toNat < 0x10000)
    ∨ (Script.escape c = [c] ∧ c ≠ '\x22' ∧ c ≠ '\\' ∧ isPrintable c = true) := by
  by_cases hown : c ∈ ['\x22', '\\', '\n', '\r', '\t', '\x08', '\x0c']
  · left
    simp only [List.mem_cons, List.not_mem_nil, or_false] at hown
    rcases hown with rfl | rfl | rfl | rfl | rfl | rfl | rfl
    all_goals exact ⟨_, rfl, rfl, by decide, by decide, by decide⟩
  · simp only [List.mem_cons, List.not_mem_nil, or_false, not_or] at hown
    obtain ⟨hquote, hslash, hlf, hcr, htab, hback, hfeed⟩ := hown
    right
    simp only [Script.escape, beq_iff_eq, hquote, hslash, hlf, hcr, htab, hback, hfeed, if_false]
    split
    · rename_i hnumber
      refine .inl ⟨rfl, ?_⟩
      simp only [Bool.or_eq_true, decide_eq_true_eq, beq_iff_eq] at hnumber
      rcases hnumber with (hlow | rfl) | rfl
      · omega
      · decide
      · decide
    · rename_i hplain
      refine .inr ⟨rfl, hquote, hslash, ?_⟩
      simpa [isPrintable, and_assoc] using hplain

theorem hexUnit?_hexDigits4 {n : Nat} (h : n < 0x10000) :
    hexUnit? (Nat.digitChar (n / 4096 % 16)) (Nat.digitChar (n / 256 % 16))
      (Nat.digitChar (n / 16 % 16)) (Nat.digitChar (n % 16)) = some n := by
  have hdigit : ∀ d < 16, Numeral.digitValue? (Nat.digitChar d) = some d := by decide
  have hvalue : ∀ m, Numeral.digitValue? (Nat.digitChar (m % 16)) = some (m % 16) :=
    fun m => hdigit _ (Nat.mod_lt _ (by decide))
  simp only [hexUnit?, hvalue, bind_pure_comp, Option.bind_eq_bind, Option.bind_some,
    Option.map_eq_map, Option.map_some, Option.some.injEq]
  omega

/-- However a character is written, it stands for its code units. -/
theorem bodyUnits?_escape (c : Char) (rest : List Char) :
    bodyUnits? (Script.escape c ++ rest) = (bodyUnits? rest).map (charUnits c ++ ·) := by
  rcases escape_cases c with ⟨e, hescape, hunit, -, hu, hsmall⟩ | ⟨hescape, hsmall⟩
    | ⟨hescape, hquote, hslash, hprint⟩
  · rw [hescape, charUnits, if_pos hsmall, List.cons_append, List.cons_append, List.nil_append]
    simp [bodyUnits?, hu, hunit]
  · have hdigits := hexUnit?_hexDigits4 hsmall
    rw [hescape, charUnits, if_pos hsmall]
    simp [Script.escape.hexDigits4, bodyUnits?, hdigits]
  · rw [hescape]
    simp [bodyUnits?, hquote, hslash, isLineEnd_of_isPrintable hprint]

theorem isEscaped_escape (c : Char) (rest : List Char) :
    isEscaped (Script.escape c ++ rest) = isEscaped rest := by
  rcases escape_cases c with ⟨e, hescape, -⟩ | ⟨hescape, -⟩ | ⟨hescape, hquote, hslash, -⟩
  · rw [hescape]
    rfl
  · rw [hescape]
    have hplain : ∀ n rest, isEscaped (Nat.digitChar (n % 16) :: rest) = isEscaped rest := by
      intro n rest
      simp [isEscaped, isPrintable_digitChar n]
    simp only [Script.escape.hexDigits4, List.cons_append, List.nil_append, isEscaped, hplain]
  · rw [hescape]
    simp [isEscaped, hquote, hslash]

theorem isPrintable_of_mem_escape {c d : Char} (h : d ∈ Script.escape c) :
    isPrintable d = true := by
  rcases escape_cases c with ⟨e, hescape, -, hprint, -⟩ | ⟨hescape, -⟩ | ⟨hescape, -, -, hprint⟩
  · rw [hescape] at h
    simp only [List.mem_cons, List.not_mem_nil, or_false] at h
    rcases h with rfl | rfl
    · decide
    · exact hprint
  · rw [hescape] at h
    simp only [Script.escape.hexDigits4, List.mem_cons, List.not_mem_nil, or_false] at h
    rcases h with rfl | rfl | rfl | rfl | rfl | rfl
    · decide
    · decide
    all_goals exact (isPrintable_digitChar _).1
  · rw [hescape, List.mem_singleton] at h
    exact h ▸ hprint

/-! ## Literals -/

theorem toList_stringLiteral (s : String) :
    (stringLiteral s).toList = '\x22' :: (s.toList.flatMap Script.escape ++ ['\x22']) :=
  String.toList_ofList

/-- The literal for a text stands for its code units. -/
theorem stringValue?_stringLiteral (s : String) :
    stringValue? (stringLiteral s) = some (codeUnits s) := by
  have hbody : ∀ cs : List Char, bodyUnits? (cs.flatMap Script.escape ++ ['\x22']) =
      some (cs.flatMap charUnits) := by
    intro cs
    induction cs with
    | nil => rfl
    | cons c cs ih => rw [List.flatMap_cons, List.append_assoc, bodyUnits?_escape, ih]; rfl
  rw [stringValue?, toList_stringLiteral]
  exact hbody s.toList

theorem wellQuoted_stringLiteral (s : String) : WellQuoted (stringLiteral s) := by
  refine ⟨s.toList.flatMap Script.escape, toList_stringLiteral s, ?_, fun d hd => ?_⟩
  · induction s.toList with
    | nil => rfl
    | cons c cs ih => rw [List.flatMap_cons, isEscaped_escape, ih]
  · obtain ⟨c, -, hmem⟩ := List.mem_flatMap.mp hd
    exact isPrintable_of_mem_escape hmem

theorem stringLiteral_injective : Function.Injective stringLiteral := by
  intro s t h
  refine codeUnits_injective (Option.some.inj ?_)
  rw [← stringValue?_stringLiteral s, ← stringValue?_stringLiteral t, h]

/-! ## Properties -/

/-- The property that a text behind an object names: a name behind a dot, or a string in
brackets. -/
def property? (L : Letters) (access : String) : Option (List Nat) :=
  match access.toList with
  | '.' :: name =>
    if L.isName (String.ofList name) then some (codeUnits (String.ofList name)) else none
  | '[' :: rest =>
    if rest.getLast? = some ']' then stringValue? (String.ofList rest.dropLast) else none
  | _ => none

/-- However a method is read from its receiver, it is the property with a dollar before its name. -/
theorem property?_methodAccess (L : Letters) (name : String) :
    property? L (methodAccess name) = some (codeUnits ("$" ++ name)) := by
  by_cases hplain : Script.isIdentifier (Script.methodProperty name) = true
  · have haccess : (methodAccess name).toList = '.' :: (Script.methodProperty name).toList := by
      simp [methodAccess, hplain]
    simp only [property?, haccess]
    rw [String.ofList_toList, if_pos (isName_ascii hplain)]
    rfl
  · have haccess : (methodAccess name).toList =
        '[' :: ((stringLiteral (Script.methodProperty name)).toList ++ [']']) := by
      simp [methodAccess, hplain]
    simp only [property?, haccess]
    rw [List.getLast?_concat, if_pos rfl, List.dropLast_concat, String.ofList_toList,
      stringValue?_stringLiteral]
    rfl

/-- That a text calls the method `name` of the object with the text `recv`. -/
def CallsMethod (L : Letters) (recv name text : String) : Prop :=
  ∃ access args, text = recv ++ access ++ "(" ++ args ++ ")"
    ∧ property? L access = some (codeUnits ("$" ++ name))

/-- That a text hands the method `name` of an object to a function of the runtime, as a string. -/
def HandsMethod (function object name text : String) : Prop :=
  ∃ key rest, text = "Opal." ++ function ++ "(" ++ object ++ ", " ++ key ++ ", " ++ rest ++ ")"
    ∧ stringValue? key = some (codeUnits ("$" ++ name))

theorem handsMethod_runtime (function name : String) (object next : Script.Term)
    (rest : List Script.Term) (indent : Nat) :
    HandsMethod function (object.text indent) name <|
      (Script.Term.runtime function (object :: .methodName name :: next :: rest)).text indent := by
  refine ⟨stringLiteral ("$" ++ name), Script.commas (Script.termTexts indent (next :: rest)), ?_,
    stringValue?_stringLiteral _⟩
  rw [show "Opal." = "Opal" ++ "." from rfl]
  simp only [Script.Term.runtime, Script.Term.opal, Script.Term.own, Script.Term.methodName,
    Script.Term.text, Script.Name.text, Script.commas, Script.termTexts,
    String.intercalate_cons_cons, String.append_assoc]

/-- A call reads the property, or hands it to the runtime. -/
theorem send_denotes (L : Letters) {recv t : Script.Term} {name : String} {args : List Emission}
    {block : Option Script.Term} {s s' : GenState}
    (h : Emission.send recv name args block s = .ok (t, s')) (indent : Nat) :
    CallsMethod L (recv.text indent) name (t.text indent)
      ∨ HandsMethod "send" (recv.text indent) name (t.text indent) := by
  unfold Emission.send at h
  split at h
  · obtain ⟨list, u, -, h⟩ := run_bind_eq_ok h
    obtain ⟨rfl, -⟩ := run_ok_inj h
    exact .inr (handsMethod_runtime _ _ _ _ _ _)
  · obtain ⟨vs, u, -, h⟩ := run_bind_eq_ok h
    obtain ⟨rfl, -⟩ := run_ok_inj h
    refine .inl ⟨methodAccess name, Script.commas (Script.termTexts indent vs), ?_,
      property?_methodAccess L name⟩
    simp only [Script.Term.text]

/-- A definition hands the property to the runtime. -/
theorem define_denotes {singleton : Option Emission} {name : String} {params : Params Emission}
    {main : List Emission} {t : Script.Term} {s s' : GenState}
    (h : (Emission.define singleton name params main).value s = .ok (t, s')) (indent : Nat) :
    ∃ function object, (function = "defn" ∨ function = "defs")
      ∧ HandsMethod function object name (t.text indent) := by
  cases singleton with
  | none =>
      obtain ⟨f, u, -, h⟩ := run_bind_eq_ok h
      obtain ⟨rfl, -⟩ := run_ok_inj h
      exact ⟨_, _, .inl rfl, handsMethod_runtime _ _ _ _ _ indent⟩
  | some e =>
      obtain ⟨target, u, -, h⟩ := run_bind_eq_ok h
      obtain ⟨f, v, -, h⟩ := run_bind_eq_ok h
      obtain ⟨rfl, -⟩ := run_ok_inj h
      exact ⟨_, _, .inr rfl, handsMethod_runtime _ _ _ _ _ indent⟩

/-- **Strings decode to the text they were written for, and a method is one property everywhere.**
The literal for a text is well formed and stands for the text's code units, which determine the
text, so no two texts have one literal. The method `name` is the property `$name`, whether it is
read from its receiver by a dot or in brackets, sent, or defined. -/
theorem strings_decode (L : Letters) :
    (∀ s, WellQuoted (stringLiteral s) ∧ stringValue? (stringLiteral s) = some (codeUnits s))
    ∧ Function.Injective codeUnits ∧ Function.Injective stringLiteral
    ∧ ∀ name, property? L (methodAccess name) = some (codeUnits ("$" ++ name))
      ∧ (∀ recv args block s t s' indent, Emission.send recv name args block s = .ok (t, s') →
          CallsMethod L (recv.text indent) name (t.text indent)
            ∨ HandsMethod "send" (recv.text indent) name (t.text indent))
      ∧ ∀ singleton params main s t s' indent,
          (Emission.define singleton name params main).value s = .ok (t, s') →
          ∃ function object, (function = "defn" ∨ function = "defs")
            ∧ HandsMethod function object name (t.text indent) := by
  refine ⟨fun s => ⟨wellQuoted_stringLiteral s, stringValue?_stringLiteral s⟩, codeUnits_injective,
    stringLiteral_injective, fun name => ⟨property?_methodAccess L name, ?_, ?_⟩⟩
  · intro recv args block s t s' indent h
    exact send_denotes L h indent
  · intro singleton params main s t s' indent h
    exact define_denotes h indent

/-- A text with a quote, a pair of surrogates and a line separator, and a method that is no name: it
is defined, and called with a block. -/
theorem strings_decode_pair :
    stringValue? "\x22\\\x22😀\\u2028\x22" = some [0x22, 0xD83D, 0xDE00, 0x2028]
    ∧ property? Logic.asciiLetters "[\x22$[]=\x22]" = some (codeUnits "$[]=")
    ∧ (∃ t s', Emission.send .self "[]=" [] (some .nil) ⟨{ kind := .top }, [], []⟩ = .ok (t, s')
      ∧ (CallsMethod Logic.asciiLetters "self" "[]=" (t.text 0)
        ∨ HandsMethod "send" "self" "[]=" (t.text 0)))
    ∧ ∃ t s', (Emission.define none "[]=" {} []).value ⟨{ kind := .top }, [], []⟩ = .ok (t, s')
      ∧ ∃ function object, (function = "defn" ∨ function = "defs")
        ∧ HandsMethod function object "[]=" (t.text 0) := by
  obtain ⟨hstring, -, -, hmethod⟩ := strings_decode Logic.asciiLetters
  obtain ⟨hproperty, hsend, hdefine⟩ := hmethod "[]="
  refine ⟨(hstring "\x22😀\u2028").2, hproperty, ⟨_, _, rfl, ?_⟩, ⟨_, _, rfl, ?_⟩⟩
  · exact hsend .self [] (some .nil) ⟨{ kind := .top }, [], []⟩ _ _ 0 rfl
  · exact hdefine none {} [] ⟨{ kind := .top }, [], []⟩ _ _ 0 rfl

end RubyJs.JavaScript
