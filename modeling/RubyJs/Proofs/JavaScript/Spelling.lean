import RubyJs.Proofs.JavaScript.Reader

set_option autoImplicit false

/-! # Texts and their tokens

The tokens of a text put together are the tokens of its parts, as long as no word runs into the next
one. A text that ends in a word needs something else after it (`Spells`). A mark, and what ends in
one, can stand before anything (`Lexes`), and a mark can stand after anything too (`Mark`):

    Spells "Opal"    Mark "."    Spells "truthy"    Mark "("
-/

namespace RubyJs.JavaScript

variable {L : Letters}
variable {text : String} {c : Char}

/-! ## Characters -/

theorem isWord_ascii (h : c.toNat < 128) : L.isWord c = Script.isIdentRest c := by
  have hpart : L.part c = false := by
    cases hp : L.part c with
    | false => rfl
    | true => exact absurd (L.beyond c hp) (by omega)
  rw [Letters.isWord, hpart, Bool.or_false]

theorem isWord_of_isStart (h : L.isStart c = true) : L.isWord c = true := by
  rw [Letters.isStart, Bool.or_eq_true] at h
  rw [Letters.isWord, Bool.or_eq_true]
  rcases h with h | h
  · left
    unfold Script.isIdentStart at h
    unfold Script.isIdentRest Char.isAlphanum
    simp only [Bool.or_eq_true] at h ⊢
    rcases h with (h | h) | h
    · exact Or.inl (Or.inl (Or.inl h))
    · exact Or.inl (Or.inr h)
    · exact Or.inr h
  · exact Or.inr (L.part_of_start c h)

/-- The characters of a name are those of a word. -/
theorem isWord_of_isName {w : String} (h : L.isName w = true) :
    w.toList ≠ [] ∧ ∀ c ∈ w.toList, L.isWord c = true := by
  unfold Letters.isName at h
  split at h
  · exact absurd h Bool.false_ne_true
  · rename_i c cs hw
    rw [Bool.and_eq_true, List.all_eq_true] at h
    rw [hw]
    refine ⟨List.cons_ne_nil _ _, fun d hd => ?_⟩
    rcases List.mem_cons.mp hd with rfl | hd
    · exact isWord_of_isStart h.1
    · exact h.2 d hd

/-! ## Parts of texts -/

/-- That a text has these tokens, whatever follows. -/
def Lexes (L : Letters) (text : String) (us : List Token) : Prop :=
  ∀ rest, lex L .code (text.toList ++ rest) = us ++ lex L .code rest

/-- That a text has these tokens, unless a word goes on after it. -/
def Spells (L : Letters) (text : String) (us : List Token) : Prop :=
  ∀ rest, L.startsWord rest = false → lex L .code (text.toList ++ rest) = us ++ lex L .code rest

/-- That a text has these tokens, and begins with no word. -/
structure Mark (L : Letters) (text : String) (us : List Token) : Prop where
  lexes : Lexes L text us
  apart : ∀ rest, L.startsWord (text.toList ++ rest) = false

namespace Lexes

variable {a b : String} {us vs : List Token}

theorem empty : Lexes L "" [] := fun _ => rfl

theorem append (ha : Lexes L a us) (hb : Lexes L b vs) : Lexes L (a ++ b) (us ++ vs) := by
  intro rest
  rw [String.toList_append, List.append_assoc, ha, hb, List.append_assoc]

theorem spells (ha : Lexes L a us) (hb : Spells L b vs) : Spells L (a ++ b) (us ++ vs) := by
  intro rest hrest
  rw [String.toList_append, List.append_assoc, ha, hb rest hrest, List.append_assoc]

end Lexes

namespace Spells

variable {a b : String} {us vs : List Token}

/-- A mark can follow. -/
theorem mark (ha : Spells L a us) (hb : Mark L b vs) : Lexes L (a ++ b) (us ++ vs) := by
  intro rest
  rw [String.toList_append, List.append_assoc, ha _ (hb.apart rest), hb.lexes, List.append_assoc]

end Spells

theorem Mark.append {a b : String} {us vs : List Token} (ha : Mark L a us) (hb : Lexes L b vs) :
    Mark L (a ++ b) (us ++ vs) where
  lexes := ha.lexes.append hb
  apart rest := by
    rw [String.toList_append, List.append_assoc]
    exact ha.apart _

theorem Lexes.toSpells {a : String} {us : List Token} (ha : Lexes L a us) : Spells L a us :=
  fun rest _ => ha rest

/-! ## Words -/

theorem lex_word {w rest : List Char} (hne : w ≠ []) (hw : ∀ c ∈ w, L.isWord c = true)
    (hrest : L.startsWord rest = false) :
    lex L .code (w ++ rest) = .word (String.ofList w) :: lex L .code rest := by
  induction w with
  | nil => exact absurd rfl hne
  | cons c w ih =>
      have hc := hw c List.mem_cons_self
      rw [List.cons_append, lex, if_pos hc]
      by_cases hnil : w = []
      · -- The last character of the word: nothing goes on after it.
        rw [hnil, List.nil_append, hrest]
        rfl
      · have hstarts : L.startsWord (w ++ rest) = true := by
          cases w with
          | nil => exact absurd rfl hnil
          | cons d w => exact hw d (by simp)
        rw [hstarts, ih hnil fun d hd => hw d (List.mem_cons_of_mem _ hd)]
        simp [joinWord]

theorem spells_word {w : String} (h : L.isName w = true) : Spells L w [.word w] := by
  intro rest hrest
  obtain ⟨hne, hw⟩ := isWord_of_isName h
  rw [lex_word hne hw hrest, String.ofList_toList]
  rfl

/-! ## Marks -/

/-- That a character is of ASCII, and no part of a word. -/
def isPunctuation (c : Char) : Bool := decide (c.toNat < 128) && !Script.isIdentRest c

theorem not_isWord (h : isPunctuation c = true) : L.isWord c = false := by
  rw [isPunctuation, Bool.and_eq_true, decide_eq_true_eq, Bool.not_eq_true'] at h
  rw [isWord_ascii h.1, h.2]

/-- What begins with such a character begins with no word. -/
theorem Lexes.toMark {us : List Token} (h : Lexes L text us)
    (hfirst : text.toList.head?.any isPunctuation = true) : Mark L text us where
  lexes := h
  apart rest := by
    cases htext : text.toList with
    | nil => simp [htext] at hfirst
    | cons c cs =>
        rw [htext] at hfirst
        exact not_isWord hfirst

theorem lexes_char (htext : text.toList = [c]) {us : List Token}
    (h : ∀ cs, lex L .code (c :: cs) = us ++ lex L .code cs) : Lexes L text us := by
  intro rest
  rw [htext]
  exact h rest

theorem mark_blank : Mark L " " [] := by
  refine (lexes_char (c := ' ') rfl fun cs => ?_).toMark rfl
  rw [lex, if_neg (by rw [not_isWord rfl]; simp), if_pos (by decide)]
  rfl

theorem mark_line : Mark L "\n" [.line] := by
  refine (lexes_char (c := '\n') rfl fun cs => ?_).toMark rfl
  rw [lex, if_neg (by rw [not_isWord rfl]; simp), if_neg (by decide), if_pos (by decide)]
  rfl

/-- A character that is a mark for itself. -/
theorem mark_of_mark? (htext : text.toList = [c]) {t : Token} (hmark : mark? c = some t)
    (h : isPunctuation c && !isBlank c && !isLineEnd c && c != '\x22' && (doubled? c).isNone) :
    Mark L text [t] := by
  simp only [Bool.and_eq_true, Bool.not_eq_true', bne_iff_ne, Option.isNone_iff_eq_none] at h
  obtain ⟨⟨⟨⟨hp, hblank⟩, hline⟩, hquote⟩, hdouble⟩ := h
  refine (lexes_char htext fun cs => ?_).toMark (by simp [htext, hp])
  rw [lex, if_neg (by rw [not_isWord hp]; simp), if_neg (by simp [hblank]),
    if_neg (by simp [hline]), if_neg (by simpa using hquote), if_neg (by simp [hdouble]), hmark]
  rfl

/-- An operator of two characters. -/
theorem mark_of_doubled? (htext : text.toList = [c, c]) {t : Token} (hmark : doubled? c = some t)
    (h : isPunctuation c && !isBlank c && !isLineEnd c && c != '\x22') : Mark L text [t] := by
  simp only [Bool.and_eq_true, Bool.not_eq_true', bne_iff_ne] at h
  obtain ⟨⟨⟨hp, hblank⟩, hline⟩, hquote⟩ := h
  have hlexes : Lexes L text [t] := by
    intro rest
    rw [htext, List.cons_append, lex, if_neg (by rw [not_isWord hp]; simp),
      if_neg (by simp [hblank]), if_neg (by simp [hline]), if_neg (by simpa using hquote),
      if_pos (by simp [hmark]), hmark, List.cons_append, lex]
    rfl
  exact hlexes.toMark (by simp [htext, hp])

theorem mark_lparen : Mark L "(" [.lparen] := mark_of_mark? rfl rfl rfl
theorem mark_rparen : Mark L ")" [.rparen] := mark_of_mark? rfl rfl rfl
theorem mark_lbrace : Mark L "\x7b" [.lbrace] := mark_of_mark? rfl rfl rfl
theorem mark_rbrace : Mark L "\x7d" [.rbrace] := mark_of_mark? rfl rfl rfl
theorem mark_semi : Mark L ";" [.semi] := mark_of_mark? rfl rfl rfl
theorem mark_dot : Mark L "." [.dot] := mark_of_mark? rfl rfl rfl
theorem mark_bang : Mark L "!" [.bang] := mark_of_mark? rfl rfl rfl
theorem mark_and : Mark L "&&" [.andAnd] := mark_of_doubled? rfl rfl rfl
theorem mark_or : Mark L "||" [.orOr] := mark_of_doubled? rfl rfl rfl

/-- A mark with blanks around it. -/
theorem Mark.spaced {m : String} {t : Token} (h : Mark L m [t]) : Mark L (" " ++ m ++ " ") [t] :=
  (mark_blank.append h.lexes).append mark_blank.lexes

theorem mark_question : Mark L " ? " [.question] :=
  Mark.spaced (m := "?") (mark_of_mark? rfl rfl rfl)

theorem mark_colon : Mark L " : " [.colon] := Mark.spaced (m := ":") (mark_of_mark? rfl rfl rfl)
theorem mark_assign : Mark L " = " [.assign] := Mark.spaced (m := "=") (mark_of_mark? rfl rfl rfl)

theorem mark_comma : Mark L ", " [.comma] :=
  Mark.append (a := ",") (mark_of_mark? rfl rfl rfl) mark_blank.lexes

/-! ## Strings -/

/-- Whether a character stands for itself in a string. -/
def isPlain (c : Char) : Bool := c != '\x22' && c != '\n' && c != '\r' && c != '\\'

theorem lex_plain (h : isPlain c = true) (rest : List Char) :
    lex L .string (c :: rest) = lex L .string rest := by
  simp only [isPlain, Bool.and_eq_true, bne_iff_ne] at h
  obtain ⟨⟨⟨hquote, hlf⟩, hcr⟩, hslash⟩ := h
  rw [lex, if_neg (by simpa using hquote), if_neg (by simp [hlf, hcr]),
    if_neg (by simpa using hslash)]

theorem lex_backslash (c : Char) (rest : List Char) :
    lex L .string ('\\' :: c :: rest) = lex L .string rest := by
  rw [lex, if_neg (by decide), if_neg (by decide), if_pos (by decide), lex]

theorem isPlain_digitChar (n : Nat) : isPlain (Nat.digitChar (n % 16)) = true := by
  have hdigit : ∀ d < 16, isPlain (Nat.digitChar d) = true := by decide
  exact hdigit _ (Nat.mod_lt _ (by decide))

/-- However a character is written in a string, the string goes on after it. -/
theorem lex_escape (c : Char) (rest : List Char) :
    lex L .string (Script.escape c ++ rest) = lex L .string rest := by
  unfold Script.escape
  iterate 7
    split
    · exact lex_backslash _ _
  split
  · simp only [Script.escape.hexDigits4, List.cons_append, List.nil_append]
    rw [lex_backslash, lex_plain (isPlain_digitChar _), lex_plain (isPlain_digitChar _),
      lex_plain (isPlain_digitChar _), lex_plain (isPlain_digitChar _)]
  · rename_i hquote hslash hlf hcr _ _ _ _
    refine lex_plain ?_ rest
    simp only [beq_iff_eq] at hquote hslash hlf hcr
    simp [isPlain, hquote, hslash, hlf, hcr]

theorem lexes_string (text : String) : Lexes L (Script.stringLiteral text) [.str] := by
  intro rest
  have hbody : ∀ cs : List Char, lex L .string (cs.flatMap Script.escape ++ '\x22' :: rest) =
      .str :: lex L .code rest := by
    intro cs
    induction cs with
    | nil => rfl
    | cons c cs ih => rw [List.flatMap_cons, List.append_assoc, lex_escape, ih]
  rw [Script.stringLiteral, String.toList_ofList, List.cons_append, List.append_assoc, lex,
    if_neg (by rw [not_isWord rfl]; simp), if_neg (by decide), if_neg (by decide),
    if_pos (by decide)]
  exact hbody text.toList

end RubyJs.JavaScript
