import RubyJs.Proofs.Logic.Environments
import RubyJs.Proofs.Syntax.Words
import RubyJs.Proofs.Token.IntegerValues
import RubyJs.Syntax.Grammar.Rules

set_option autoImplicit false

/-! # The names of local variables

A name is made of word characters, so it has no dollar, and it is no reserved word unless a dot
stands before it. So what the compiler makes of it (`localName`) tells it from every other name, from
the words of JavaScript and from the names that the compiler brings in itself:

    default    default$        x    x        self, nil, def, Opal, $t1    never
-/

namespace RubyJs

open Script (localName reserved)
open Grammar (isLocalName)

namespace Lexer

variable {x : String}

/-- That the token `t` is no reserved word if it is a name and no dot stands before it. The tokens
before it are `older`, newest first. -/
def Unreserved (t : Token) (older : List Token) : Prop :=
  ∀ x, t.kind = .ident x → older.head?.map Token.kind ≠ some .dot → Keyword.ofText? x = none

theorem unreserved_of_word {last : Option TokenKind} {cur next : Cursor}
    (h : word last cur = (.ident x, next)) (hlast : last ≠ some .dot) :
    Keyword.ofText? x = none := by
  rw [word_eq, wordOf] at h
  split at h
  · cases h
  split at h
  · cases h
  rw [if_neg (by simpa using hlast)] at h
  split at h
  · cases h
  · rename_i hword
    cases h
    exact hword

/-- No reserved word begins with a digit. -/
theorem ofText?_of_digit {c : Char} (hc : c.isDigit = true) (h : x.toList.head? = some c) :
    Keyword.ofText? x = none := by
  have hwords : ∀ w ∈ Keyword.all, w.text.toList.head?.all (!·.isDigit) = true := by decide
  refine List.find?_eq_none.mpr fun w hw heq => ?_
  have hfirst := hwords w hw
  rw [eq_of_beq heq, h, Option.all_some, hc] at hfirst
  cases hfirst

theorem unreserved_of_token {last : Option TokenKind} {spaced : Bool} {cur next : Cursor}
    (h : token last spaced cur = .ok (.ident x, next)) (hlast : last ≠ some .dot) :
    Keyword.ofText? x = none := by
  rcases token_cases h with hsign | ⟨c, cs, w, hc, hscan⟩ | hword
  · cases hsign
  · obtain ⟨hpre, hne, hplain⟩ := (Numeral.scan_answers hc).ok _ hscan
    obtain ⟨d, ds, rfl⟩ := List.exists_cons_of_ne_nil hne
    have hchars : d :: ds = x.toList := hplain.1.1
    obtain rfl := (List.cons_prefix_cons.mp hpre).1
    exact ofText?_of_digit hc (hchars ▸ rfl)
  · exact unreserved_of_word hword hlast

theorem Scan.Turns.unreserved {marker : Bool} {s s' : Scan} (hturns : Turns marker s s')
    (h : ∀ t older, t :: older <:+ s.tokens → Unreserved t older) :
    ∀ t older, t :: older <:+ s'.tokens → Unreserved t older := by
  induction hturns with
  | refl => exact h
  | tail _ hturn ih =>
      obtain ⟨w, hmove⟩ := hturn.moves
      rcases hmove.tokens with hsame | ⟨kind, -, hkind, hnew⟩
      · exact hsame ▸ ih
      · rw [hnew]
        intro t older hsuffix
        rcases List.suffix_cons_iff.mp hsuffix with heq | hsuffix
        · obtain ⟨rfl, rfl⟩ := List.cons.inj heq
          rintro x rfl hdot
          rcases hkind with hkind | hkind
          · cases hkind
          · exact unreserved_of_token hkind hdot
        · exact ih t older hsuffix

end Lexer

/-- That `x` is a name among the tokens of a unit, or of a part of one, and no dot stands before
it. -/
def IsNameToken (x : String) : Prop :=
  ∃ text l, (lex text = .ok l ∨ ∃ range, lexRange text range = .ok l)
    ∧ ∃ before t after, l.written = before ++ t :: after ∧ t.kind = .ident x
      ∧ before.getLast?.map Token.kind ≠ some .dot

namespace IsNameToken

variable {x : String}

theorem ofText?_eq_none (h : IsNameToken x) : Keyword.ofText? x = none := by
  obtain ⟨text, l, hlex, before, t, after, hl, hkind, hdot⟩ := h
  obtain ⟨marker, start, last, hstart, hturns, hwritten⟩ := Lexer.turns_of_lexed hlex
  refine hturns.unreserved (by simp [hstart]) t before.reverse ?_ x hkind ?_
  · rw [List.reverse_eq_iff.mp hwritten.symm, hl]
    simp
  · rwa [List.head?_reverse]

theorem dollar (h : IsNameToken x) : '$' ∉ x.toList := by
  obtain ⟨text, l, hlex, before, t, after, hl, hkind, -⟩ := h
  obtain ⟨marker, start, last, hstart, hturns, hwritten⟩ := Lexer.turns_of_lexed hlex
  have hword : t.kind.Worded := by
    refine hturns.worded (by simp [hstart]) t (List.mem_reverse.mp ?_)
    rw [← hwritten, hl]
    exact List.mem_append_right _ List.mem_cons_self
  rw [hkind] at hword
  exact fun hmem => absurd (hword _ hmem) (by simp [IsWordChar, isNameChar, isNameStart])

end IsNameToken

theorem localName_not_reserved (x : String) : localName x ∉ reserved := by
  have hwords : ∀ w ∈ reserved, '$' ∉ w.toList := by decide
  unfold localName
  split
  · exact fun hmem => hwords _ hmem (Logic.dollar_mem_append x)
  · rename_i hx
    exact fun hmem => hx (List.contains_iff_mem.mpr hmem)

/-- **The names of local variables never collide.** Two names that can be variables have different
names in the output, which are none of the words of JavaScript, none of the compiler's own names and
do not begin with a dollar. -/
theorem local_names_apart {x : String} (hx : IsNameToken x) (hlocal : isLocalName x = true) :
    (∀ y, IsNameToken y → isLocalName y = true → localName x = localName y → x = y)
    ∧ localName x ∉ reserved
    ∧ (∀ w ∈ ["self", "nil", "def", "Opal"], localName x ≠ w)
    ∧ ∀ w, localName x ≠ "$" ++ w := by
  refine ⟨fun y hy _ => Logic.localName_inj hx.dollar hy.dollar, localName_not_reserved x, ?_, ?_⟩
  · intro w hw
    have hplain : ∀ w ∈ ["self", "nil", "def", "Opal"], '$' ∉ w.toList := by decide
    -- The first three are reserved words of the language, and the last has a capital letter.
    have hnone : ∀ w ∈ ["self", "nil", "def", "Opal"],
        (Keyword.ofText? w).isSome ∨ isLocalName w = false := by decide
    refine Logic.localName_ne (hplain w hw) ?_
    rintro rfl
    rcases hnone x hw with h | h
    · rw [hx.ofText?_eq_none] at h
      cases h
    · rw [hlocal] at h
      cases h
  · refine fun w => Logic.localName_ne_dollar hx.dollar ?_ (by simp)
    rintro rfl
    cases hlocal

/-- A variable that has the name of a word of JavaScript. -/
theorem local_names_apart_default :
    IsNameToken "default" ∧ localName "default" = "default$" ∧ "default$" ∉ reserved := by
  have htoken : IsNameToken "default" := by
    obtain ⟨l, hlex, hl⟩ : ∃ l, lex "default" = .ok l
        ∧ l.written = [⟨.ident "default", ⟨0, 7⟩, false⟩] := exists_ok_of_any (by decide +kernel)
    exact ⟨_, l, .inl hlex, [], _, [], hl, rfl, by simp⟩
  exact ⟨htoken, by decide +kernel, (local_names_apart htoken (by decide +kernel)).2.1⟩

end RubyJs
