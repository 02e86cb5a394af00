import RubyJs.Proofs.Syntax.Total
import RubyJs.Proofs.Token.EndData

set_option autoImplicit false

/-! # End data and the tree

The data behind a marker line is no part of the code: the text before it has the same tokens and the
same tree as it has alone (`parse_marked`).
-/

namespace RubyJs

open Lexer in
/-- A text, and the text with more behind it. Code in the text has the same place and tokens in both. -/
def Twins.append (text more : String) : Twins where
  left := text
  right := text ++ more
  code span span' := span = span' ∧ CodeSpan text span
  same := False
  lexed := by
    rintro span _ l ⟨rfl, hcode⟩ hlex
    obtain ⟨w, hw⟩ := hcode.covers
    refine ⟨l, (lexRange_append hw more).trans hlex, List.forall₂_same.mpr fun t ht => .refl ?_⟩
    exact fun inner hinner => ⟨rfl, .nested hcode hlex (List.mem_append_left _ ht) hinner⟩
  equal := False.elim

open Lexer in
/-- **End data never affects the code.** A text without a marker line keeps its tokens and its tree
when a marker line and any data follow it. -/
theorem parse_marked {code eol : String} (heol : eol = "\n" ∨ eol = "\r\n") (data : String) {l : Lexed}
    (hlex : lex (code ++ "\n") = .ok l) (hnone : l.endData = none) :
    let whole := code ++ "\n" ++ "__END__" ++ eol ++ data
    lex whole = .ok ⟨l.written, byteSize whole.toList, some data⟩
      ∧ ∀ file program, parse file (code ++ "\n") = .ok program →
        parse file whole = .ok ⟨program.body, some data⟩ := by
  have hwhole : code ++ "\n" ++ "__END__" ++ eol ++ data = code ++ "\n" ++ marked eol data := by
    simp only [marked, String.append_assoc]
  rw [hwhole]
  have hlex' := lex_marked heol data hlex hnone
  refine ⟨hlex', fun file program hparse => ?_⟩
  have htokens : List.Forall₂ (Token.Alike (Twins.append (code ++ "\n") (marked eol data)).code)
      l.written l.written :=
    List.forall₂_same.mpr fun t ht => .refl fun span hspan =>
      ⟨rfl, .unit hlex (List.mem_append_left _ ht) hspan⟩
  exact (parse_twin (.append _ _) (by simp [Twins.append]) hlex hlex' htokens hparse).1

/-- Before the marker stands a literal with code, and the data begins with a dot. -/
theorem parse_marked_dot :
    (∃ l, lex ("\x22#\x7ba\x7d\x22" ++ "\n") = .ok l ∧ l.endData = none
      ∧ lex ("\x22#\x7ba\x7d\x22" ++ "\n" ++ "__END__" ++ "\r\n" ++ ".b") = .ok ⟨l.written, 18, some ".b"⟩)
    ∧ ∃ program, parse "main" ("\x22#\x7ba\x7d\x22" ++ "\n") = .ok program
      ∧ parse "main" ("\x22#\x7ba\x7d\x22" ++ "\n" ++ "__END__" ++ "\r\n" ++ ".b")
        = .ok ⟨program.body, some ".b"⟩ := by
  obtain ⟨l, hlex, hnone⟩ : ∃ l, lex ("\x22#\x7ba\x7d\x22" ++ "\n") = .ok l ∧ l.endData = none :=
    exists_ok_of_any (by decide +kernel)
  obtain ⟨program, hparse, -⟩ :
      ∃ p, parse "main" ("\x22#\x7ba\x7d\x22" ++ "\n") = .ok p ∧ p.endData = none :=
    exists_ok_of_any (by decide +kernel)
  obtain ⟨hlex', hparse'⟩ := parse_marked (.inr rfl) ".b" hlex hnone
  exact ⟨⟨l, hlex, hnone, hlex'⟩, program, hparse, hparse' "main" program hparse⟩

end RubyJs
