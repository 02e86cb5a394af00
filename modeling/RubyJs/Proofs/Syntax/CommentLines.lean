import RubyJs.Proofs.Syntax.Total
import RubyJs.Proofs.Token.CommentLines

set_option autoImplicit false

/-! # Comment lines and the tree

A comment line moves what stands behind it on by its length. Literals with code in their braces move
with it, and so do those in that code, so the two texts are twins (`Twins.insert`) and have the same
tree (`parse_commentLine`).
-/

namespace RubyJs

/-- A token is like itself further on, if its code is in places that correspond. -/
theorem Token.alike_shift {R : Span → Span → Prop} {d : Nat} {t : Token}
    (h : ∀ span, .code span ∈ t.kind.segments → R span (span.shift d)) : t.Alike R (t.shift d) := by
  have hsegments : ∀ ss : List Segment, (∀ span, .code span ∈ ss → R span (span.shift d)) →
      List.Forall₂ (Segment.Alike R) ss (ss.map (Segment.shift d)) := by
    intro ss hss
    refine List.forall₂_map_right_iff.mpr (List.forall₂_same.mpr fun s hs => ?_)
    cases s with
    | text t => exact .text t
    | code span => exact .code (hss span hs)
  obtain ⟨kind, span, spaced⟩ := t
  refine ⟨?_, rfl⟩
  cases kind
  case str ss => exact .str (hsegments ss h)
  case xstr ss => exact .xstr (hsegments ss h)
  case dsymbol ss => exact .dsymbol (hsegments ss h)
  all_goals exact .plain rfl

open Lexer

/-- Two parts of a text, and the same parts with a line between. Code of the first part keeps its
place, and code of the second moves on. -/
def Twins.insert (front line back : String) : Twins where
  left := front ++ back
  right := front ++ line ++ back
  code span span' :=
    (span = span' ∧ ∃ w, span.Covers front.toList w)
      ∨ (span' = span.shift (byteSize line.toList) ∧ byteSize front.toList < span.start
        ∧ ∃ w, span.Covers (front ++ back).toList w)
  same := False
  lexed := by
    rintro span _ l (⟨rfl, w, hw⟩ | ⟨rfl, hstart, w, hw⟩) hlex
    · have hfront : lexRange front span = .ok l := (lexRange_append hw back).symm.trans hlex
      have hplaced := lexRange_placed hw hfront
      refine ⟨l, ?_, List.forall₂_same.mpr fun t ht => .refl fun inner hinner => .inl ⟨rfl, ?_⟩⟩
      · rw [String.append_assoc, lexRange_append hw, hfront]
      · exact hplaced.code_covers (List.mem_append_left _ ht) hinner
    · have hplaced := lexRange_placed hw hlex
      have hagree := lexRange_insert line hw hstart
      rw [hlex] at hagree
      generalize hfound : lexRange (front ++ line ++ back) _ = found at hagree
      generalize hl : Except.ok l = x at hagree
      cases hagree with
      | fault => cases hl
      | ok hshift =>
          obtain rfl := Except.ok.inj hl
          subst hshift
          refine ⟨_, rfl, List.forall₂_map_right_iff.mpr (List.forall₂_same.mpr fun t ht => ?_)⟩
          refine Token.alike_shift fun inner hinner => .inr ⟨rfl, ?_, ?_⟩
          · have hbehind := (hplaced.written t ht).2.2
            have hinside := ((hplaced.written t ht).1.code inner hinner).2.2.1
            omega
          · exact hplaced.code_covers (List.mem_append_left _ ht) hinner
  equal := False.elim

/-- **Comment lines are invisible.** Behind a line end of the code, one that is read between tokens,
a line that is only a comment can stand, and a program stays the program it was. If a dot follows, the
line before has to go on by itself, and a second line end has to mean nothing. -/
theorem parse_commentLine {before after line file : String} (hline : IsCommentLine line.toList)
    {s : Scan} (hturns : Scan.Turns true (.ofText (before ++ "\n" ++ after).toList) s)
    (hrest : s.cursor.rest = '\n' :: after.toList)
    (hdot : dotFollows after.toList = true → goesOn s.tokens = true)
    (hgoes : goesOn s.lineEnd.tokens = true) {program : Program}
    (h : parse file (before ++ "\n" ++ after) = .ok program) :
    parse file (before ++ "\n" ++ line ++ after) = .ok program := by
  obtain ⟨l, hlex⟩ : ∃ l, lex (before ++ "\n" ++ after) = .ok l := by
    cases hlex : lex (before ++ "\n" ++ after) with
    | ok l => exact ⟨l, rfl⟩
    | error f =>
        rw [parse, hlex] at h
        cases h
  obtain ⟨old, new, hwritten, hlex', hold, hnew⟩ := lex_commentLine hline hturns hrest hdot hgoes hlex
  have hplaced := lex_placed hlex
  have hmem : ∀ {t}, t ∈ old ∨ t ∈ new → t ∈ l.written := fun ht =>
    hwritten ▸ List.mem_append.mpr ht
  have hkept : List.Forall₂ (Token.Alike (Twins.insert (before ++ "\n") line after).code) old old := by
    refine List.forall₂_same.mpr fun t ht => .refl fun span hspan => .inl ⟨rfl, ?_⟩
    obtain ⟨hstart, hstop, -, hle, hlt⟩ := (hplaced.written t (hmem (.inl ht))).1.code span hspan
    have hbefore := hold t ht
    rw [String.toList_append] at hstart hstop
    exact Span.exists_covers (hstart.of_append (by omega)) (hstop.of_append (by omega)) hle
  have hmoved : List.Forall₂ (Token.Alike (Twins.insert (before ++ "\n") line after).code) new
      (new.map (Token.shift (byteSize line.toList))) := by
    refine List.forall₂_map_right_iff.mpr (List.forall₂_same.mpr fun t ht => ?_)
    refine Token.alike_shift fun span hspan => .inr ⟨rfl, ?_, ?_⟩
    · have hinside := ((hplaced.written t (hmem (.inr ht))).1.code span hspan).2.2.1
      have hbehind := hnew t ht
      omega
    · exact hplaced.code_covers (List.mem_append_left _ (hmem (.inr ht))) hspan
  have hl : List.Forall₂ (Token.Alike (Twins.insert (before ++ "\n") line after).code) l.written
      (old ++ new.map (Token.shift (byteSize line.toList))) := by
    rw [hwritten]
    exact List.rel_append hkept hmoved
  obtain ⟨htwin, hdata⟩ := parse_twin (.insert (before ++ "\n") line after)
    (by simp [Twins.insert]) hlex hlex' hl h
  rw [← hdata] at htwin
  exact htwin

/-- Behind the comment stands a literal with code, which moves on. -/
theorem parse_commentLine_literal :
    let text := "f" ++ "\n" ++ "\x22#\x7bg\x7d\x22"
    ∃ s, Scan.Turns true (.ofText text.toList) s
      ∧ s.cursor.rest = '\n' :: "\x22#\x7bg\x7d\x22".toList ∧ IsCommentLine " # é\n".toList
      ∧ dotFollows "\x22#\x7bg\x7d\x22".toList = false ∧ goesOn s.lineEnd.tokens = true
      ∧ ∃ program, parse "main" text = .ok program
        ∧ parse "main" ("f" ++ "\n" ++ " # é\n" ++ "\x22#\x7bg\x7d\x22") = .ok program := by
  intro text
  let s : Scan := ⟨⟨'\n' :: "\x22#\x7bg\x7d\x22".toList, 1⟩, false, false, [⟨.ident "f", ⟨0, 1⟩, false⟩]⟩
  have htext : text.toList = ['f', '\n', '\x22', '#', '\x7b', 'g', '\x7d', '\x22'] := by decide
  have hturns : Scan.Turns true (.ofText text.toList) s := by
    rw [htext]
    exact .single ⟨by decide, fun _ _ => by decide, by rfl⟩
  have hline : IsCommentLine " # é\n".toList := ⟨[' '], [' ', 'é'], by decide, by simp, by decide⟩
  have hdot : dotFollows "\x22#\x7bg\x7d\x22".toList = false := by decide
  have hgoes : goesOn s.lineEnd.tokens = true := by decide
  obtain ⟨program, hparse, -⟩ : ∃ p, parse "main" text = .ok p ∧ p.endData = none :=
    exists_ok_of_any (by decide +kernel)
  have hnone : dotFollows "\x22#\x7bg\x7d\x22".toList = true → goesOn s.tokens = true := fun h => by
    rw [hdot] at h
    cases h
  exact ⟨s, hturns, rfl, hline, hdot, hgoes, program, hparse,
    parse_commentLine hline hturns rfl hnone hgoes hparse⟩

/-- Between `a` and the dot that continues it, a comment makes a program a text that is none. -/
theorem parse_commentLine_dot :
    ∃ s, Scan.Turns true (.ofText ("a" ++ "\n" ++ ".b").toList) s ∧ s.cursor.rest = '\n' :: ".b".toList
      ∧ IsCommentLine "#\n".toList ∧ (∃ program, parse "main" ("a" ++ "\n" ++ ".b") = .ok program)
      ∧ ∃ e, parse "main" ("a" ++ "\n" ++ "#\n" ++ ".b") = .error e := by
  let s : Scan := ⟨⟨'\n' :: ".b".toList, 1⟩, false, false, [⟨.ident "a", ⟨0, 1⟩, false⟩]⟩
  have hturns : Scan.Turns true (.ofText ("a" ++ "\n" ++ ".b").toList) s :=
    .single ⟨by decide, fun _ _ => by decide, by rfl⟩
  have hline : IsCommentLine "#\n".toList := ⟨[], [], by decide, nofun, by decide⟩
  obtain ⟨program, hparse, -⟩ : ∃ p, parse "main" ("a" ++ "\n" ++ ".b") = .ok p ∧ p.endData = none :=
    exists_ok_of_any (by decide +kernel)
  refine ⟨s, hturns, rfl, hline, ⟨program, hparse⟩, ?_⟩
  cases hfails : parse "main" ("a" ++ "\n" ++ "#\n" ++ ".b") with
  | error e => exact ⟨e, rfl⟩
  | ok p =>
      have hnone : (parse "main" ("a" ++ "\n" ++ "#\n" ++ ".b")).toOption.isSome = false := by
        decide +kernel
      rw [hfails] at hnone
      cases hnone

end RubyJs
