import RubyJs.Proofs.Token.Interpolation

set_option autoImplicit false

/-! # Texts that are quoted

A text is quoted by a delimiter on both sides and a backslash before every character that would mean
something else inside:

    it's 5" #{x}        "it's 5\" \#{x}"        'it\'s 5" #{x}'

The marks of a way of quoting are the characters that need the backslash. Whatever the text is, its
quotation is read as one string whose only segment is the text (`Quotes.lex_quotation`).
-/

namespace RubyJs

open Lexer

/-- The character `c` of a text, with a backslash before it if it is one of `marks`. -/
def escapedChar (marks : List Char) (c : Char) : List Char :=
  if marks.contains c then ['\\', c] else [c]

/-- The text `cs`, with a backslash before each of `marks`. -/
def escapedText (marks cs : List Char) : List Char := cs.flatMap (escapedChar marks)

theorem escapedText_cons (marks : List Char) (c : Char) (cs : List Char) :
    escapedText marks (c :: cs) = escapedChar marks c ++ escapedText marks cs := rfl

theorem length_le_escapedText (marks cs : List Char) :
    cs.length ≤ (escapedText marks cs).length := by
  induction cs with
  | nil => exact Nat.le_refl 0
  | cons c cs ih =>
      have hchar : 0 < (escapedChar marks c).length := by
        unfold escapedChar
        split <;> simp
      rw [escapedText_cons, List.length_append, List.length_cons]
      omega

/-- The text `s` between two delimiters `q`, with a backslash before each of `marks`. -/
def quotation (q : Char) (marks : List Char) (s : String) : String :=
  String.ofList (q :: (escapedText marks s.toList ++ [q]))

/-- The text `s` between double quotes. -/
def doubleQuoted (s : String) : String := quotation '\x22' ['\\', '\x22', '#'] s

/-- The text `s` between single quotes. -/
def singleQuoted (s : String) : String := quotation '\x27' ['\\', '\x27'] s

/-! ## Bodies -/

/-- That the delimiter `q` quotes in the way `quoting`, and a backslash before each of `marks` is
what a text needs to be quoted. -/
structure Quotes (q : Char) (quoting : Quoting) (marks : List Char) : Prop where
  quote : IsQuote q
  backslash : '\\' ∈ marks
  closing : q ∈ marks
  hash : quoting ≠ .single → '#' ∈ marks
  /-- A backslash before a mark stands for the mark. -/
  escapes : ∀ c ∈ marks, ∀ start cs, quoting.escape q start (c :: cs) = .ok ([c], 1)
  token : ∀ {cur : Cursor} {cs : List Char}, cur.rest = q :: cs → ∀ last spaced,
    token last spaced cur = (Literal.body ⟨q, q, quoting, cur.offset⟩ (cur.skip 1)
      >>= fun r => .ok (.str r.1, r.2))

theorem quotes_double : Quotes '\x22' .double ['\\', '\x22', '#'] where
  quote := .inl rfl
  backslash := by simp
  closing := by simp
  hash := by simp
  escapes := by
    intro c hc start cs
    simp only [List.mem_cons, List.not_mem_nil, or_false] at hc
    rcases hc with rfl | rfl | rfl <;> rfl
  token h := token_of_double_quote h

theorem quotes_single : Quotes '\x27' .single ['\\', '\x27'] where
  quote := .inr rfl
  backslash := by simp
  closing := by simp
  hash := by simp
  escapes := by
    intro c hc start cs
    simp only [List.mem_cons, List.not_mem_nil, or_false] at hc
    rcases hc with rfl | rfl <;> rfl
  token h _ _ := by
    unfold Lexer.token
    rw [h]
    rfl

namespace Quotes

variable {q : Char} {quoting : Quoting} {marks : List Char}

/-- One turn over the body of a quotation reads one character of the text. -/
theorem turn (h : Quotes q quoting marks) (start : Nat) {cur : Cursor} {c : Char}
    {rest : List Char} (hrest : cur.rest = escapedChar marks c ++ rest) :
    Literal.Turn ⟨q, q, quoting, start⟩ 0 cur [.char c] 0 (cur.skip (escapedChar marks c).length)
      := by
  -- marks are read as escapes, all other characters as they stand
  by_cases hc : c ∈ marks
  · have hchar : escapedChar marks c = ['\\', c] := by simp [escapedChar, hc]
    rw [hchar] at hrest ⊢
    have hq : '\\' ≠ q := by rcases h.quote with rfl | rfl <;> decide
    have hrest' : cur.rest = '\\' :: c :: rest := hrest
    have hturn : Literal.Turn ⟨q, q, quoting, start⟩ 0 cur ([c].map .char) 0 (cur.skip (1 + 1)) :=
      .escape hrest' (fun heq => absurd heq hq) (h.escapes c hc cur.offset rest)
    exact hturn
  · have hchar : escapedChar marks c = [c] := by simp [escapedChar, hc]
    have hne : ∀ {m : Char}, m ∈ marks → c ≠ m := fun hm heq => hc (heq ▸ hm)
    have hnest : Literal.nest ⟨q, q, quoting, start⟩ 0 c = 0 := by simp [Literal.nest]
    rw [hchar] at hrest ⊢
    have hturn : Literal.Turn ⟨q, q, quoting, start⟩ 0 cur [.char c] _ (cur.skip 1) :=
      .char hrest (fun heq => absurd heq (hne h.closing)) (hne h.backslash)
        (fun heq hquoting => absurd heq (hne (h.hash hquoting)))
    rwa [hnest] at hturn

/-- The body of a quotation is read as the characters of the text, up to the delimiter behind it. -/
theorem pieces_escapedText (h : Quotes q quoting marks) (start : Nat) {cur : Cursor} {fuel : Nat}
    {cs rest : List Char} (hfuel : cs.length < fuel)
    (hrest : cur.rest = escapedText marks cs ++ q :: rest) :
    ∃ next, Literal.pieces ⟨q, q, quoting, start⟩ fuel 0 cur = .ok (cs.map .char, next)
      ∧ cur.Passes (escapedText marks cs ++ [q]) next := by
  -- by induction on the text that is quoted: each of its characters takes one turn
  induction cs generalizing cur fuel with
  | nil =>
      obtain ⟨fuel, rfl⟩ : ∃ n, fuel = n + 1 := ⟨fuel - 1, by omega⟩
      exact ⟨_, Literal.pieces_closing hrest fuel, Cursor.passes_of_eq hrest⟩
  | cons c cs ih =>
      obtain ⟨fuel, rfl⟩ : ∃ n, fuel = n + 1 := ⟨fuel - 1, by omega⟩
      rw [escapedText_cons, List.append_assoc] at hrest
      have hpass := Cursor.passes_of_eq hrest
      obtain ⟨next, hpieces, hnext⟩ := ih (Nat.lt_of_succ_lt_succ hfuel)
        (List.append_cancel_left (hpass.rest.symm.trans hrest))
      refine ⟨next, ?_, ?_⟩
      · rw [(h.turn start hrest).pieces_eq, hpieces]
        rfl
      · rw [escapedText_cons, List.append_assoc]
        exact hpass.trans hnext

end Quotes

/-- Characters alone are one text. -/
theorem Piece.segments_map_char (cs : List Char) :
    segments (cs.map .char) = [.text (String.ofList cs)] := by
  have hgroup : ∀ collected, group collected (cs.map .char) = flush (cs.reverse ++ collected) := by
    induction cs with
    | nil => exact fun _ => rfl
    | cons c cs ih =>
        intro collected
        simp [group, ih]
  unfold segments
  rw [hgroup, List.append_nil]
  cases cs with
  | nil => rfl
  | cons c cs => simp [flush]

/-! ## The whole text -/

namespace Lexer

theorem step_of_quote {s : Scan} {q : Char} {cs : List Char} (hq : IsQuote q)
    (h : s.cursor.rest = q :: cs) :
    s.step = (token (s.tokens.head?.map Token.kind) s.spaced s.cursor
      >>= fun r => .ok (s.push r.1 r.2)) := by
  rcases hq with rfl | rfl <;> simp [Scan.step, h, startsWith]

theorem markedData?_of_quote {q : Char} {cs : List Char} (hq : IsQuote q) :
    markedData? (q :: cs) = none := by
  rcases hq with rfl | rfl <;> rfl

end Lexer

/-- The tokens of a text that is one string with the text `s`. -/
def oneString (s source : String) : Lexed :=
  ⟨[⟨.str [.text s], ⟨0, byteSize source.toList⟩, false⟩], byteSize source.toList, none⟩

/-- The string at the front of a quotation is the whole of it. -/
theorem Quotes.body_quotation {q : Char} {quoting : Quoting} {marks : List Char}
    (h : Quotes q quoting marks) {s source : String}
    (hlist : source.toList = q :: (escapedText marks s.toList ++ [q])) :
    Literal.body ⟨q, q, quoting, 0⟩ (Cursor.skip ⟨source.toList, 0⟩ 1)
      = .ok ([.text s], ⟨[], byteSize source.toList⟩) := by
  have hopen : (⟨source.toList, 0⟩ : Cursor).Passes [q] (Cursor.skip ⟨source.toList, 0⟩ 1) :=
    Cursor.passes_of_eq hlist
  generalize Cursor.skip ⟨source.toList, 0⟩ 1 = cur at hopen ⊢
  have hbody : cur.rest = escapedText marks s.toList ++ q :: [] :=
    (List.cons.inj (hopen.rest.symm.trans hlist)).2
  have hlength : s.toList.length < cur.rest.length := by
    have hle := length_le_escapedText marks s.toList
    rw [hbody, List.length_append, List.length_singleton]
    omega
  obtain ⟨next, hpieces, hnext⟩ := h.pieces_escapedText 0 hlength hbody
  have hwhole : (⟨source.toList, 0⟩ : Cursor).Passes source.toList next := by
    rw [hlist] at hopen ⊢
    exact hopen.trans hnext
  have hend : next = ⟨[], byteSize source.toList⟩ := by
    have hrest : source.toList ++ [] = source.toList ++ next.rest := by
      rw [List.append_nil]
      exact hwhole.rest
    have hoffset : next.offset = 0 + byteSize source.toList := hwhole.offset
    cases next
    simp_all
  unfold Literal.body
  rw [hpieces, hend]
  show Except.ok (Piece.segments _, _) = _
  rw [Piece.segments_map_char, String.ofList_toList]

/-- A quotation is read as one string with the text that is quoted. -/
theorem Quotes.lex_quotation {q : Char} {quoting : Quoting} {marks : List Char}
    (h : Quotes q quoting marks) (s : String) :
    lex (quotation q marks s) = .ok (oneString s (quotation q marks s)) := by
  have hlist : (quotation q marks s).toList = q :: (escapedText marks s.toList ++ [q]) := by
    simp [quotation]
  generalize quotation q marks s = source at hlist ⊢
  have hrest : (Scan.ofText source.toList).cursor.rest = q :: (escapedText marks s.toList ++ [q]) :=
    hlist
  have hstep : (Scan.ofText source.toList).step
      = .ok ((Scan.ofText source.toList).push (.str [.text s]) ⟨[], byteSize source.toList⟩) := by
    rw [step_of_quote h.quote hrest, h.token hrest]
    show (Literal.body ⟨q, q, quoting, 0⟩ (Cursor.skip ⟨source.toList, 0⟩ 1) >>= _) >>= _ = _
    rw [h.body_quotation hlist]
    rfl
  have hlength : source.toList.length = (escapedText marks s.toList ++ [q]).length + 1 := by
    rw [hlist, List.length_cons]
  rw [lex_eq_map, hlength, Scan.run_succ (by simp [hrest]) (fun _ _ => ?_), hstep]
  · show Except.map _ (Scan.run true _ _) = _
    rw [Scan.run_of_rest_eq_nil true rfl]
    rfl
  · rw [hrest]
    exact markedData?_of_quote h.quote

end RubyJs
