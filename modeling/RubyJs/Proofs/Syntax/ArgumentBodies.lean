import RubyJs.Proofs.Syntax.Single
import RubyJs.Proofs.Token.Chains

set_option autoImplicit false

/-! # Bodies inside of arguments

A call without parentheses takes the `do` that follows its arguments for itself, so while they are
read no call in them may take one. Delimiters and blocks end that, but the body of a `begin` does
not: a call in it whose block is written with `do` is left without its block, and the text has a
fault at that word (`parse_nested_do`), although the body alone may well be a program
(`parse_nested_block`).
-/

namespace RubyJs

open Reading Grammar Lexer

variable {more cs : List Char}

/-- A call of `f` without parentheses whose argument is a `begin` with the body `code`. -/
def nested (code : String) : String := "f begin\n" ++ code ++ "\nend"

/-! ## The tokens -/

/-- That `g` is a name that begins with a small letter and is not reserved. -/
def IsName (g : String) : Prop :=
  ∃ c cs, g.toList = c :: cs ∧ c.isLower = true ∧ (∀ d ∈ cs, isNameChar d = true)
    ∧ Keyword.ofText? g = none

/-- That no word goes on with `more`. -/
def Parted (more : List Char) : Prop := ∀ c ∈ more.head?, c = ' ' ∨ c = '\n'

theorem ne_of_isLower {c : Char} (hc : c.isLower = true) (x : Char) (hx : x.isLower = false) :
    c ≠ x := by
  rintro rfl
  rw [hc] at hx
  cases hx

/-- A word ends where a blank or a line end stands. -/
theorem wordChars_append (hcs : ∀ d ∈ cs, isNameChar d = true) (hmore : Parted more) :
    wordChars (cs ++ more) = cs := by
  have hchars : (cs ++ more).takeWhile isNameChar = cs := by
    rw [List.takeWhile_append_of_pos hcs]
    cases more with
    | nil => rw [List.takeWhile_nil, List.append_nil]
    | cons c more =>
        have hc : isNameChar c = false := by
          rcases hmore c rfl with rfl | rfl <;> rfl
        rw [List.takeWhile_cons_of_neg (by rw [hc]; exact Bool.false_ne_true), List.append_nil]
  have hmark : nameMark more = [] := by
    cases more with
    | nil => rfl
    | cons c more => rcases hmore c rfl with rfl | rfl <;> rfl
  rw [wordChars, hchars, List.drop_left, hmark, List.append_nil]

theorem colonFollows_eq_false (hmore : Parted more) : colonFollows more = false := by
  cases more with
  | nil => rfl
  | cons c more => rcases hmore c rfl with rfl | rfl <;> rfl

/-- A word that is a name or reserved, behind which no word goes on. -/
theorem token_word {cur : Cursor} {c : Char} {last : Option TokenKind} {kind : TokenKind}
    (spaced : Bool) (hrest : cur.rest = c :: cs ++ more) (hc : c.isLower = true)
    (hcs : ∀ d ∈ cs, isNameChar d = true) (hmore : Parted more) (hlast : last ≠ some .dot)
    (hkind : (match Keyword.ofText? (String.ofList (c :: cs)) with
      | some w => .keyword w
      | none => .ident (String.ofList (c :: cs))) = kind) :
    token last spaced cur = .ok (kind, ⟨more, cur.offset + byteSize (c :: cs)⟩) := by
  have hne := ne_of_isLower hc
  have halpha : isNameStart c = true := by
    unfold isNameStart Char.isAlpha
    simp [hc]
  have hdigit : c.isDigit = false := by
    unfold Char.isLower at hc
    unfold Char.isDigit
    grind
  have hupper : c.isUpper = false := by
    unfold Char.isLower at hc
    unfold Char.isUpper
    grind
  have hword : word last cur = (kind, ⟨more, cur.offset + byteSize (c :: cs)⟩) := by
    have hchars : wordChars cur.rest = c :: cs := by
      rw [hrest]
      refine wordChars_append (fun d hd => ?_) hmore
      rcases List.mem_cons.mp hd with rfl | hd
      · rw [isNameChar, halpha, Bool.true_or]
      · exact hcs d hd
    have hskip : cur.skip (c :: cs).length = ⟨more, cur.offset + byteSize (c :: cs)⟩ := by
      rw [Cursor.skip, hrest, List.drop_left, List.take_left]
    rw [word_eq, hchars, hskip, wordOf, colonFollows_eq_false hmore, beq_false_of_ne hlast, ← hkind]
    simp only [isConstant, hupper]
    cases Keyword.ofText? (String.ofList (c :: cs)) <;> rfl
  unfold token
  rw [hrest]
  simp [hne, hdigit, halpha, hword]

namespace Lexer.Scan

/-- The tokens before the body, newest first. -/
def opening : List Token :=
  [⟨.newline, ⟨7, 8⟩, false⟩, ⟨.keyword .beginKw, ⟨2, 7⟩, true⟩, ⟨.ident "f", ⟨0, 1⟩, false⟩]

/-- A word at the front of what is left. -/
theorem turn_of_word {s : Scan} (c : Char) (cs : List Char) (kind : TokenKind)
    (hrest : s.cursor.rest = c :: cs ++ more) (hc : c.isLower = true)
    (hcs : ∀ d ∈ cs, isNameChar d = true) (hmore : Parted more)
    (hlast : s.tokens.head?.map Token.kind ≠ some .dot)
    (hkind : (match Keyword.ofText? (String.ofList (c :: cs)) with
      | some w => .keyword w
      | none => .ident (String.ofList (c :: cs))) = kind) :
    Turn true s (s.push kind ⟨more, s.cursor.offset + byteSize (c :: cs)⟩) := by
  have hne := ne_of_isLower hc
  refine turn_of_fronts ?_ (token_word s.spaced hrest hc hcs hmore hlast hkind)
  rw [hrest]
  constructor
  · exact List.cons_ne_nil _ _
  · simp [gap, hne ' ' rfl, hne '\t' rfl, hne '\r' rfl, hne '\n' rfl, hne '\\' rfl, hne '#' rfl]
  · simp [startsWith, List.isPrefixOf, (hne '=' rfl).symm]
  · simp [markedData?, startsWith, List.isPrefixOf, (hne '_' rfl).symm]

/-- The words before the body, with the line end that separates it from them. -/
theorem turns_opening (h : dotFollows cs = false) :
    Turns true (ofText ('f' :: ' ' :: 'b' :: 'e' :: 'g' :: 'i' :: 'n' :: '\n' :: cs))
      ⟨⟨cs, 8⟩, true, true, opening⟩ := by
  have hname : Turn true (ofText ('f' :: ' ' :: 'b' :: 'e' :: 'g' :: 'i' :: 'n' :: '\n' :: cs))
      ⟨⟨' ' :: 'b' :: 'e' :: 'g' :: 'i' :: 'n' :: '\n' :: cs, 1⟩, false, false, opening.drop 2⟩ :=
    turn_of_word 'f' [] (.ident "f") rfl rfl (List.all_eq_true.mp rfl)
      (fun d hd => .inl (Option.some.inj hd).symm) (by simp [ofText]) rfl
  have hblank : Turn true
      ⟨⟨' ' :: 'b' :: 'e' :: 'g' :: 'i' :: 'n' :: '\n' :: cs, 1⟩, false, false, opening.drop 2⟩
      ⟨⟨'b' :: 'e' :: 'g' :: 'i' :: 'n' :: '\n' :: cs, 2⟩, false, true, opening.drop 2⟩ :=
    turn_of_blank rfl
  have hword : Turn true
      ⟨⟨'b' :: 'e' :: 'g' :: 'i' :: 'n' :: '\n' :: cs, 2⟩, false, true, opening.drop 2⟩
      ⟨⟨'\n' :: cs, 7⟩, false, false, opening.drop 1⟩ :=
    turn_of_word 'b' ['e', 'g', 'i', 'n'] (.keyword .beginKw) rfl rfl
      (List.all_eq_true.mp rfl) (fun d hd => .inr (Option.some.inj hd).symm) (by simp [opening]) rfl
  have hline : Turn true ⟨⟨'\n' :: cs, 7⟩, false, false, opening.drop 1⟩
      ⟨⟨cs, 8⟩, true, true, opening⟩ := by
    refine ⟨List.cons_ne_nil _ _, fun _ hl => absurd hl Bool.false_ne_true, ?_⟩
    have hdropped : lineEndDropped (opening.drop 1) (('\n' :: cs).drop 1) = false := by
      show (false || dotFollows cs) = false
      rw [h]
      rfl
    rw [step_eq]
    show Except.ok (lineEnd _) = _
    unfold Scan.lineEnd
    dsimp only [Cursor.skip]
    rw [hdropped]
    rfl
  exact .head hname (.head hblank (.head hword (.single hline)))

/-- The tokens up to a `do` behind the name `g`, newest first. -/
def openingDo (g : String) : List Token :=
  ⟨.keyword .doKw, ⟨8 + byteSize g.toList + 1, 8 + byteSize g.toList + 3⟩, true⟩ ::
    ⟨.ident g, ⟨8, 8 + byteSize g.toList⟩, true⟩ :: opening

/-- A name and a `do` at the front of the body. -/
theorem turns_do {g : String} (hg : IsName g) (hmore : Parted more) :
    ∃ s, Turns true (ofText ("f begin\n".toList ++ (g.toList ++ (" do".toList ++ more)))) s
      ∧ s.tokens = openingDo g := by
  obtain ⟨c, cs, hchars, hc, hcs, hnone⟩ := hg
  have hfirst : dotFollows (g.toList ++ ' ' :: 'd' :: 'o' :: more) = false := by
    have hne := ne_of_isLower hc
    rw [hchars, dotFollows]
    simp [hne ' ' rfl, hne '\t' rfl, hne '\r' rfl, hne '\n' rfl, hne '.' rfl]
  have hname : Turn true ⟨⟨g.toList ++ ' ' :: 'd' :: 'o' :: more, 8⟩, true, true, opening⟩
      ⟨⟨' ' :: 'd' :: 'o' :: more, 8 + byteSize g.toList⟩, false, false, (openingDo g).drop 1⟩ := by
    refine (congrArg (Turn true _) ?_).mp (turn_of_word c cs (.ident g) (congrArg (· ++ _) hchars)
      hc hcs (fun d hd => .inl (Option.some.inj hd).symm) (by simp [opening]) ?_)
    · rw [← hchars]
      rfl
    · rw [← hchars, String.ofList_toList, hnone]
  have hblank : Turn true
      ⟨⟨' ' :: 'd' :: 'o' :: more, 8 + byteSize g.toList⟩, false, false, (openingDo g).drop 1⟩
      ⟨⟨'d' :: 'o' :: more, 8 + byteSize g.toList + 1⟩, false, true, (openingDo g).drop 1⟩ :=
    turn_of_blank rfl
  have hword : Turn true
      ⟨⟨'d' :: 'o' :: more, 8 + byteSize g.toList + 1⟩, false, true, (openingDo g).drop 1⟩ _ :=
    turn_of_word 'd' ['o'] (.keyword .doKw) rfl rfl (List.all_eq_true.mp rfl) hmore
      (by simp [openingDo]) rfl
  exact ⟨_, (turns_opening hfirst).trans (.head hname (.head hblank (.single hword))), rfl⟩

end Lexer.Scan

/-- A text has the tokens that are found before some turn. -/
theorem written_of_turns {text : String} {l : Lexed} {s : Scan}
    (h : Scan.Turns true (Scan.ofText text.toList) s) (hlex : lex text = .ok l) :
    ∃ more, l.written = s.tokens.reverse ++ more := by
  have hrun : ∀ {s s' : Scan}, Scan.Turns true s s' → ∀ fuel, s.cursor.rest.length ≤ fuel →
      ∃ n, s'.cursor.rest.length ≤ n ∧ Scan.run true fuel s = Scan.run true n s' := by
    intro s s' h
    induction h using Relation.ReflTransGen.head_induction_on with
    | refl => exact fun fuel hfuel => ⟨fuel, hfuel, rfl⟩
    | head hturn _ ih =>
        intro fuel hfuel
        obtain ⟨n, hn, hrun⟩ := hturn.run_eq hfuel
        obtain ⟨m, hm, hrun'⟩ := ih n hn
        exact ⟨m, hm, hrun.trans hrun'⟩
  obtain ⟨n, hn, hsame⟩ := hrun h text.toList.length (Nat.le_refl _)
  obtain ⟨last, hturns, hends⟩ := Scan.run_ends true hn
  obtain ⟨newer, hnewer⟩ := hturns.tokens_suffix
  have hreverse : last.tokens.reverse = s.tokens.reverse ++ newer.reverse := by
    rw [← hnewer, List.reverse_append]
  rw [lex_eq_map] at hlex
  rw [← hsame] at hends
  generalize Scan.run true _ (Scan.ofText text.toList) = found at hends hlex
  cases hends with
  | fault => cases hlex
  | marked =>
      obtain rfl := Except.ok.inj hlex
      exact ⟨_, hreverse⟩
  | text =>
      obtain rfl := Except.ok.inj hlex
      exact ⟨_, hreverse⟩

/-! ## The fault -/

set_option maxRecDepth 2000 in
/-- The body of the `begin` is read with the `do` taken: the name gets no block, and no statement
goes on with a `do`. -/
theorem stmts_argument_do (file text : String) (n stop : Nat) (data : Option String) (g : String)
    (more : List Token) :
    stmts (Rules.level file text (n + 2))
      ⟨Stream.ofLexed ⟨(Scan.openingDo g).reverse ++ more, stop, data⟩, [⟨[], false⟩], 0⟩ =
      .error ⟨8 + byteSize g.toList + 1, .unexpected (.keyword .doKw)⟩ := rfl

/-- **The `do` of a call in the body of an argument is taken.** A text that begins with a name and a
`do` is never the body of a `begin` that is an argument, whatever its block holds: either the whole
has a fault in its tokens, or it has one at this `do`. -/
theorem parse_nested_do (file : String) {g : String} (hg : IsName g) {block : String}
    (hblock : Parted block.toList) :
    ∃ f, parse file (nested (g ++ " do" ++ block)) =
        .error (.ofFault file (nested (g ++ " do" ++ block)) f)
      ∧ ∀ l, lex (nested (g ++ " do" ++ block)) = .ok l →
        f = ⟨8 + byteSize g.toList + 1, .unexpected (.keyword .doKw)⟩ := by
  have hparted : Parted (block.toList ++ "\nend".toList) := by
    intro c hc
    cases hchars : block.toList with
    | nil =>
        rw [hchars] at hc
        exact .inr (Option.some.inj hc).symm
    | cons d ds =>
        rw [hchars] at hc hblock
        exact hblock c hc
  obtain ⟨s, hturns, htokens⟩ := Scan.turns_do hg hparted
  have htext : (nested (g ++ " do" ++ block)).toList =
      "f begin\n".toList ++
        (g.toList ++ (" do".toList ++ (block.toList ++ "\nend".toList))) := by
    simp only [nested, String.toList_append, List.append_assoc]
  rw [← htext] at hturns
  unfold parse
  cases hlex : lex (nested (g ++ " do" ++ block)) with
  | error f => exact ⟨f, rfl, fun l hl => by cases hl⟩
  | ok l =>
      obtain ⟨more, hwritten⟩ := written_of_turns hturns hlex
      obtain ⟨n, hsize⟩ : ∃ n, (nested (g ++ " do" ++ block)).utf8ByteSize = n + 1 := by
        refine Nat.exists_eq_succ_of_ne_zero fun hzero => ?_
        rw [utf8ByteSize_eq_byteSize, htext] at hzero
        exact Nat.ne_of_gt (byteSize_pos (List.cons_ne_nil _ _)) hzero
      have hread : readBody file (nested (g ++ " do" ++ block)) l =
          .error ⟨8 + byteSize g.toList + 1, .unexpected (.keyword .doKw)⟩ := by
        obtain ⟨written, stop, data⟩ := l
        obtain rfl : written = s.tokens.reverse ++ more := hwritten
        have hstmts := stmts_argument_do file (nested (g ++ " do" ++ block)) n stop data g more
        rw [← htokens] at hstmts
        unfold readBody
        rw [hsize]
        show ((stmts _ _ >>= _) >>= _ : Except Fault (List Expr)) = _
        rw [hstmts]
        rfl
      refine ⟨_, by dsimp only; rw [hread], fun _ _ => rfl⟩

/-- A block with parameters and a statement. -/
theorem parse_nested_do_each : IsName "each" ∧ Parted " |x|\nputs x\nend".toList
    ∧ ∃ f, parse "main" (nested ("each" ++ " do" ++ " |x|\nputs x\nend")) =
        .error (.ofFault "main" (nested ("each" ++ " do" ++ " |x|\nputs x\nend")) f)
      ∧ f.offset = 13 := by
  have hname : IsName "each" := ⟨'e', ['a', 'c', 'h'], rfl, rfl, List.all_eq_true.mp rfl, by decide⟩
  have hparted : Parted " |x|\nputs x\nend".toList := fun _ hc => .inl (Option.some.inj hc).symm
  obtain ⟨f, hparse, hfault⟩ := parse_nested_do "main" hname hparted
  obtain ⟨l, hlex, -⟩ : ∃ l, lex (nested ("each" ++ " do" ++ " |x|\nputs x\nend")) = .ok l
      ∧ l.endData = none := exists_ok_of_any (by decide +kernel)
  refine ⟨hname, hparted, f, hparse, ?_⟩
  rw [hfault l hlex]
  rfl

/-- The body alone is a program, and the call has no tree with it as the argument. -/
theorem parse_nested_block : ∃ body, parse "main" "g do\nend" = .ok ⟨body, none⟩
    ∧ parse "main" (nested "g do\nend") ≠
      .ok ⟨[.call { recv := none, name := "f", args := [.begin body [] none none] }], none⟩ := by
  obtain ⟨⟨body, data⟩, hparse, hnone⟩ :
      ∃ p, parse "main" "g do\nend" = .ok p ∧ p.endData = none :=
    exists_ok_of_any (by decide +kernel)
  obtain rfl : data = none := hnone
  refine ⟨body, hparse, fun hnested => ?_⟩
  have hfails : (parse "main" (nested "g do\nend")).toOption.isNone = true := by decide +kernel
  rw [hnested] at hfails
  cases hfails

end RubyJs
