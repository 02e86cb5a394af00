import RubyJs.Proofs.Token.Lookahead

/-!
# Data behind a text

A line that consists of the marker `__END__` ends the text, and what follows is data. The module shows
that the marker line and the data change nothing about the tokens of the text before: what stands between
tokens is skipped alike, a step of the loop is the same step with more text behind, and so is a whole run
up to the end of the text, where the marker is found. The code in the braces of its literals reads alike
as well.

The one place where the lexer looks beyond a line end is the dot that continues a call, and a marker line
does not begin with one.
-/

set_option autoImplicit false

namespace RubyJs

namespace Lexer

variable {cs more : List Char}

/-! ## Between tokens -/

theorem lineLength_append (h : LineEnded cs) (more : List Char) :
    lineLength (cs ++ more) = lineLength cs ∧ lineLength cs ≤ cs.length := by
  induction cs with
  | nil => exact absurd rfl h.ne_nil
  | cons c cs ih =>
      by_cases hc : c = '\n'
      · subst hc
        exact ⟨rfl, by simp [lineLength]⟩
      · obtain ⟨hlength, hle⟩ := ih (h.tail hc)
        have hne : ¬ (c == '\n') = true := by simpa using hc
        rw [List.cons_append, lineLength, lineLength, if_neg hne, if_neg hne, hlength, List.length_cons]
        exact ⟨rfl, by omega⟩

/-- The line that ends a document ends before the end of the text, or with it. -/
theorem documentLength_append (h : LineEnded cs) {n : Nat} (hn : documentLength cs = some n)
    (more : List Char) : documentLength (cs ++ more) = some n ∧ n ≤ cs.length := by
  induction cs generalizing n with
  | nil => cases hn
  | cons c cs ih =>
      have hcs : LineEnded cs := by
        refine h.of_append (w := [c]) ?_
        rintro rfl
        simp [documentLength, startsWith] at hn
      have hend := hcs.startsWith_append (s := "=end") (by decide) more
      rw [documentLength] at hn
      rw [List.cons_append, documentLength, hend]
      split at hn
      · rename_i hline
        obtain ⟨hlength, hle⟩ := lineLength_append hcs more
        rw [if_pos hline, hlength]
        obtain rfl := Option.some.inj hn
        exact ⟨rfl, by simpa using hle⟩
      · rename_i hline
        obtain ⟨m, hm, rfl⟩ := Option.map_eq_some_iff.mp hn
        obtain ⟨hlength, hle⟩ := ih hcs hm
        rw [if_neg hline, hlength]
        exact ⟨rfl, by simpa using hle⟩

/-- A dot is looked for behind the text, but not found there. -/
theorem dotFollows_append (h : LineEnded cs ∨ cs = []) (hmore : dotFollows more = false) :
    dotFollows (cs ++ more) = dotFollows cs := by
  rcases h with h | rfl
  · unfold dotFollows
    rw [List.dropWhile_append]
    cases hdrop : cs.dropWhile (fun c => c == ' ' || c == '\t' || c == '\r' || c == '\n') with
    | nil => exact hmore
    | cons d ds =>
        have hsuffix : LineEnded (d :: ds) := by
          obtain ⟨w, hw⟩ := List.dropWhile_suffix (l := cs)
            (fun c => c == ' ' || c == '\t' || c == '\r' || c == '\n')
          rw [hdrop] at hw
          exact (hw ▸ h).of_append (List.cons_ne_nil _ _)
        -- the dot is followed by something in the text
        have hd : d ≠ '\n' := by
          rintro rfl
          have hhead := List.head?_dropWhile_not
            (fun c => c == ' ' || c == '\t' || c == '\r' || c == '\n') cs
          rw [hdrop] at hhead
          simp at hhead
        obtain ⟨e, es, rfl⟩ := List.exists_cons_of_ne_nil (hsuffix.tail hd).ne_nil
        by_cases hdot : d = '.'
        · subst hdot
          rfl
        · simp [hdot]
  · exact hmore

theorem markedData?_append (h : LineEnded cs) (hnone : markedData? cs = none) (more : List Char) :
    markedData? (cs ++ more) = none := by
  unfold markedData? at hnone ⊢
  rw [h.startsWith_append (by decide)]
  split at hnone
  · rename_i hmarker
    have hlt : 7 < cs.length := length_lt_of_startsWith (s := "__END__") (by decide) h hmarker
    rw [if_pos hmarker, List.drop_append_of_le_length (Nat.le_of_lt hlt)]
    have hrest := h.drop hlt
    generalize cs.drop 7 = rest at hrest hnone
    obtain ⟨c, rest, rfl⟩ := List.exists_cons_of_ne_nil hrest.ne_nil
    by_cases hline : c = '\n'
    · subst hline
      cases hnone
    by_cases hreturn : c = '\r'
    · subst hreturn
      obtain ⟨d, rest, rfl⟩ := List.exists_cons_of_ne_nil (hrest.tail hline).ne_nil
      by_cases hd : d = '\n'
      · subst hd
        cases hnone
      · simp [hd]
    · simp [hline, hreturn]
  · rename_i hmarker
    rw [if_neg hmarker]

/-- What stands at the front of a text, between tokens. -/
inductive Gap where
  | blank (n : Nat) (lineStart : Bool)
  | lineEnd
  | none
deriving DecidableEq

/-- What stands at the front of `cs`, documents apart. -/
def gap : List Char → Gap
  | ' ' :: _ | '\t' :: _ | '\r' :: _ => .blank 1 false
  | '\\' :: '\n' :: _ => .blank 2 true
  | '\\' :: '\r' :: '\n' :: _ => .blank 3 true
  | '#' :: cs => .blank (1 + (cs.takeWhile (· != '\n')).length) false
  | '\n' :: _ => .lineEnd
  | _ => .none

theorem gap_append (h : LineEnded cs) (more : List Char) : gap (cs ++ more) = gap cs := by
  obtain ⟨c, cs, rfl⟩ := List.exists_cons_of_ne_nil h.ne_nil
  by_cases hhash : c = '#'
  · subst hhash
    have hcs := h.tail (by decide)
    have hcomment : Inline (List.takeWhile (· != '\n')) := .takeWhile (by decide)
    simp only [List.cons_append, gap, hcomment.append hcs]
  by_cases hslash : c = '\\'
  · subst hslash
    have hcs := h.tail (by decide)
    obtain ⟨d, cs, rfl⟩ := List.exists_cons_of_ne_nil hcs.ne_nil
    by_cases hd : d = '\r'
    · subst hd
      obtain ⟨e, cs, rfl⟩ := List.exists_cons_of_ne_nil (hcs.tail (by decide)).ne_nil
      by_cases he : e = '\n'
      · subst he
        rfl
      · simp [gap, he]
    · by_cases hline : d = '\n'
      · subst hline
        rfl
      · simp [gap, hd, hline]
  by_cases hblank : c = ' ' ∨ c = '\t' ∨ c = '\r' ∨ c = '\n'
  · rcases hblank with rfl | rfl | rfl | rfl <;> rfl
  · simp only [not_or] at hblank
    simp [gap, hhash, hslash, hblank]

/-- What is skipped between tokens and does not end a line stops before the line end. -/
theorem gap_blank (h : LineEnded cs) {n : Nat} {lineStart : Bool} (hgap : gap cs = .blank n lineStart) :
    n ≤ cs.length ∧ (n = cs.length → lineStart = true) := by
  have hcomment : Inline (List.takeWhile (· != '\n')) := .takeWhile (by decide)
  unfold gap at hgap
  split at hgap
  case h_6 cs =>
      have hlt := hcomment.length_lt (h.tail (by decide))
      obtain ⟨rfl, rfl⟩ := Gap.blank.inj hgap
      rw [List.length_cons]
      exact ⟨by omega, fun heq => by omega⟩
  case h_1 | h_2 | h_3 =>
      obtain ⟨rfl, rfl⟩ := Gap.blank.inj hgap
      have hpos := List.length_pos_iff.mpr (h.tail (by decide)).ne_nil
      rw [List.length_cons]
      exact ⟨by omega, fun heq => by omega⟩
  case h_4 | h_5 =>
      obtain ⟨rfl, rfl⟩ := Gap.blank.inj hgap
      simp
  case h_7 | h_8 => cases hgap

theorem gap_lineEnd (hgap : gap cs = .lineEnd) : ∃ cs', cs = '\n' :: cs' := by
  unfold gap at hgap
  split at hgap
  case h_7 cs' => exact ⟨cs', rfl⟩
  all_goals cases hgap

namespace Scan

variable {s s' : Scan} {more : List Char}

/-- What has been read, with more text behind. -/
def append (s : Scan) (more : List Char) : Scan := { s with cursor := s.cursor.append more }

theorem step_eq (s : Scan) : s.step =
    if s.lineStart && startsWith "=begin" s.cursor.rest then
      match documentLength s.cursor.rest with
      | some n => .ok (s.blank n true)
      | none => .error ⟨s.cursor.offset, .unclosedDocument⟩
    else
      match gap s.cursor.rest with
      | .blank n lineStart => .ok (s.blank n lineStart)
      | .lineEnd => .ok s.lineEnd
      | .none => token (s.tokens.head?.map Token.kind) s.spaced s.cursor >>= fun r =>
          .ok (s.push r.1 r.2) := by
  unfold step
  split
  · rfl
  · generalize s.cursor.rest = cs
    split
    case h_8 => simp_all [gap]
    all_goals rfl

/-- That there is text left, which ends in a line end, or that the text ends where a line begins. -/
def Ready (s : Scan) : Prop :=
  LineEnded s.cursor.rest ∨ s.cursor.rest = [] ∧ s.lineStart = true

theorem blank_append {n : Nat} {lineStart : Bool} (h : LineEnded s.cursor.rest)
    (hn : n ≤ s.cursor.rest.length) (hline : n = s.cursor.rest.length → lineStart = true) :
    (s.append more).blank n lineStart = (s.blank n lineStart).append more
      ∧ (s.blank n lineStart).Ready := by
  refine ⟨?_, ?_⟩
  · show ({ s with cursor := (s.cursor.append more).skip n, lineStart := lineStart, spaced := true }) = _
    rw [Cursor.append_skip hn]
    rfl
  · by_cases heq : n = s.cursor.rest.length
    · exact .inr ⟨by simp [blank, Cursor.skip, heq], hline heq⟩
    · exact .inl (Cursor.skip_lineEnded h (by omega))

theorem lineEnd_append {cs : List Char} (h : LineEnded s.cursor.rest)
    (hrest : s.cursor.rest = '\n' :: cs) (hmore : dotFollows more = false) :
    (s.append more).lineEnd = s.lineEnd.append more ∧ s.lineEnd.Ready := by
  have hskip : (s.append more).cursor.skip 1 = (s.cursor.skip 1).append more :=
    Cursor.append_skip (by simp [hrest])
  have hnext : (s.cursor.skip 1).rest = cs := by simp [Cursor.skip, hrest]
  have hcs : LineEnded cs ∨ cs = [] := by
    by_cases hnil : cs = []
    · exact .inr hnil
    · exact .inl ((hrest ▸ h).of_append (w := ['\n']) hnil)
  have hdropped : lineEndDropped s.tokens (cs ++ more) = lineEndDropped s.tokens cs := by
    unfold lineEndDropped
    rw [dotFollows_append hcs hmore]
  have htokens : (s.append more).tokens = s.tokens := rfl
  constructor
  · unfold lineEnd
    dsimp only
    rw [hskip, Cursor.append_rest, hnext, htokens, hdropped]
    split <;> rfl
  · have hcursor : s.lineEnd.cursor.rest = cs := by
      unfold lineEnd
      dsimp only
      split <;> exact hnext
    unfold Ready
    rw [hcursor]
    exact hcs.imp id fun hnil => ⟨hnil, rfl⟩

/-- **A step of the lexer is the same with more text behind**, as long as that does not begin with a
dot, and no line is left in its middle. -/
theorem step_append (h : LineEnded s.cursor.rest) (hmore : dotFollows more = false)
    (hs : s.step = .ok s') : (s.append more).step = .ok (s'.append more) ∧ s'.Ready := by
  have hbegin : startsWith "=begin" (s.append more).cursor.rest =
    startsWith "=begin" s.cursor.rest := h.startsWith_append (by decide) more
  have hgap : gap (s.append more).cursor.rest = gap s.cursor.rest := gap_append h more
  have hstart : (s.append more).lineStart = s.lineStart := rfl
  rw [step_eq] at hs ⊢
  rw [hbegin, hgap, hstart]
  split at hs
  · rename_i hdocument
    rw [if_pos hdocument]
    split at hs
    · rename_i n hn
      obtain ⟨hlength, hle⟩ := documentLength_append h hn more
      obtain ⟨hblank, hready⟩ := blank_append h hle fun _ => rfl
      have hdocument : documentLength (s.append more).cursor.rest = some n := hlength
      rw [hdocument, ← Except.ok.inj hs]
      exact ⟨congrArg Except.ok hblank, hready⟩
    · cases hs
  · rename_i hdocument
    rw [if_neg hdocument]
    cases hcase : gap s.cursor.rest with
    | blank n lineStart =>
        rw [hcase] at hs
        obtain ⟨hle, hline⟩ := gap_blank h hcase
        obtain ⟨hblank, hready⟩ := blank_append h hle hline
        rw [← Except.ok.inj hs]
        exact ⟨congrArg Except.ok hblank, hready⟩
    | lineEnd =>
        rw [hcase] at hs
        obtain ⟨cs, hrest⟩ := gap_lineEnd hcase
        obtain ⟨hlineEnd, hready⟩ := lineEnd_append h hrest hmore
        rw [← Except.ok.inj hs]
        exact ⟨congrArg Except.ok hlineEnd, hready⟩
    | none =>
        rw [hcase] at hs
        obtain ⟨c, cs, hrest⟩ := List.exists_cons_of_ne_nil h.ne_nil
        have hc : c ≠ '\n' := by
          rintro rfl
          rw [hrest] at hcase
          cases hcase
        obtain ⟨⟨kind, next⟩, htoken, hs⟩ := bind_eq_ok hs
        obtain ⟨hnext, hread⟩ :=
          (token_append (s.tokens.head?.map Token.kind) s.spaced h hrest hc more).ok kind next htoken
        obtain rfl := Except.ok.inj hs
        refine ⟨?_, .inl hnext⟩
        show (token (s.tokens.head?.map Token.kind) s.spaced (s.cursor.append more) >>= _) = _
        rw [hread]
        rfl

/-! ## The whole text -/

/-- A turn of the loop is made with more text behind. -/
theorem Turn.append (hturn : Turn true s s') (hready : s.Ready) (hmore : dotFollows more = false) :
    Turn true (s.append more) (s'.append more) ∧ s'.Ready := by
  have h : LineEnded s.cursor.rest := hready.resolve_right fun hnil => hturn.rest hnil.1
  obtain ⟨hstep, hready'⟩ := step_append h hmore hturn.step
  refine ⟨⟨?_, fun hm hl => ?_, hstep⟩, hready'⟩
  · exact fun hnil => h.ne_nil (List.append_eq_nil_iff.mp hnil).1
  · exact markedData?_append h (hturn.unmarked hm hl) more

/-- Where a text is read to its end without a marker line, a marker line behind it is found. -/
theorem run_append {last : Scan} {data : List Char} (hturns : Turns true s last) (hready : s.Ready)
    (hlast : last.cursor.rest = []) (hmore : dotFollows more = false)
    (hdata : markedData? more = some data) {fuel : Nat}
    (hfuel : (s.append more).cursor.rest.length ≤ fuel) :
    run true fuel (s.append more) = .ok (last.tokens.reverse, some data) := by
  induction hturns using Relation.ReflTransGen.head_induction_on generalizing fuel with
  | refl =>
      have hstart : last.lineStart = true :=
        (hready.resolve_left fun h => h.ne_nil hlast).2
      have hrest : (last.append more).cursor.rest = more := by
        show last.cursor.rest ++ more = more
        rw [hlast, List.nil_append]
      have hne : more ≠ [] := by
        rintro rfl
        cases hdata
      have hpos : 0 < more.length := List.length_pos_iff.mpr hne
      obtain ⟨fuel, rfl⟩ : ∃ k, fuel = k + 1 := ⟨fuel - 1, by rw [hrest] at hfuel; omega⟩
      have hstart' : (last.append more).lineStart = true := hstart
      rw [run, hrest, if_neg (by simpa using hne), hstart', Bool.and_self, if_pos rfl, hdata]
      rfl
  | @head s t hturn _ ih =>
      obtain ⟨hturn', hready'⟩ := hturn.append hready hmore
      -- the turn passes a character, so the turns that are left are still enough
      obtain ⟨w, hw⟩ := (step_answers hturn'.rest).ok _ hturn'.step
      have hlen := hw.passes.length_eq
      have hpos : 0 < w.length := List.length_pos_iff.mpr hw.nonempty
      obtain ⟨fuel, rfl⟩ : ∃ k, fuel = k + 1 := ⟨fuel - 1, by omega⟩
      rw [run_succ hturn'.rest hturn'.unmarked, hturn'.step]
      exact ih hready' (by omega)

end Scan

/-- A marker line behind the last line of a text, and data behind it. -/
def marked (eol data : String) : String := "__END__" ++ eol ++ data

theorem markedData?_marked {eol : String} (heol : eol = "\n" ∨ eol = "\r\n") (data : String) :
    markedData? (marked eol data).toList = some data.toList := by
  rcases heol with rfl | rfl <;> simp [marked, markedData?, startsWith]

theorem dotFollows_marked (eol data : String) : dotFollows (marked eol data).toList = false := by
  simp [marked, dotFollows]

/-- **Data behind a text does not change its tokens.** -/
theorem lex_marked {code eol : String} (heol : eol = "\n" ∨ eol = "\r\n") (data : String)
    {l : Lexed} (h : lex (code ++ "\n") = .ok l) (hnone : l.endData = none) :
    lex (code ++ "\n" ++ marked eol data) =
      .ok ⟨l.written, byteSize (code ++ "\n" ++ marked eol data).toList, some data⟩ := by
  have hready : (Scan.ofText (code ++ "\n").toList).Ready := by
    refine .inl ?_
    show (code ++ "\n").toList.getLast? = some '\n'
    simp
  obtain ⟨last, hturns, hends⟩ :=
    Scan.run_ends true (Nat.le_refl (Scan.ofText (code ++ "\n").toList).cursor.rest.length)
  have hrun := lex_eq_map (code ++ "\n")
  rw [h] at hrun
  generalize hfound : Scan.run true _ (Scan.ofText (code ++ "\n").toList) = found at hends
  rw [show (Scan.ofText (code ++ "\n").toList).cursor.rest = (code ++ "\n").toList from rfl]
    at hfound
  rw [hfound] at hrun
  -- without data the loop has come to the end of the text
  cases hends with
  | fault => cases hrun
  | marked =>
      obtain rfl := Except.ok.inj hrun
      cases hnone
  | text hlast =>
      obtain rfl := Except.ok.inj hrun
      have hmore := Scan.run_append hturns hready hlast (dotFollows_marked eol data)
        (markedData?_marked heol data) (Nat.le_refl _)
      have htext : (code ++ "\n" ++ marked eol data).toList =
          (code ++ "\n").toList ++ (marked eol data).toList := String.toList_append
      rw [lex_eq_map, htext]
      have happend : (Scan.ofText (code ++ "\n").toList).append (marked eol data).toList =
          Scan.ofText ((code ++ "\n").toList ++ (marked eol data).toList) := rfl
      rw [happend] at hmore
      rw [show (Scan.ofText ((code ++ "\n").toList ++ (marked eol data).toList)).cursor.rest =
        (code ++ "\n").toList ++ (marked eol data).toList from rfl] at hmore
      rw [hmore]
      simp [Except.map]

end Lexer

theorem charBefore_append {cs : List Char} {offset : Nat} (h : offset ≤ byteSize cs)
    (more : List Char) : charBefore (cs ++ more) offset = charBefore cs offset := by
  -- no character ends before the place where it begins
  have hpast : ∀ (ds : List Char) (seen : Nat), offset ≤ seen → charBefore.go offset seen ds = none := by
    intro ds
    induction ds with
    | nil => exact fun _ _ => rfl
    | cons d ds ih =>
        intro seen hseen
        have hpos := Char.utf8Size_pos d
        rw [charBefore.go, if_neg (by omega), ih _ (by omega)]
  have hgo : ∀ (ds : List Char) (seen : Nat), offset ≤ seen + byteSize ds →
      charBefore.go offset seen (ds ++ more) = charBefore.go offset seen ds := by
    intro ds
    induction ds with
    | nil => exact fun seen hseen => hpast more seen (by simpa using hseen)
    | cons d ds ih =>
        intro seen hseen
        rw [byteSize_cons] at hseen
        rw [List.cons_append, charBefore.go, charBefore.go, ih _ (by omega)]
  exact hgo cs 0 (by simpa using h)

theorem Span.Covers.append {text w : List Char} {s : Span} (h : s.Covers text w) (more : List Char) :
    s.Covers (text ++ more) w := by
  obtain ⟨before, after, rfl, hstart, hstop⟩ := h
  exact ⟨before, after ++ more, by simp only [List.append_assoc], hstart, hstop⟩

/-- Code in a text is read alike when more text follows. -/
theorem lexRange_append {text : String} {range : Span} {w : List Char}
    (h : range.Covers text.toList w) (more : String) :
    lexRange (text ++ more) range = lexRange text range := by
  have hslice : sliceBytes (text ++ more).toList range.start range.stop =
      sliceBytes text.toList range.start range.stop := by
    rw [String.toList_append, (h.append more.toList).sliceBytes_eq, h.sliceBytes_eq]
  have hbefore : charBefore (text ++ more).toList range.start =
      charBefore text.toList range.start := by
    rw [String.toList_append, charBefore_append h.start_boundary.le_byteSize]
  unfold lexRange
  dsimp only
  rw [hslice, hbefore]

end RubyJs
