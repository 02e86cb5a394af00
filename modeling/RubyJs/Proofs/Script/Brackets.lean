import RubyJs.Decimal.Numbers
import RubyJs.Script.Printer

set_option autoImplicit false

/-! # Brackets of a text

A text is read from left to right, and the brackets that are open are kept, innermost first. A
closing bracket has to belong to the innermost open one. Between double quotes nothing is a bracket,
and a backslash takes the character after it along:

    f(a[0], ")")        balanced
    f(a[0)]             not balanced: `)` meets the open `[`

`Moves before after text` says what `text` does to the open brackets, whatever is open further out.
Most texts are `Closed`: they leave open what was open. The lines of a statement do so only
together, so there is a form for lists of lines (`LinesMove`), each of which begins and ends outside
of strings.
-/

namespace RubyJs.Script

/-! ## Reading -/

/-- The kinds of brackets. -/
inductive Bracket where
  | round
  | square
  | curly
deriving DecidableEq, Repr

namespace Bracket

/-- The kind that a character opens. -/
def opened? (c : Char) : Option Bracket :=
  if c = '(' then some round else if c = '[' then some square
  else if c = '\x7b' then some curly else none

/-- The kind that a character closes. -/
def closed? (c : Char) : Option Bracket :=
  if c = ')' then some round else if c = ']' then some square
  else if c = '\x7d' then some curly else none

end Bracket

/-- Where reading is with respect to strings. -/
inductive Quoting where
  | outside
  | inside
  /-- In a string, after a backslash. -/
  | escaped
deriving DecidableEq, Repr

/-- What is open after a part of a text. -/
structure Opened where
  /-- The open brackets, innermost first. -/
  brackets : List Bracket := []
  quoting : Quoting := .outside
deriving DecidableEq, Repr

namespace Opened

/-- What is open after another character; `none` if it closes what is not the innermost open
bracket. -/
def read (o : Opened) (c : Char) : Option Opened :=
  match o.quoting with
  | .escaped => some { o with quoting := .inside }
  | .inside =>
    if c = '\x22' then some { o with quoting := .outside }
    else if c = '\\' then some { o with quoting := .escaped }
    else some o
  | .outside =>
    if c = '\x22' then some { o with quoting := .inside }
    else
      match Bracket.opened? c, Bracket.closed? c with
      | some b, _ => some { o with brackets := b :: o.brackets }
      | none, none => some o
      | none, some b =>
        match o.brackets with
        | [] => none
        | b' :: bs => if b = b' then some { o with brackets := bs } else none

/-- What is open after more characters. -/
def readAll (o : Opened) : List Char → Option Opened
  | [] => some o
  | c :: cs => (o.read c).bind fun o' => o'.readAll cs

theorem readAll_append (o : Opened) (u v : List Char) :
    o.readAll (u ++ v) = (o.readAll u).bind fun o' => o'.readAll v := by
  induction u generalizing o with
  | nil => rfl
  | cons c u ih =>
      rw [List.cons_append, readAll, readAll, Option.bind_assoc]
      exact congrArg _ (funext fun o' => ih o')

/-- Characters that change nothing. -/
theorem readAll_eq_self {o : Opened} {cs : List Char} (h : ∀ c ∈ cs, o.read c = some o) :
    o.readAll cs = some o := by
  induction cs with
  | nil => rfl
  | cons c cs ih =>
      obtain ⟨hc, hcs⟩ := List.forall_mem_cons.mp h
      rw [readAll, hc]
      exact ih hcs

end Opened

/-- That the brackets of a text are nested and all its strings end. -/
def Balanced (text : String) : Prop := Opened.readAll {} text.toList = some {}

instance (text : String) : Decidable (Balanced text) := by
  unfold Balanced
  infer_instance

/-! ## Texts -/

/-- That a text closes the innermost open brackets `before` and leaves `after` in their place. -/
def Moves (before after : List Bracket) (text : String) : Prop :=
  ∀ outer, Opened.readAll ⟨before ++ outer, .outside⟩ text.toList = some ⟨after ++ outer, .outside⟩

/-- That a text leaves open what was open. -/
abbrev Closed (text : String) : Prop := Moves [] [] text

section Texts

variable {a b c : List Bracket} {s t : String}

theorem Moves.append (hs : Moves a b s) (ht : Moves b c t) : Moves a c (s ++ t) := by
  intro outer
  rw [String.toList_append, Opened.readAll_append, hs outer]
  exact ht outer

/-- What is open further out does not matter. -/
theorem Moves.within (hs : Moves a b s) (c : List Bracket) : Moves (a ++ c) (b ++ c) s := by
  intro outer
  rw [List.append_assoc, List.append_assoc]
  exact hs _

theorem Closed.moves (hs : Closed s) : Moves a a s := Moves.within hs a

theorem closed_empty : Closed "" := fun _ => rfl

theorem Closed.balanced (hs : Closed s) : Balanced s := hs []

/-- A closed text between brackets is closed. -/
theorem Closed.between {left right : String} (hs : Closed s) (hleft : Moves [] a left)
    (hright : Moves a [] right) : Closed (left ++ s ++ right) :=
  (hleft.append hs.moves).append hright

end Texts

/-! ## Plain texts -/

/-- The characters that count outside of strings. -/
def delimiters : List Char := ['(', ')', '[', ']', '\x7b', '\x7d', '\x22']

/-- That a text has no brackets and no quotes. -/
def Plain (text : String) : Prop := ∀ c ∈ text.toList, c ∉ delimiters

instance (text : String) : Decidable (Plain text) := List.decidableBAll _ text.toList

theorem Opened.read_plain {c : Char} (h : c ∉ delimiters) (bs : List Bracket) :
    Opened.read ⟨bs, .outside⟩ c = some ⟨bs, .outside⟩ := by
  simp only [delimiters, List.mem_cons, List.not_mem_nil, or_false, not_or] at h
  simp [Opened.read, Bracket.opened?, Bracket.closed?, h]

theorem Plain.closed {text : String} (h : Plain text) : Closed text :=
  fun _ => Opened.readAll_eq_self fun c hc => Opened.read_plain (h c hc) _

theorem Plain.append {s t : String} (hs : Plain s) (ht : Plain t) : Plain (s ++ t) := by
  intro c hc
  rw [String.toList_append, List.mem_append] at hc
  exact hc.elim (hs c) (ht c)

theorem plain_ofList {cs : List Char} (h : ∀ c ∈ cs, c ∉ delimiters) :
    Plain (String.ofList cs) := by
  intro c hc
  rw [String.toList_ofList] at hc
  exact h c hc

/-- No delimiter is among the characters of a class that is checked not to have one. -/
theorem not_mem_delimiters {p : Char → Bool} {c : Char} (h : p c = true)
    (hp : delimiters.all (!p ·) = true) : c ∉ delimiters := by
  intro hc
  have hnot := List.all_eq_true.mp hp c hc
  rw [h] at hnot
  cases hnot

theorem plain_join {ss : List String} (h : ∀ s ∈ ss, Plain s) : Plain (String.join ss) := by
  induction ss with
  | nil =>
      rw [String.join_nil]
      decide
  | cons s ss ih =>
      obtain ⟨hs, hss⟩ := List.forall_mem_cons.mp h
      rw [String.join_cons]
      exact hs.append (ih hss)

/-! ## Digits and numbers -/

theorem digitChar_not_mem (n : Nat) : Nat.digitChar n ∉ delimiters := by
  by_cases hn : n < 16
  · have hall : ∀ d < 16, Nat.digitChar d ∉ delimiters := by decide
    exact hall n hn
  · have hstar : Nat.digitChar n = '*' := by
      unfold Nat.digitChar
      repeat rw [if_neg (by omega)]
    rw [hstar]
    decide

theorem toDigits_not_mem {base : Nat} (hbase : 1 < base) (n : Nat) :
    ∀ c ∈ Nat.toDigits base n, c ∉ delimiters := by
  induction n using Nat.strongRecOn with
  | ind n ih =>
      rw [Nat.toDigits_eq_if hbase]
      by_cases hn : n < base
      · rw [if_pos hn]
        simpa using digitChar_not_mem n
      · rw [if_neg hn]
        have hless : n / base < n := Nat.div_lt_self (by omega) hbase
        intro c hc
        rcases List.mem_append.mp hc with hc | hc
        · exact ih _ hless c hc
        · rw [List.mem_singleton.mp hc]
          exact digitChar_not_mem _

theorem plain_toString (n : Nat) : Plain (toString n) := by
  rw [Nat.toString_eq_ofList_toDigits]
  exact plain_ofList (toDigits_not_mem (by decide) n)

theorem plain_hex (n : Nat) : Plain (Text.hex n) := plain_ofList (toDigits_not_mem (by decide) n)

theorem Plain.ite {p : Prop} [Decidable p] {s t : String} (hs : Plain s) (ht : Plain t) :
    Plain (if p then s else t) := by
  split
  · exact hs
  · exact ht

theorem plain_digitText (ds : List Nat) : Plain (Numbers.digitText ds) := by
  refine plain_ofList fun c hc => ?_
  obtain ⟨d, -, rfl⟩ := List.mem_map.mp hc
  exact digitChar_not_mem d

theorem plain_zeros (n : Nat) : Plain (Numbers.zeros n) := by
  refine plain_ofList fun c hc => ?_
  rw [List.eq_of_mem_replicate hc]
  decide

theorem plain_positional (d : Shortest.Digits) : Plain (Numbers.positional d) := by
  unfold Numbers.positional
  have hzero : Plain "0." := by decide
  have hpoint : Plain "." := by decide
  refine .ite ((hzero.append (plain_zeros _)).append (plain_digitText _)) (.ite ?_ ?_)
  · exact (plain_digitText _).append (plain_zeros _)
  · exact ((plain_digitText _).append hpoint).append (plain_digitText _)

theorem plain_scientific (d : Shortest.Digits) : Plain (Numbers.scientific d) := by
  unfold Numbers.scientific
  have hsign : Plain (if d.point - 1 < 0 then "e-" else "e+") := .ite (by decide) (by decide)
  refine Plain.append (Plain.append ?_ hsign) (plain_toString _)
  split
  · decide
  · exact plain_digitText _
  · have hpoint : Plain "." := by decide
    exact ((plain_digitText _).append hpoint).append (plain_digitText _)

theorem plain_floatText (raw : String) : Plain (Numbers.floatText raw) := by
  unfold Numbers.floatText Numbers.text
  split
  · decide
  · exact .ite (by decide) (by decide)
  · refine .ite (by decide) (Plain.append (.ite (by decide) (by decide)) ?_)
    exact .ite (plain_positional _) (plain_scientific _)

theorem plain_integerText {raw text : String} (h : Numbers.integerText? raw = some text) :
    Plain text := by
  simp only [Numbers.integerText?] at h
  split at h
  · split at h
    · obtain rfl := Option.some.inj h
      exact Plain.append (.ite (by decide) (by decide)) (plain_toString _)
    · cases h
  · cases h

/-! ## Strings and names -/

/-- However a character is written in a string, the string goes on after it. -/
theorem Opened.readAll_escape (bs : List Bracket) (c : Char) :
    Opened.readAll ⟨bs, .inside⟩ (escape c) = some ⟨bs, .inside⟩ := by
  have hread : ∀ d : Char, d ≠ '\x22' ∧ d ≠ '\\' →
      Opened.read ⟨bs, .inside⟩ d = some ⟨bs, .inside⟩ := by
    rintro d ⟨hquote, hslash⟩
    simp [Opened.read, hquote, hslash]
  have hdigit : ∀ d < 16, Nat.digitChar d ≠ '\x22' ∧ Nat.digitChar d ≠ '\\' := by decide
  unfold escape
  by_cases hquote : c = '\x22'
  · rw [if_pos (by simpa using hquote)]
    rfl
  rw [if_neg (by simpa using hquote)]
  by_cases hslash : c = '\\'
  · rw [if_pos (by simpa using hslash)]
    rfl
  rw [if_neg (by simpa using hslash)]
  -- The characters that have a letter of their own.
  iterate 5
    split
    · rfl
  split
  · show Opened.readAll ⟨bs, .inside⟩ (escape.hexDigits4 c.toNat) = _
    refine Opened.readAll_eq_self fun d hd => hread d ?_
    simp only [escape.hexDigits4, List.mem_cons, List.not_mem_nil, or_false] at hd
    rcases hd with rfl | rfl | rfl | rfl <;> exact hdigit _ (Nat.mod_lt _ (by decide))
  · exact Opened.readAll_eq_self (by simpa using hread c ⟨hquote, hslash⟩)

theorem closed_stringLiteral (text : String) : Closed (stringLiteral text) := by
  intro outer
  have hbody : ∀ cs : List Char, Opened.readAll ⟨outer, .inside⟩ (cs.flatMap escape) =
      some ⟨outer, .inside⟩ := by
    intro cs
    induction cs with
    | nil => rfl
    | cons c cs ih =>
        rw [List.flatMap_cons, Opened.readAll_append, Opened.readAll_escape]
        exact ih
  have hopen : Opened.read ⟨outer, .outside⟩ '\x22' = some ⟨outer, .inside⟩ := rfl
  rw [stringLiteral, String.toList_ofList, List.nil_append, Opened.readAll, hopen,
    Option.bind_some, Opened.readAll_append, hbody]
  rfl

theorem plain_of_isIdentifier {text : String} (h : isIdentifier text = true) : Plain text := by
  unfold isIdentifier at h
  intro c hc
  split at h
  · exact absurd h Bool.false_ne_true
  · rename_i d ds hlist
    rw [Bool.and_eq_true, List.all_eq_true] at h
    rw [hlist] at hc
    rcases List.mem_cons.mp hc with rfl | hc
    · exact not_mem_delimiters h.1 (by decide)
    · exact not_mem_delimiters (h.2 c hc) (by decide)

theorem closed_methodAccess (name : String) : Closed (methodAccess name) := by
  unfold methodAccess
  by_cases hident : isIdentifier (methodProperty name) = true
  · rw [if_pos hident]
    have hdot : Closed "." := fun _ => rfl
    exact hdot.append (plain_of_isIdentifier hident).closed
  · rw [if_neg hident]
    exact (closed_stringLiteral _).between (a := [.square]) (fun _ => rfl) fun _ => rfl

theorem plain_spelledChar (c : Char) : Plain (spelledChar c) := by
  unfold spelledChar
  split
  case h_18 =>
    by_cases hletter : (c.isAlphanum || c == '_') = true
    · rw [if_pos hletter]
      intro d hd
      obtain rfl : d = c := by simpa [Char.toString] using hd
      exact not_mem_delimiters (p := fun c => c.isAlphanum || c == '_') hletter (by decide)
    · rw [if_neg hletter]
      exact Plain.append (by decide) (plain_hex _)
  all_goals decide

theorem plain_functionName (name : String) : Plain (functionName name) := by
  refine Plain.append (by decide) (plain_join fun s hs => ?_)
  obtain ⟨c, -, rfl⟩ := List.mem_map.mp hs
  exact plain_spelledChar c

theorem Plain.localName {name : String} (h : Plain name) : Plain (localName name) :=
  .ite (h.append (by decide)) h

theorem Plain.instanceProperty {name : String} (h : Plain name) : Plain (instanceProperty name) :=
  .ite (h.append (by decide)) h

theorem plain_temp (index : Nat) : Plain (Name.temp index).text :=
  Plain.append (by decide) (plain_toString _)

/-! ## Lines -/

/-- What lines do to the open brackets, one after the other. -/
inductive LinesMove : List Bracket → List Bracket → List String → Prop where
  | nil {a : List Bracket} : LinesMove a a []
  | cons {a b c : List Bracket} {l : String} {ls : List String} (line : Moves a b l)
      (lines : LinesMove b c ls) : LinesMove a c (l :: ls)

/-- That lines leave open what was open. -/
abbrev ClosedLines (ls : List String) : Prop := LinesMove [] [] ls

namespace LinesMove

variable {a b c : List Bracket} {ls ls' : List String}

theorem line {l : String} (h : Moves a b l) : LinesMove a b [l] := .cons h .nil

theorem append (h : LinesMove a b ls) (h' : LinesMove b c ls') : LinesMove a c (ls ++ ls') := by
  induction h with
  | nil => exact h'
  | cons hline _ ih => exact .cons hline (ih h')

theorem within (h : LinesMove a b ls) (d : List Bracket) : LinesMove (a ++ d) (b ++ d) ls := by
  induction h with
  | nil => exact .nil
  | cons hline _ ih => exact .cons (hline.within d) ih

theorem map {f : String → String} (h : LinesMove a b ls)
    (hf : ∀ a b l, Moves a b l → Moves a b (f l)) : LinesMove a b (ls.map f) := by
  induction h with
  | nil => exact .nil
  | cons hline _ ih => exact .cons (hf _ _ _ hline) ih

theorem join (h : LinesMove a b ls) : Moves a b (String.join ls) := by
  induction h with
  | nil =>
      rw [String.join_nil]
      exact closed_empty.moves
  | cons hline _ ih =>
      rw [String.join_cons]
      exact hline.append ih

theorem intercalate (h : LinesMove a b ls) {sep : String} (hsep : Closed sep) :
    Moves a b (sep.intercalate ls) := by
  induction h with
  | nil => exact closed_empty.moves
  | @cons a b c l ls hline hlines ih =>
      cases ls with
      | nil =>
          cases hlines
          rw [String.intercalate_singleton]
          exact hline
      | cons l' ls =>
          rw [String.intercalate_cons_cons]
          exact (hline.append hsep.moves).append ih

end LinesMove

theorem ClosedLines.moves {a : List Bracket} {ls : List String} (h : ClosedLines ls) :
    LinesMove a a ls := LinesMove.within h a

theorem closedLines_of_forall {ls : List String} (h : ∀ l ∈ ls, Closed l) : ClosedLines ls := by
  induction ls with
  | nil => exact .nil
  | cons l ls ih =>
      obtain ⟨hl, hls⟩ := List.forall_mem_cons.mp h
      exact .cons hl (ih hls)

theorem closed_commas {items : List String} (h : ∀ s ∈ items, Closed s) : Closed (commas items) :=
  (closedLines_of_forall h).intercalate fun _ => rfl

theorem closed_pad (indent : Nat) : Closed (pad indent) := by
  induction indent with
  | zero => exact closed_empty
  | succ n ih =>
      have hblanks : Closed "  " := fun _ => rfl
      exact hblanks.append ih

end RubyJs.Script
