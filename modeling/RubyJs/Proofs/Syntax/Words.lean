import RubyJs.Proofs.Token.Safety
import RubyJs.Syntax.Reading

set_option autoImplicit false

/-! # Words in a stream of tokens

The names that tokens carry are words: they are made of letters, digits and underscores, with a mark
at most at the end. Taking tokens leaves this true of those that are left.
-/

namespace RubyJs

/-! ## Words -/

/-- That a name is made of the characters of words. -/
def IsWord (name : String) : Prop := ∀ c ∈ name.toList, IsWordChar c

/-- That a name is a word with a capital letter. -/
def IsConstant (name : String) : Prop := IsWord name ∧ isConstant name.toList = true

/-- That the name that a token is, if it is one, is a word; a constant has a capital letter.
Integers have digits. -/
def TokenKind.Worded : TokenKind → Prop
  | ident name | ivar name => IsWord name
  | const name => IsConstant name
  | int text => Numbers.isNumeral (Numbers.cleaned text) = true
  | _ => True

theorem TokenKind.SpelledBy.worded {kind : TokenKind} {w : List Char} (h : kind.SpelledBy w) :
    kind.Worded := by
  cases kind with
  | ident name =>
      obtain ⟨rfl, hchars⟩ := h
      exact hchars
  | const name =>
      obtain ⟨rfl, hchars⟩ := h
      exact hchars
  | ivar name => exact h.2
  | int text => exact h
  | _ => trivial

/-- The names of the tokens that the loop has read are words. -/
theorem Lexer.Scan.Turns.worded {marker : Bool} {s s' : Scan} (hturns : Turns marker s s')
    (h : ∀ t ∈ s.tokens, t.kind.Worded) : ∀ t ∈ s'.tokens, t.kind.Worded := by
  induction hturns with
  | refl => exact h
  | tail _ hturn ih =>
      obtain ⟨w, hmove⟩ := hturn.moves
      rcases hmove.tokens with hsame | ⟨kind, hwritten, -, hnew⟩
      · exact hsame ▸ ih
      · rw [hnew]
        exact List.forall_mem_cons.mpr ⟨hwritten.spelled.worded, ih⟩

/-- That the tokens left in `t` are the last of those left in `s`. -/
def Stream.Later (s t : Stream) : Prop := t.current :: t.following <:+ s.current :: s.following

/-- That the names of the tokens of a stream are words. -/
def Stream.Worded (s : Stream) : Prop := ∀ t ∈ s.current :: s.following, t.kind.Worded

namespace Stream

variable {s t u : Stream}

theorem left_ofLexed (l : Lexed) : (ofLexed l).current :: (ofLexed l).following = l.tokens := by
  unfold ofLexed Lexed.tokens
  split <;> simp [*]

theorem Later.refl (s : Stream) : s.Later s := List.suffix_refl _

theorem Later.trans (h : s.Later t) (h' : t.Later u) : s.Later u := List.IsSuffix.trans h' h

theorem Later.mem (h : s.Later t) : t.current ∈ s.current :: s.following :=
  h.subset List.mem_cons_self

theorem Worded.later (h : s.Worded) (ht : s.Later t) : t.Worded := fun u hu => h u (ht.subset hu)

theorem later_next (s : Stream) : s.Later s.next := by
  unfold Stream.next
  split
  · exact .refl s
  · rename_i hfollowing
    unfold Later
    rw [hfollowing]
    exact List.suffix_cons _ _

theorem later_skipWhile (s : Stream) (p : TokenKind → Bool) : s.Later (s.skipWhile p) := by
  obtain ⟨previous, current, following⟩ := s
  show Later _ (skipWhile.go p previous current following)
  induction following generalizing previous current with
  | nil => exact .refl _
  | cons t ts ih =>
      unfold skipWhile.go
      split
      · exact List.IsSuffix.trans (ih (some current) t) (List.suffix_cons _ _)
      · exact List.suffix_refl _

end Stream

theorem worded_of_lexed {text : String} {l : Lexed}
    (h : lex text = .ok l ∨ ∃ range, lexRange text range = .ok l) : (Stream.ofLexed l).Worded := by
  obtain ⟨marker, start, last, hstart, hturns, hwritten⟩ := Lexer.turns_of_lexed h
  intro t ht
  rw [Stream.left_ofLexed, Lexed.tokens, List.mem_append, List.mem_singleton] at ht
  rcases ht with ht | rfl
  · rw [hwritten, List.mem_reverse] at ht
    exact hturns.worded (by simp [hstart]) t ht
  · trivial

end RubyJs
