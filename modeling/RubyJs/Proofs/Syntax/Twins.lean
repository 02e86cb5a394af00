import Mathlib.Data.List.Forall2
import RubyJs.Proofs.Token.Safety
import RubyJs.Syntax.Reading

set_option autoImplicit false

/-! # Two texts that read alike

Tokens of two texts are alike if they differ only in where they stand. The code in the braces of
a literal is known by its place, so for it there is a relation, which says which places correspond.
`Twins` are two texts with such a relation: code that corresponds has tokens that are alike again.

A text is its own twin (`Twins.refl`), with each place for itself. There what is alike is equal.
-/

namespace RubyJs

/-! ## Tokens -/

/-- That two segments are the same text, or code that corresponds. -/
inductive Segment.Alike (R : Span → Span → Prop) : Segment → Segment → Prop
  | text (t : String) : Alike R (.text t) (.text t)
  | code {span span' : Span} (h : R span span') : Alike R (.code span) (.code span')

/-- That two kinds of token are the same, up to the places of the code in them. -/
inductive TokenKind.Alike (R : Span → Span → Prop) : TokenKind → TokenKind → Prop
  | plain {kind : TokenKind} (h : kind.segments = []) : Alike R kind kind
  | str {ss ss' : List Segment} (h : List.Forall₂ (Segment.Alike R) ss ss') :
      Alike R (.str ss) (.str ss')
  | xstr {ss ss' : List Segment} (h : List.Forall₂ (Segment.Alike R) ss ss') :
      Alike R (.xstr ss) (.xstr ss')
  | dsymbol {ss ss' : List Segment} (h : List.Forall₂ (Segment.Alike R) ss ss') :
      Alike R (.dsymbol ss) (.dsymbol ss')

/-- That two tokens differ only in where they stand. -/
structure Token.Alike (R : Span → Span → Prop) (t t' : Token) : Prop where
  kind : t.kind.Alike R t'.kind
  spaced : t.spaced = t'.spaced

/-- That `f` looks at a literal only for what it is, not for what it holds. -/
def Blind {α : Type _} (f : TokenKind → α) : Prop :=
  (fun ss => (f (.str ss), f (.xstr ss), f (.dsymbol ss)))
    = fun _ => (f (.str []), f (.xstr []), f (.dsymbol []))

section Tokens

variable {R : Span → Span → Prop}

theorem Segment.forall₂_alike_self {ss : List Segment} (h : ∀ span, .code span ∈ ss → R span span) :
    List.Forall₂ (Segment.Alike R) ss ss := by
  refine List.forall₂_same.mpr fun s hs => ?_
  cases s with
  | text t => exact .text t
  | code span => exact .code (h span hs)

theorem TokenKind.Alike.eq_of_blind {kind kind' : TokenKind} (h : kind.Alike R kind') {α : Type _}
    {f : TokenKind → α} (hf : Blind f) : f kind = f kind' := by
  have hsame : ∀ ss ss', f (.str ss) = f (.str ss') ∧ f (.xstr ss) = f (.xstr ss')
      ∧ f (.dsymbol ss) = f (.dsymbol ss') := fun ss ss' => by
    have hheld := (congrFun hf ss).trans (congrFun hf ss').symm
    simpa only [Prod.mk.injEq] using hheld
  cases h with
  | plain => rfl
  | str => exact (hsame _ _).1
  | xstr => exact (hsame _ _).2.1
  | dsymbol => exact (hsame _ _).2.2

theorem Segment.eq_of_forall₂_alike (hR : ∀ span span', R span span' → span = span')
    {ss ss' : List Segment} (h : List.Forall₂ (Segment.Alike R) ss ss') : ss = ss' := by
  induction h with
  | nil => rfl
  | cons hs _ ih =>
      cases hs with
      | text t => rw [ih]
      | code hspan => rw [hR _ _ hspan, ih]

theorem TokenKind.Alike.eq {kind kind' : TokenKind} (h : kind.Alike R kind')
    (hR : ∀ span span', R span span' → span = span') : kind = kind' := by
  cases h with
  | plain => rfl
  | str h => rw [Segment.eq_of_forall₂_alike hR h]
  | xstr h => rw [Segment.eq_of_forall₂_alike hR h]
  | dsymbol h => rw [Segment.eq_of_forall₂_alike hR h]

/-- A token is like itself if its code is in places that correspond to themselves. -/
theorem Token.Alike.refl {t : Token} (h : ∀ span, .code span ∈ t.kind.segments → R span span) :
    t.Alike R t := by
  refine ⟨?_, rfl⟩
  cases hkind : t.kind
  case str ss => exact .str (Segment.forall₂_alike_self fun span hs => h span (by rwa [hkind]))
  case xstr ss => exact .xstr (Segment.forall₂_alike_self fun span hs => h span (by rwa [hkind]))
  case dsymbol ss =>
    exact .dsymbol (Segment.forall₂_alike_self fun span hs => h span (by rwa [hkind]))
  all_goals exact .plain rfl

theorem Token.alike_endOfInput (stop stop' : Nat) :
    (Token.endOfInput stop).Alike R (Token.endOfInput stop') := ⟨.plain rfl, rfl⟩

end Tokens

/-! ## Texts -/

/-- Two texts, and the places where code in them corresponds. If they are the same text, `same` may
hold; then only equal places correspond. -/
structure Twins where
  left : String
  right : String
  code : Span → Span → Prop
  same : Prop
  lexed : ∀ {span span' : Span} {l : Lexed}, code span span' → lexRange left span = .ok l →
    ∃ l', lexRange right span' = .ok l' ∧ List.Forall₂ (Token.Alike code) l.written l'.written
  equal : same → left = right ∧ ∀ span span', code span span' → span = span'

namespace Twins

/-- A text and itself. -/
abbrev refl (text : String) : Twins where
  left := text
  right := text
  code := Eq
  same := True
  lexed := by
    rintro span _ l rfl hlex
    exact ⟨l, hlex, List.forall₂_same.mpr fun t _ => .refl fun _ _ => rfl⟩
  equal _ := ⟨rfl, fun _ _ h => h⟩

/-- That `f` does not tell tokens apart that are alike. -/
def Sees {α : Type _} (T : Twins) (f : TokenKind → α) : Prop := T.same ∨ Blind f

variable {T : Twins}

theorem lexRange_eq (hsame : T.same) {span span' : Span} (h : T.code span span') :
    lexRange T.right span' = lexRange T.left span := by
  rw [(T.equal hsame).1, (T.equal hsame).2 _ _ h]

theorem eq_of_sees {kind kind' : TokenKind} (h : kind.Alike T.code kind') {α : Type _}
    {f : TokenKind → α} (hf : T.Sees f) : f kind = f kind' := by
  rcases hf with hsame | hblind
  · exact congrArg f (h.eq (T.equal hsame).2)
  · exact h.eq_of_blind hblind

end Twins

/-! ## States -/

/-- That the tokens left to read are alike. -/
structure Stream.Alike (R : Span → Span → Prop) (s s' : Stream) : Prop where
  current : s.current.Alike R s'.current
  following : List.Forall₂ (Token.Alike R) s.following s'.following

/-- That reading goes on alike. -/
structure ReadState.Alike (T : Twins) (s s' : ReadState) : Prop where
  tokens : s.tokens.Alike T.code s'.tokens
  scopes : s.scopes = s'.scopes
  noDo : s.noDo = s'.noDo
  equal : T.same → s = s'

namespace Stream

variable {R : Span → Span → Prop} {s s' : Stream}

theorem alike_ofLexed {l l' : Lexed} (h : List.Forall₂ (Token.Alike R) l.written l'.written) :
    (ofLexed l).Alike R (ofLexed l') := by
  obtain ⟨written, stop, data⟩ := l
  obtain ⟨written', stop', data'⟩ := l'
  cases h with
  | nil => exact ⟨Token.alike_endOfInput _ _, .nil⟩
  | cons ht hts => exact ⟨ht, List.rel_append hts (.cons (Token.alike_endOfInput _ _) .nil)⟩

theorem Alike.next (h : s.Alike R s') : s.next.Alike R s'.next := by
  obtain ⟨previous, current, following⟩ := s
  obtain ⟨previous', current', following'⟩ := s'
  obtain ⟨hcurrent, hfollowing⟩ := h
  cases hfollowing with
  | nil => exact ⟨hcurrent, .nil⟩
  | cons ht hts => exact ⟨ht, hts⟩

theorem Alike.skipWhile (h : s.Alike R s') {p : TokenKind → Bool} (hp : Blind p) :
    (s.skipWhile p).Alike R (s'.skipWhile p) := by
  obtain ⟨previous, current, following⟩ := s
  obtain ⟨previous', current', following'⟩ := s'
  have hcurrent : current.Alike R current' := h.current
  have hrest : List.Forall₂ (Token.Alike R) following following' := h.following
  clear h
  show (skipWhile.go p previous current following).Alike R
    (skipWhile.go p previous' current' following')
  induction hrest generalizing previous previous' current current' with
  | nil => exact ⟨hcurrent, .nil⟩
  | cons ht hts ih =>
      have hkind : p current.kind = p current'.kind := hcurrent.kind.eq_of_blind hp
      rw [skipWhile.go, skipWhile.go, hkind]
      split
      · exact ih _ _ _ _ ht
      · exact ⟨hcurrent, .cons ht hts⟩

theorem Alike.second (h : s.Alike R s') : s.second.Alike R s'.second := by
  obtain ⟨previous, current, following⟩ := s
  obtain ⟨previous', current', following'⟩ := s'
  obtain ⟨hcurrent, hfollowing⟩ := h
  cases hfollowing with
  | nil => exact hcurrent
  | cons ht => exact ht

theorem Alike.refl {text : String} (s : Stream) : s.Alike (Twins.refl text).code s :=
  ⟨.refl fun _ _ => rfl, List.forall₂_same.mpr fun _ _ => .refl fun _ _ => rfl⟩

theorem Alike.length_eq (h : s.Alike R s') : s.length = s'.length :=
  congrArg (· + 1) h.following.length_eq

end Stream

theorem ReadState.Alike.refl {text : String} (s : ReadState) : s.Alike (Twins.refl text) s :=
  ⟨.refl _, rfl, rfl, fun _ => rfl⟩

/-- Only the tokens change. -/
theorem ReadState.Alike.of_tokens {T : Twins} {s s' : ReadState} (h : s.Alike T s')
    {f : Stream → Stream} (hf : (f s.tokens).Alike T.code (f s'.tokens)) :
    ReadState.Alike T { s with tokens := f s.tokens } { s' with tokens := f s'.tokens } :=
  ⟨hf, h.scopes, h.noDo, fun hsame => by rw [h.equal hsame]⟩

end RubyJs
