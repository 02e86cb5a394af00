import RubyJs.Proofs.Syntax.Streams
import RubyJs.Proofs.Syntax.Twins
import RubyJs.Proofs.Token.Faults

set_option autoImplicit false

/-! # Reading that is steady

`Steady T P m m' took` is about reading by `m` from the states of `P`, and by `m'` from states of the
twin text that are alike. It says that `m`

- fails only for a cause that is in the text, so that no bound on its steps was too small and no
  scope was left that had not been entered,
- moves the tokens on and never back, and takes one where `took` holds of what it reads,
- leaves the depth of the scopes and the count of taken `do` as they were, and
- reads what `m'` reads, up to states that are alike. Of one text with itself the two are equal.

The rules that `m` and `m'` may fall back on need not be the same. Below is a rule for each way to put
reading together.

The states are those of `Ready text k`: they stand at a token of `text` with fewer than `k` bytes left
from there. So `k` bounds how deep reading can go on, and every token that is taken lowers it.
-/

namespace RubyJs

open Reading

/-! ## States -/

namespace ReadState

/-- That reading has come from `s` to `t`. The tokens have moved on, past one at least if `took`
holds, and all that was entered in between has been left. -/
structure Moves (took : Prop) (s t : ReadState) : Prop where
  tokens : ∀ ts i, s.tokens.At ts i → ∃ j, i ≤ j ∧ (took → i < j) ∧ t.tokens.At ts j
  scopes : t.scopes.length = s.scopes.length
  noDo : t.noDo = s.noDo

/-- That `s` stands at a token of `text`, with fewer than `k` bytes from there to the end of the part
that is read. -/
structure Ready (text : String) (k : Nat) (s : ReadState) : Prop where
  scopes : s.scopes ≠ []
  tokens : ∃ range l i, Lexed.Cut text range l ∧ s.tokens.At l.tokens i
    ∧ range.stop < s.tokens.current.span.start + k

/-- That moreover the token is `kind`. -/
structure On (text : String) (k : Nat) (kind : TokenKind) (s : ReadState) : Prop where
  ready : s.Ready text k
  kind : s.tokens.current.kind = kind

variable {text : String} {k k' : Nat} {kind : TokenKind} {took took' : Prop} {s t u : ReadState}

theorem Moves.of_tokens {tokens : Stream}
    (h : ∀ ts i, s.tokens.At ts i → ∃ j, i ≤ j ∧ (took → i < j) ∧ tokens.At ts j) :
    s.Moves took { s with tokens } := ⟨h, rfl, rfl⟩

theorem Moves.refl (h : ¬ took) (s : ReadState) : s.Moves took s :=
  .of_tokens fun _ i hat => ⟨i, Nat.le_refl i, fun ht => absurd ht h, hat⟩

theorem Moves.trans (h : s.Moves took t) (h' : t.Moves took' u) : s.Moves (took ∨ took') u := by
  refine ⟨fun ts i hat => ?_, h'.scopes.trans h.scopes, h'.noDo.trans h.noDo⟩
  obtain ⟨j, hij, htook, hat'⟩ := h.tokens ts i hat
  obtain ⟨m, hjm, htook', hat''⟩ := h'.tokens ts j hat'
  refine ⟨m, Nat.le_trans hij hjm, ?_, hat''⟩
  rintro (ht | ht)
  · exact Nat.lt_of_lt_of_le (htook ht) hjm
  · exact Nat.lt_of_le_of_lt hij (htook' ht)

theorem Moves.imp (h : s.Moves took t) (himp : took' → took) : s.Moves took' t := by
  refine ⟨fun ts i hat => ?_, h.scopes, h.noDo⟩
  obtain ⟨j, hij, htook, hat'⟩ := h.tokens ts i hat
  exact ⟨j, hij, fun ht => htook (himp ht), hat'⟩

/-- The current token is taken, unless it is the end of the input. -/
theorem moves_next (hs : s.Ready text k) :
    s.Moves (s.tokens.current.kind ≠ .eof) { s with tokens := s.tokens.next } := by
  refine .of_tokens fun ts i hat => ?_
  by_cases hnext : s.tokens.following = []
  · rw [Stream.next_of_following_eq_nil hnext]
    refine ⟨i, Nat.le_refl i, fun hkind => ?_, hat⟩
    obtain ⟨range, l, m, -, hat', -⟩ := hs.tokens
    exact absurd hnext (hat'.following_ne_nil hkind)
  · exact ⟨i + 1, Nat.le_succ i, fun _ => Nat.lt_succ_self i, hat.next hnext⟩

theorem Ready.mono (h : s.Ready text k) (hk : k ≤ k') : s.Ready text k' := by
  obtain ⟨range, l, i, hcut, hat, hleft⟩ := h.tokens
  exact ⟨h.scopes, range, l, i, hcut, hat, by omega⟩

/-- Where reading comes to it can go on. A token that was taken lowers the bound. -/
theorem Ready.moves {n : Nat} (h : s.Ready text k) (hmoves : s.Moves took t)
    (hn : k ≤ n ∨ took ∧ k ≤ n + 1) : t.Ready text n := by
  obtain ⟨range, l, i, hcut, hat, hleft⟩ := h.tokens
  obtain ⟨j, hij, htook, hat'⟩ := hmoves.tokens _ i hat
  refine ⟨?_, range, l, j, hcut, hat', ?_⟩
  · apply List.ne_nil_of_length_pos
    rw [hmoves.scopes]
    exact List.length_pos_iff.mpr h.scopes
  · have hcurrent : l.tokens[i + (j - i)]? = some t.tokens.current := by
      rw [show i + (j - i) = j by omega]
      exact hat'.current
    have hstart := hcut.placed.start_add_le hat.current hcurrent
    rcases hn with hn | ⟨ht, hn⟩
    · omega
    · have hlt := htook ht
      omega

/-- There is always at least the end of the input left. -/
theorem Ready.pos (h : s.Ready text k) : 0 < k := by
  obtain ⟨range, l, i, hcut, hat, hleft⟩ := h.tokens
  have hle := hcut.placed.start_le_stop hat.current
  omega

/-- After a token that was taken there are fewer tokens left. -/
theorem Ready.length_lt (h : s.Ready text k) (hmoves : s.Moves took t) (ht : took) :
    t.tokens.length < s.tokens.length := by
  obtain ⟨range, l, i, -, hat, -⟩ := h.tokens
  obtain ⟨j, -, htook, hat'⟩ := hmoves.tokens _ i hat
  have hlength := hat.add_length
  have hlength' := hat'.add_length
  have hlt := htook ht
  omega

/-- The scopes and the count do not matter. -/
theorem Ready.of_tokens_eq {scopes : List LocalScope} {noDo : Nat} (h : s.Ready text k)
    (hscopes : scopes ≠ []) : (⟨s.tokens, scopes, noDo⟩ : ReadState).Ready text k :=
  ⟨hscopes, h.tokens⟩

end ReadState

open ReadState (Moves Ready On)

/-- That the code in the segments of a literal is code of the unit, and of fewer than `k` bytes. -/
def CodeFits (text : String) (k : Nat) (segments : List Segment) : Prop :=
  ∀ span, .code span ∈ segments → Lexer.CodeSpan text span ∧ span.start ≤ span.stop
    ∧ span.stop < span.start + k

/-- The code of the current token is shorter than what is left. -/
theorem ReadState.On.fits {text : String} {k n : Nat} {kind : TokenKind} {s : ReadState}
    (h : s.On text k kind) (hk : k ≤ n + 1) : CodeFits text n kind.segments := by
  intro span hcode
  obtain ⟨range, l, i, hcut, hat, hleft⟩ := h.ready.tokens
  rw [← h.kind] at hcode
  obtain ⟨hstart, hle, hstop⟩ := hcut.placed.code_lt hat.current hcode
  exact ⟨hcut.codeSpan (List.mem_of_getElem? hat.current) hcode, hle, by omega⟩

/-! ## Reading -/

variable {α β σ : Type} {T : Twins}

/-- What reading from `s` may come to, by itself and in the twin text. -/
inductive Ends {α : Type} (T : Twins) (took : α → Prop) (s : ReadState) :
    Except Fault (α × ReadState) → Except Fault (α × ReadState) → Prop where
  | fault {f : Fault} {x' : Except Fault (α × ReadState)} (cause : f.cause.ofText = true)
      (equal : T.same → x' = .error f) : Ends T took s (.error f) x'
  | read {a : α} {t t' : ReadState} (moves : s.Moves (took a) t) (alike : t.Alike T t') :
      Ends T took s (.ok (a, t)) (.ok (a, t'))

namespace Ends

variable {took took' : α → Prop} {s t : ReadState} {x x' : Except Fault (α × ReadState)}

/-- What is read from where reading has come to is read from where it began. -/
theorem of_moves {p : Prop} (hmoves : s.Moves p t) (hends : Ends T took t x x')
    (himp : ∀ a, took' a → p ∨ took a) : Ends T took' s x x' := by
  cases hends with
  | fault hcause hequal => exact .fault hcause hequal
  | read hmoves' halike => exact .read ((hmoves.trans hmoves').imp (himp _)) halike

theorem imp (hends : Ends T took s x x') (himp : ∀ a, took' a → took a) : Ends T took' s x x' :=
  of_moves (Moves.refl id s) hends fun a ha => .inr (himp a ha)

theorem eq (hends : Ends T took s x x') (hsame : T.same) : x = x' := by
  cases hends with
  | fault _ hequal => exact (hequal hsame).symm
  | read _ halike => rw [halike.equal hsame]

end Ends

/-- That reading from the states of `P` is steady, by `m` and in the twin text by `m'`. -/
def Steady (T : Twins) (P : ReadState → Prop) (m m' : Reading α) (took : α → Prop) : Prop :=
  ∀ s s', P s → s.Alike T s' → Ends T took s (m s) (m' s')

/-- No token need be taken. -/
abbrev Maybe : α → Prop := fun _ => False

/-- A token is taken. -/
abbrev Always : α → Prop := fun _ => True

/-- A token is taken if a repetition goes on. -/
def GoesOn : Reading.Step σ α → Prop
  | .again _ => True
  | .done _ => False

/-- That reading is steady where fewer than `k` bytes are left. -/
abbrev Tracks (T : Twins) (k : Nat) (m m' : Reading α) : Prop := Steady T (Ready T.left k) m m' Maybe

/-- That moreover it takes a token. -/
abbrev Takes (T : Twins) (k : Nat) (m m' : Reading α) : Prop := Steady T (Ready T.left k) m m' Always

namespace Steady

variable {k : Nat} {P P' : ReadState → Prop} {took : α → Prop} {m m' : Reading α}
variable {b : σ → Reading (Reading.Step σ α)} {took' : β → Prop} {cause : Cause} {n : Nat} {a : α}

theorem of_states (h : Steady T P' m m' took) (hP : ∀ s, P s → P' s) : Steady T P m m' took :=
  fun s s' hs => h s s' (hP s hs)

theorem mono {k' : Nat} (h : Steady T (Ready T.left k') m m' took) (hk : k ≤ k') :
    Steady T (Ready T.left k) m m' took :=
  h.of_states fun _ hs => hs.mono hk

theorem imp {took' : α → Prop} (h : Steady T P m m' took) (himp : ∀ a, took' a → took a) :
    Steady T P m m' took' :=
  fun s s' hs halike => (h s s' hs halike).imp himp

theorem maybe (h : Steady T P m m' took) : Steady T P m m' Maybe := h.imp fun _ => False.elim

theorem pure (h : ¬ took a) : Steady T P (Pure.pure a) (Pure.pure a) took :=
  fun s _ _ halike => .read (Moves.refl h s) halike

theorem value : Steady T P (Pure.pure a) (Pure.pure a) Maybe := pure id

/-- What was taken by the first part need not be taken by the second. -/
theorem bind {k' : Nat} {f f' : α → Reading β} (hm : Steady T P m m' took)
    (hP : ∀ s, P s → s.Ready T.left k) (hk : k ≤ k' + 1)
    (htook : ∀ a, took a → Tracks T k' (f a) (f' a))
    (hmaybe : ∀ a, ¬ took a → Steady T (Ready T.left k) (f a) (f' a) took') :
    Steady T P (m >>= f) (m' >>= f') took' := by
  intro s s' hs halike
  have hends := hm s s' hs halike
  show Ends T took' s (m s >>= fun r => f r.1 r.2) (m' s' >>= fun r => f' r.1 r.2)
  generalize m s = x, m' s' = x' at hends
  cases hends with
  | fault hcause hequal =>
      refine .fault hcause fun hsame => ?_
      rw [hequal hsame]
      rfl
  | @read a t t' hmoves ht =>
      show Ends T took' s (f a t) (f' a t')
      by_cases htaken : took a
      · have hready : t.Ready T.left k' := (hP s hs).moves hmoves (.inr ⟨htaken, hk⟩)
        exact .of_moves hmoves (htook a htaken t t' hready ht) fun _ _ => .inl htaken
      · have hready : t.Ready T.left k := (hP s hs).moves hmoves (.inl (Nat.le_refl k))
        exact .of_moves hmoves (hmaybe a htaken t t' hready ht) fun _ hb => .inr hb

/-- The first part may take a token, or none. -/
theorem after {f f' : α → Reading β} (hm : Steady T (Ready T.left k) m m' took)
    (hf : ∀ a, Steady T (Ready T.left k) (f a) (f' a) took') :
    Steady T (Ready T.left k) (m >>= f) (m' >>= f') took' :=
  hm.maybe.bind (fun _ hs => hs) (Nat.le_succ k) (fun _ h => h.elim) fun a _ => hf a

/-- The first part takes a token. -/
theorem taking {f f' : α → Reading β} (hm : Takes T (k + 1) m m')
    (hf : ∀ a, Tracks T k (f a) (f' a)) :
    Steady T (Ready T.left (k + 1)) (m >>= f) (m' >>= f') took' :=
  hm.bind (fun _ hs => hs) (Nat.le_refl _) (fun a _ => hf a) fun _ h => absurd trivial h

theorem get {f f' : ReadState → Reading α}
    (hf : ∀ s s', s.Alike T s' → Steady T P (f s) (f' s') took) :
    Steady T P (MonadState.get >>= f) (MonadState.get >>= f') took :=
  fun s s' hs halike => hf s s' halike s s' hs halike

theorem ite {c : Prop} [Decidable c] {p p' : Reading α} (hm : Steady T P m m' took)
    (hp : Steady T P p p' took) : Steady T P (if c then m else p) (if c then m' else p') took := by
  split
  · exact hm
  · exact hp

/-! ### Faults -/

theorem fails (h : ∀ s, ∃ f : Fault, f.cause.ofText = true ∧ m s = .error f) :
    Steady T P m m took := by
  intro s s' _ halike
  obtain ⟨f, hcause, hrun⟩ := h s
  rw [hrun]
  exact .fault hcause fun hsame => halike.equal hsame ▸ hrun

theorem faultAt {offset offset' : Nat} (h : cause.ofText = true)
    (hoffset : T.same → offset = offset') :
    Steady T P (Reading.faultAt offset cause : Reading α) (Reading.faultAt offset' cause) took :=
  fun _ _ _ _ => .fault h fun hsame => hoffset hsame ▸ rfl

theorem faultHere (h : cause.ofText = true) :
    Steady T P (Reading.faultHere cause : Reading α) (Reading.faultHere cause) took :=
  fails fun _ => ⟨_, h, rfl⟩

theorem faultBefore (h : cause.ofText = true) :
    Steady T P (Reading.faultBefore cause : Reading α) (Reading.faultBefore cause) took :=
  fails fun _ => ⟨_, h, rfl⟩

theorem unexpected : Steady T P (unexpected : Reading α) Reading.unexpected took :=
  fails fun _ => ⟨_, rfl, rfl⟩

/-! ### Tokens -/

theorem of_on {kind : TokenKind} (h : Steady T (Ready T.left k) m m' took) :
    Steady T (On T.left k kind) m m' took :=
  h.of_states fun _ hs => hs.ready

section Tokens

variable {kind : TokenKind} {f f' : TokenKind → Reading α}
variable {w : Keyword}

/-- What the current token is decides how to go on. -/
theorem peeks (hf : ∀ kind kind', kind.Alike T.code kind' →
      Steady T (On T.left k kind) (f kind) (f' kind') took) :
    Steady T (Ready T.left k) (peek >>= f) (peek >>= f') took :=
  fun s s' hs halike => hf _ _ halike.tokens.current.kind s s' ⟨hs, rfl⟩ halike

/-- What a literal holds does not matter. -/
theorem peeked (hblind : Blind f') (hf : ∀ kind, Steady T (On T.left k kind) (f kind) (f' kind) took) :
    Steady T (Ready T.left k) (peek >>= f) (peek >>= f') took :=
  peeks fun kind _ hkind => hkind.eq_of_blind hblind ▸ hf kind

theorem looked (hblind : Blind f') (hf : ∀ kind, Steady T (Ready T.left k) (f kind) (f' kind) took) :
    Steady T (Ready T.left k) (peek >>= f) (peek >>= f') took :=
  peeked hblind fun kind => of_on (hf kind)

theorem faced {f f' : Token → Reading α} (hf : ∀ t t', t.Alike T.code t' → (T.same → t = t') →
      Steady T (On T.left k t.kind) (f t) (f' t') took) :
    Steady T (Ready T.left k) (currentToken >>= f) (currentToken >>= f') took :=
  fun s s' hs halike => hf _ _ halike.tokens.current (fun hsame => by rw [halike.equal hsame]) s s'
    ⟨hs, rfl⟩ halike

theorem advances (hblind : Blind f') (hf : ∀ kind, Steady T (Ready T.left k) (f kind) (f' kind) took) :
    Steady T (Ready T.left k) (advance >>= f) (advance >>= f') took := by
  intro s s' hs halike
  have hmoves := (ReadState.moves_next hs).imp (False.elim (C := _))
  have hready := hs.moves hmoves (.inl (Nat.le_refl k))
  have hends := hf s.tokens.current.kind _ _ hready (halike.of_tokens halike.tokens.next)
  rw [halike.tokens.current.kind.eq_of_blind hblind] at hends
  exact .of_moves hmoves hends fun _ h => .inr h

/-- A token that is known to be there is taken, and its code is shorter than what was left. -/
theorem advanced {p p' : Reading α} (hkind : kind ≠ .eof) (hk : k ≤ n + 1)
    (hp : CodeFits T.left n kind.segments → Tracks T n p p') :
    Steady T (On T.left k kind) (advance >>= fun _ => p) (advance >>= fun _ => p') took := by
  intro s s' hs halike
  have hmoves := ReadState.moves_next hs.ready
  rw [hs.kind] at hmoves
  have hends := hp (hs.fits hk) _ _ (hs.ready.moves hmoves (.inr ⟨hkind, hk⟩))
    (halike.of_tokens halike.tokens.next)
  exact .of_moves hmoves hends fun _ _ => .inl hkind

theorem atKind (hsees : T.Sees (· == kind)) : Tracks T k (atKind kind) (Reading.atKind kind) := by
  intro s s' _ halike
  have heq : (s.tokens.current.kind == kind) = (s'.tokens.current.kind == kind) :=
    Twins.eq_of_sees halike.tokens.current.kind hsees
  show Ends T Maybe s (.ok (s.tokens.current.kind == kind, s)) (.ok (s'.tokens.current.kind == kind, s'))
  rw [heq]
  exact .read (Moves.refl id s) halike

/-- A token that is there is taken. -/
theorem eats (hsees : T.Sees (· == kind)) : Steady T (Ready T.left k) (eat kind) (Reading.eat kind)
    fun found => found = true ∧ kind ≠ .eof := by
  intro s s' hs halike
  have heq : (s.tokens.current.kind == kind) = (s'.tokens.current.kind == kind) :=
    Twins.eq_of_sees halike.tokens.current.kind hsees
  have hrun : ∀ s, Reading.eat kind s = (if (s.tokens.current.kind == kind) = true
      then (do let _ ← advance; return true) else return false : Reading Bool) s := fun _ => rfl
  rw [hrun, hrun, ← heq]
  by_cases hfound : s.tokens.current.kind = kind
  · rw [if_pos (beq_iff_eq.mpr hfound)]
    refine .read ((ReadState.moves_next hs).imp fun ht => hfound ▸ ht.2) ?_
    exact halike.of_tokens halike.tokens.next
  · rw [if_neg (mt beq_iff_eq.mp hfound)]
    exact .read (Moves.refl (fun ht => absurd ht.1 Bool.false_ne_true) s) halike

theorem eat (hblind : Blind (· == kind)) : Steady T (Ready T.left k) (eat kind) (Reading.eat kind)
    fun found => found = true ∧ kind ≠ .eof := eats (.inr hblind)

/-- Where a token is there it is taken, and nothing more need be. -/
theorem eaten (hblind : Blind (· == kind)) (hkind : kind ≠ .eof) {p p' : Reading α}
    (hm : Tracks T k m m') (hp : Steady T (Ready T.left k) p p' took) :
    Steady T (Ready T.left k) (Reading.eat kind >>= fun found => if found = true then m else p)
      (Reading.eat kind >>= fun found => if found = true then m' else p') took := by
  refine (eat hblind).bind (fun _ hs => hs) (Nat.le_succ k) (fun found ht => ?_) fun found ht => ?_
  · rw [if_pos ht.1, if_pos ht.1]
    exact hm
  · rw [if_neg fun hfound => ht ⟨hfound, hkind⟩, if_neg fun hfound => ht ⟨hfound, hkind⟩]
    exact hp

theorem expects {what : String} (hsees : T.Sees (· == kind)) :
    Tracks T k (expect kind what) (Reading.expect kind what) :=
  after (eats hsees) fun _ => ite (fails fun _ => ⟨_, rfl, rfl⟩) value

theorem expect {what : String} (hblind : Blind (· == kind)) :
    Tracks T k (expect kind what) (Reading.expect kind what) := expects (.inr hblind)

theorem atKeyword : Tracks T k (atKeyword w) (Reading.atKeyword w) := atKind (.inr rfl)

theorem eatKeyword : Steady T (Ready T.left k) (eatKeyword w) (Reading.eatKeyword w)
    fun found => found = true ∧ TokenKind.keyword w ≠ .eof := eat rfl

theorem expectKeyword : Tracks T k (expectKeyword w) (Reading.expectKeyword w) :=
  expect rfl

theorem atTerminator : Tracks T k atTerminator Reading.atTerminator := looked rfl fun _ => value

end Tokens

theorem modified {f f' : ReadState → ReadState}
    (hf : ∀ s s', P s → s.Alike T s' → s.Moves False (f s) ∧ (f s).Alike T (f' s')) :
    Steady T P (modify f : Reading PUnit) (modify f') Maybe :=
  fun s s' hs halike => .read (hf s s' hs halike).1 (hf s s' hs halike).2

theorem skipped {p : TokenKind → Bool} (hp : Blind p) :
    Steady T P (modify fun s => { s with tokens := s.tokens.skipWhile p } : Reading PUnit)
      (modify fun s => { s with tokens := s.tokens.skipWhile p }) Maybe := by
  refine modified fun s s' _ halike => ⟨.of_tokens fun ts i hat => ?_, ?_⟩
  · obtain ⟨j, hij, hat'⟩ := hat.skipWhile p
    exact ⟨j, hij, False.elim, hat'⟩
  · exact halike.of_tokens (halike.tokens.skipWhile hp)

theorem skipTerminators : Steady T P skipTerminators Reading.skipTerminators Maybe := skipped rfl

theorem skipNewlines : Steady T P skipNewlines Reading.skipNewlines Maybe := skipped rfl

theorem requireTerminator : Tracks T k requireTerminator Reading.requireTerminator :=
  after atTerminator fun _ => ite skipTerminators unexpected

/-! ### Scopes and `do` -/

theorem declare (x : String) : Steady T P (declare x) (Reading.declare x) Maybe := by
  refine modified fun s s' _ halike => ⟨⟨fun ts i hat => ⟨i, Nat.le_refl i, False.elim, hat⟩, ?_, rfl⟩, ?_⟩
  · show (declareIn x s.scopes).length = s.scopes.length
    unfold declareIn
    split
    · rfl
    · split <;> simp_all
  · exact ⟨halike.tokens, congrArg (declareIn x) halike.scopes, halike.noDo,
      fun hsame => by rw [halike.equal hsame]⟩

theorem isLocal (x : String) : Steady T P (isLocal x) (Reading.isLocal x) Maybe :=
  get fun _ _ halike => halike.scopes ▸ value

/-- Reading may begin in another state than the one it is called in, and end in another than the one
it comes to. -/
theorem enclosed {p p' : Reading β} {s s' : ReadState} (s₁ s₁' : ReadState)
    (leave leave' : α → Reading β) (hm : Steady T P m m' took) (hs₁ : P s₁)
    (halike : s₁.Alike T s₁') (hp : p s = m s₁ >>= fun r => leave r.1 r.2)
    (hp' : p' s' = m' s₁' >>= fun r => leave' r.1 r.2)
    (hleave : ∀ a t t', s₁.Moves (took a) t → t.Alike T t' →
      Ends T took' s (leave a t) (leave' a t')) : Ends T took' s (p s) (p' s') := by
  have hends := hm s₁ s₁' hs₁ halike
  rw [hp, hp']
  generalize m s₁ = x, m' s₁' = x' at hends
  cases hends with
  | fault hcause hequal =>
      refine .fault hcause fun hsame => ?_
      rw [hequal hsame]
      rfl
  | @read a t t' hmoves ht => exact hleave a t t' hmoves ht

/-- The scope that was entered is there to be left. -/
theorem inScope (hm : Steady T (Ready T.left k) m m' took) (inherits : Bool) :
    Steady T (Ready T.left k) (inScope inherits m) (Reading.inScope inherits m') took := by
  intro s s' hs halike
  have hentered : Ready T.left k ⟨s.tokens, ⟨[], inherits⟩ :: s.scopes, s.noDo⟩ :=
    hs.of_tokens_eq (List.cons_ne_nil _ _)
  refine enclosed _ ⟨s'.tokens, ⟨[], inherits⟩ :: s'.scopes, s'.noDo⟩ (fun a => do leaveScope; return a)
    (fun a => do leaveScope; return a) hm hentered ?_ rfl rfl fun a t t' hmoves ht => ?_
  · exact ⟨halike.tokens, congrArg (_ :: ·) halike.scopes, halike.noDo,
      fun hsame => by rw [halike.equal hsame]⟩
  have hlength : t.scopes.length = s.scopes.length + 1 := hmoves.scopes
  have hpos : 0 < s.scopes.length := List.length_pos_iff.mpr hs.scopes
  obtain ⟨tokens, scopes, noDo⟩ := t
  obtain ⟨tokens', scopes', noDo'⟩ := t'
  obtain rfl : scopes = scopes' := ht.scopes
  match scopes, hlength, ht with
  | inner :: around :: outer, hlength, ht =>
      refine .read ⟨hmoves.tokens, Nat.succ.inj hlength, hmoves.noDo⟩
        ⟨ht.tokens, rfl, ht.noDo, fun hsame => ?_⟩
      cases ht.equal hsame
      rfl
  | [inner], hlength, _ =>
      rw [List.length_singleton] at hlength
      omega

/-- A `do` that was taken is there to be released. -/
theorem withDoTaken (hm : Steady T (Ready T.left k) m m' took) (taken : Bool) :
    Steady T (Ready T.left k) (withDoTaken taken m) (Reading.withDoTaken taken m') took := by
  intro s s' hs halike
  have hcounted : ∀ count : Nat → Nat, (⟨s.tokens, s.scopes, count s.noDo⟩ : ReadState).Alike T
      ⟨s'.tokens, s'.scopes, count s'.noDo⟩ := fun count =>
    ⟨halike.tokens, halike.scopes, congrArg count halike.noDo, fun hsame => by rw [halike.equal hsame]⟩
  cases taken with
  | true =>
      have htaken : Ready T.left k ⟨s.tokens, s.scopes, s.noDo + 1⟩ := hs.of_tokens_eq hs.scopes
      refine enclosed _ _ (fun a => do releaseDo; return a) (fun a => do releaseDo; return a) hm htaken
        (hcounted (· + 1)) rfl rfl fun a t t' hmoves ht => ?_
      obtain ⟨tokens, scopes, noDo⟩ := t
      obtain ⟨tokens', scopes', noDo'⟩ := t'
      obtain rfl : noDo = s.noDo + 1 := hmoves.noDo
      obtain rfl : s.noDo + 1 = noDo' := ht.noDo
      refine .read ⟨hmoves.tokens, hmoves.scopes, rfl⟩ ⟨ht.tokens, ht.scopes, rfl, fun hsame => ?_⟩
      cases ht.equal hsame
      rfl
  | false =>
      have hfree : Ready T.left k ⟨s.tokens, s.scopes, 0⟩ := hs.of_tokens_eq hs.scopes
      refine enclosed _ _ (fun a t => .ok (a, { t with noDo := s.noDo }))
        (fun a t => .ok (a, { t with noDo := s'.noDo })) hm hfree (hcounted fun _ => 0) rfl rfl
        fun a t t' hmoves ht => ?_
      refine .read ⟨hmoves.tokens, hmoves.scopes, rfl⟩ ⟨ht.tokens, ht.scopes, halike.noDo, fun hsame => ?_⟩
      rw [ht.equal hsame, halike.equal hsame]

/-! ### Repetition -/

theorem done : Steady T P (Pure.pure (Reading.Step.done a : Reading.Step σ α))
    (Pure.pure (.done a)) GoesOn := pure id

theorem iterate_error {x : σ} {s : ReadState} {f : Fault} (h : b x s = .error f) :
    Reading.iterate b (n + 1) x s = .error f := by
  show (b x s >>= _) = _
  rw [h]
  rfl

theorem iterate_done {x : σ} {s t : ReadState} (h : b x s = .ok (.done a, t)) :
    Reading.iterate b (n + 1) x s = .ok (a, t) := by
  show (b x s >>= _) = _
  rw [h]
  rfl

theorem iterate_again {x x' : σ} {s t : ReadState} (h : b x s = .ok (.again x', t)) :
    Reading.iterate b (n + 1) x s = Reading.iterate b n x' t := by
  show (b x s >>= _) = _
  rw [h]
  rfl

/-- A repetition that takes a token whenever it goes on ends before its bound. -/
theorem iterate {body body' : σ → Reading (Reading.Step σ α)}
    (h : ∀ x, Steady T (Ready T.left k) (body x) (body' x) GoesOn) (n : Nat) (x : σ) :
    Steady T (fun s => s.Ready T.left k ∧ s.tokens.length ≤ n) (iterate body n x)
      (Reading.iterate body' n x) Maybe := by
  induction n generalizing x with
  | zero =>
      rintro s s' ⟨-, hlength⟩
      exact absurd hlength (Nat.not_succ_le_zero _)
  | succ n ih =>
      rintro s s' ⟨hs, hlength⟩ halike
      have hends := h x s s' hs halike
      generalize hrun : body x s = y, hrun' : body' x s' = y' at hends
      cases hends with
      | fault hcause hequal =>
          rw [iterate_error hrun]
          exact .fault hcause fun hsame => iterate_error (hrun'.trans (hequal hsame))
      | @read step t t' hmoves ht =>
          cases step with
          | done a =>
              rw [iterate_done hrun, iterate_done hrun']
              exact .read hmoves ht
          | again x' =>
              have hless := hs.length_lt hmoves trivial
              rw [iterate_again hrun, iterate_again hrun']
              have hends' := ih x' t t' ⟨hs.moves hmoves (.inl (Nat.le_refl k)), by omega⟩ ht
              exact .of_moves hmoves hends' fun _ hb => .inr hb

theorem repeatFrom {body body' : σ → Reading (Reading.Step σ α)} {x : σ}
    (h : ∀ x, Steady T (Ready T.left k) (body x) (body' x) GoesOn) :
    Tracks T k (repeatFrom x body) (Reading.repeatFrom x body') := by
  intro s s' hs halike
  show Ends T Maybe s (Reading.iterate body (s.tokens.length + 1) x s)
    (Reading.iterate body' (s'.tokens.length + 1) x s')
  rw [← halike.tokens.length_eq]
  exact iterate h _ x s s' ⟨hs, Nat.le_succ _⟩ halike

end Steady

end RubyJs
