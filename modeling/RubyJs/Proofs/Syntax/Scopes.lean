import RubyJs.Proofs.Syntax.Words

set_option autoImplicit false

/-! # What reading keeps

Reading changes the scopes in one way only: the innermost gets names that were not known before
(`Extends`). What is known stays known. And reading only takes tokens, so those that are left are
the last of those that were.

`Reads c K owed m S` says so of `m`, and that what it reads is as `S` says. `K` stands for the names
that are known. If all names known in the end are in `K`, whatever is still to be read, what was read
fits. And if it binds names in `K` only, no other names become known by it: a name is known because
something binds it, unless it is one of those that the setting `c` lets get lost.

    Reads c K True (declare x) ⟨fun _ => K x, fun _ => K x⟩

What is read first may be used by what is read then. `bind` leaves it as a hypothesis that it fits,
and as a debt, `owed`, that the whole binds what it binds. Reading that does not touch the scopes at
all is `Quiet`.
-/

namespace RubyJs

open Reading

/-! ## Scopes -/

/-- That the innermost scope has got names that were not known, and nothing else has changed. -/
inductive Extends : List LocalScope → List LocalScope → Prop where
  | intro {s s' : LocalScope} {outer : List LocalScope} (inherits : s'.inherits = s.inherits)
      (keeps : s.names ⊆ s'.names)
      (fresh : ∀ x ∈ s'.names, x ∈ s.names ∨ isLocalIn x (s :: outer) = false) :
      Extends (s :: outer) (s' :: outer)

namespace Extends

variable {a b c : List LocalScope}

theorem refl (h : a ≠ []) : Extends a a := by
  cases a with
  | nil => exact absurd rfl h
  | cons s outer => exact .intro rfl (List.Subset.refl _) fun x hx => Or.inl hx

theorem ne_nil (h : Extends a b) : b ≠ [] := by
  cases h
  exact List.cons_ne_nil _ _

/-- What is known stays known. -/
theorem isLocalIn_mono (h : Extends a b) {x : String} (hx : isLocalIn x a = true) :
    isLocalIn x b = true := by
  cases h with
  | intro hinherits hkeeps hfresh =>
      rw [isLocalIn, Bool.or_eq_true, List.contains_iff_mem] at hx ⊢
      rcases hx with hx | hx
      · exact Or.inl (hkeeps hx)
      · rw [hinherits]
        exact Or.inr hx

theorem trans (h : Extends a b) (h' : Extends b c) : Extends a c := by
  cases h with
  | @intro s s' outer hinherits hkeeps hfresh =>
      cases h' with
      | @intro _ s'' _ hinherits' hkeeps' hfresh' =>
          refine .intro (hinherits'.trans hinherits) (fun x hx => hkeeps' (hkeeps hx)) ?_
          intro x hx
          rcases hfresh' x hx with hx | hx
          · exact hfresh x hx
          · -- A name that is not known in the middle was not known before either.
            cases hknown : isLocalIn x (s :: outer) with
            | false => exact Or.inr rfl
            | true =>
                have hmiddle : Extends (s :: outer) (s' :: outer) := .intro hinherits hkeeps hfresh
                rw [hmiddle.isLocalIn_mono hknown] at hx
                cases hx

end Extends

theorem extends_declareIn {x : String} {a : List LocalScope} (h : a ≠ []) :
    Extends a (declareIn x a) ∧ isLocalIn x (declareIn x a) = true ∧
      ∀ y, isLocalIn y (declareIn x a) = true → y = x ∨ isLocalIn y a = true := by
  cases hknown : isLocalIn x a with
  | true =>
      have hsame : declareIn x a = a := by
        unfold declareIn
        rw [if_pos hknown]
      rw [hsame]
      exact ⟨.refl h, hknown, fun _ => .inr⟩
  | false =>
      unfold declareIn
      rw [if_neg (by simp [hknown])]
      cases a with
      | nil => exact absurd rfl h
      | cons s outer =>
          refine ⟨.intro rfl (List.subset_cons_self _ _) fun y hy => ?_, ?_, fun y hy => ?_⟩
          · rcases List.mem_cons.mp hy with rfl | hy
            · exact Or.inr hknown
            · exact Or.inl hy
          · simp [isLocalIn]
          · simpa [isLocalIn, or_assoc] using hy

/-! ## Reading -/

/-- Where reading may stand, and what is known about it. -/
structure Setting where
  stands : Stream → Prop
  moves : ∀ {b b' : Stream}, stands b → b.Later b' → stands b'
  /-- Whether the tokens are known to carry words. -/
  words : Prop
  worded : words → ∀ {b : Stream}, stands b → b.Worded
  /-- The names that may be known although nothing binds them. -/
  lost : String → Prop

namespace Setting

/-- That a token of this kind may be read. -/
def Meets (c : Setting) (kind : TokenKind) : Prop := ∃ b, c.stands b ∧ b.current.kind = kind

theorem Meets.worded {c : Setting} {kind : TokenKind} (h : c.Meets kind) (hwords : c.words) :
    kind.Worded := by
  obtain ⟨b, hb, rfl⟩ := h
  exact c.worded hwords hb _ List.mem_cons_self

/-- Anywhere, with nothing known. -/
def anywhere : Setting where
  stands _ := True
  moves _ _ := trivial
  words := False
  worded h := h.elim
  lost _ := True

/-- From these tokens on. -/
def since (c : Setting) (b : Stream) : Setting where
  stands b' := c.stands b' ∧ b.Later b'
  moves h hlater := ⟨c.moves h.1 hlater, h.2.trans hlater⟩
  words := c.words
  worded hwords _ h := c.worded hwords h.1
  lost := c.lost

/-- Among the tokens of `l`. -/
def among (l : Lexed) (words : Prop) (h : words → (Stream.ofLexed l).Worded)
    (lost : String → Prop) : Setting where
  stands := (Stream.ofLexed l).Later
  moves := Stream.Later.trans
  words := words
  worded hwords _ hb := (h hwords).later hb
  lost := lost

/-- In the code of a literal, with these tokens. -/
def inside (c : Setting) {text : String} {range : Span} {l : Lexed}
    (h : lexRange text range = .ok l) : Setting :=
  among l c.words (fun _ => worded_of_lexed (.inr ⟨_, h⟩)) c.lost

end Setting

/-- What is said about a thing that is read, for the names in a set: that it fits them, and that it
binds no others. -/
structure Spec (α : Type) where
  fits : α → Prop
  binds : α → Prop

namespace Spec

variable {α : Type}

/-- What fits only if `p` holds. -/
def given (S : Spec α) (p : Prop) : Spec α := ⟨fun a => p → S.fits a, S.binds⟩

/-- What may be there or not. -/
def option (S : Spec α) : Spec (Option α) := ⟨fun o => ∀ a ∈ o, S.fits a, fun o => ∀ a ∈ o, S.binds a⟩

/-- What is read in a scope of its own, where the names in `K` are known around it. It fits all names
that it binds or sees, and binds none around it. -/
def inner (lost K : String → Prop) (inherits : Bool) (S : (String → Prop) → Spec α) : Spec α where
  fits a := ∀ K' : String → Prop, (∀ x, inherits = true ∧ K x ∨ lost x → K' x) →
    (S K').binds a → (S K').fits a
  binds _ := True

end Spec

/-- That reading keeps the scopes and takes tokens. -/
def Quiet {α : Type} (m : Reading α) : Prop :=
  ∀ s a t, m s = .ok (a, t) → t.scopes = s.scopes ∧ s.tokens.Later t.tokens

/-- What holds after `a` was read from `s` to `t`. -/
structure ReadTo {α : Type} (lost K : String → Prop) (owed : Prop) (S : Spec α) (s : ReadState) (a : α)
    (t : ReadState) : Prop where
  scopes : Extends s.scopes t.scopes
  later : s.tokens.Later t.tokens
  owed : S.binds a → owed
  known : (∀ x, isLocalIn x s.scopes = true ∨ lost x → K x) → S.binds a →
    ∀ x, isLocalIn x t.scopes = true → K x
  fits : (∀ x, isLocalIn x t.scopes = true → K x) → S.fits a

/-- What holds after reading from `s`. -/
def ReadsAt {α : Type} (lost K : String → Prop) (owed : Prop) (s : ReadState) (m : Reading α)
    (S : Spec α) : Prop :=
  ∀ a t, m s = .ok (a, t) → ReadTo lost K owed S s a t

/-- What holds after reading from wherever it may begin. -/
def Reads {α : Type} (c : Setting) (K : String → Prop) (owed : Prop) (m : Reading α)
    (S : Spec α) : Prop :=
  ∀ s, s.scopes ≠ [] → c.stands s.tokens → ReadsAt c.lost K owed s m S

namespace Quiet

variable {α β : Type}

theorem pure (a : α) : Quiet (Pure.pure a : Reading α) := by
  intro s b t h
  obtain ⟨-, rfl⟩ := run_ok_inj h
  exact ⟨rfl, .refl _⟩

theorem bind {m : Reading α} {f : α → Reading β} (hm : Quiet m) (hf : ∀ a, Quiet (f a)) :
    Quiet (m >>= f) := by
  intro s b t h
  obtain ⟨a, u, h₁, h₂⟩ := run_bind_eq_ok h
  obtain ⟨hscopes, hlater⟩ := hm s a u h₁
  obtain ⟨hscopes', hlater'⟩ := hf a u b t h₂
  exact ⟨hscopes'.trans hscopes, hlater.trans hlater'⟩

theorem get {f : ReadState → Reading α} (hf : ∀ s, Quiet (f s)) : Quiet (MonadState.get >>= f) :=
  fun s a t h => hf s s a t h

theorem modified {f : ReadState → ReadState} (hscopes : ∀ s, (f s).scopes = s.scopes)
    (hlater : ∀ s : ReadState, s.tokens.Later (f s).tokens) : Quiet (modify f : Reading PUnit) := by
  intro s a t h
  obtain ⟨-, rfl⟩ := run_ok_inj h
  exact ⟨hscopes s, hlater s⟩

theorem throws (f : Fault) : Quiet (throw f : Reading α) := by
  intro s a t h
  cases h

theorem ite {c : Prop} [Decidable c] {m m' : Reading α} (hm : Quiet m) (hm' : Quiet m') :
    Quiet (if c then m else m') := by
  split
  · exact hm
  · exact hm'

theorem releaseDo : Quiet releaseDo := by
  refine get fun s => ?_
  split
  · exact modified (fun _ => rfl) fun _ => .refl _
  · exact get fun _ => throws _

/-! ### Tokens -/

theorem faultAt (offset : Nat) (cause : Cause) : Quiet (Reading.faultAt offset cause : Reading α) :=
  throws _

theorem faultHere (cause : Cause) : Quiet (Reading.faultHere cause : Reading α) :=
  get fun _ => faultAt _ _

theorem faultBefore (cause : Cause) : Quiet (Reading.faultBefore cause : Reading α) :=
  get fun _ => faultAt _ _

theorem currentToken : Quiet currentToken := get fun _ => pure _

theorem peek : Quiet peek := get fun _ => pure _

theorem advance : Quiet advance := by
  intro s a t h
  obtain ⟨-, rfl⟩ := run_ok_inj h
  exact ⟨rfl, s.tokens.later_next⟩

theorem atKind (kind : TokenKind) : Quiet (atKind kind) := peek.bind fun _ => pure _

theorem atKeyword (w : Keyword) : Quiet (atKeyword w) := atKind _

theorem eat (kind : TokenKind) : Quiet (eat kind) :=
  (atKind kind).bind fun _ => ite (advance.bind fun _ => pure _) (pure _)

theorem eatKeyword (w : Keyword) : Quiet (eatKeyword w) := eat _

theorem unexpected : Quiet (unexpected : Reading α) := peek.bind fun _ => faultHere _

theorem expect (kind : TokenKind) (what : String) : Quiet (expect kind what) :=
  (eat kind).bind fun _ => ite (peek.bind fun _ => faultHere _) (pure _)

theorem expectKeyword (w : Keyword) : Quiet (expectKeyword w) := expect _ _

theorem atTerminator : Quiet atTerminator := peek.bind fun _ => pure _

theorem skipTerminators : Quiet skipTerminators :=
  modified (fun _ => rfl) fun s => s.tokens.later_skipWhile _

theorem skipNewlines : Quiet skipNewlines :=
  modified (fun _ => rfl) fun s => s.tokens.later_skipWhile _

theorem requireTerminator : Quiet requireTerminator :=
  atTerminator.bind fun _ => ite skipTerminators unexpected

end Quiet

namespace Reads

variable {α β σ : Type} {c : Setting} {lost K : String → Prop} {owed : Prop} {S T : Spec α} {R : Spec β}
variable {m : Reading α} {f : TokenKind → Reading α}

theorem pure {a : α} (h : S.fits a) (howed : S.binds a → owed) :
    Reads c K owed (Pure.pure a) S := by
  intro s hs _ b t hrun
  obtain ⟨rfl, rfl⟩ := run_ok_inj hrun
  exact ⟨.refl hs, .refl _, howed, fun hK _ x hx => hK x (.inl hx), fun _ => h⟩

/-- What is made of parts in the end fits if they do, and binds no less than they. -/
theorem done {a : α} (h : S.fits a ∧ (S.binds a → owed)) : Reads c K owed (Pure.pure a) S :=
  pure h.1 h.2

/-- The rest may count on where it begins. -/
theorem bindAt {f : α → Reading β} {s : ReadState} {owed' : Prop} (hm : ReadsAt lost K owed' s m S)
    (hf : ∀ a u, m s = .ok (a, u) → ReadTo lost K owed' S s a u →
      ReadsAt lost K (owed ∧ S.binds a) u (f a) (R.given (S.fits a))) :
    ReadsAt lost K owed s (m >>= f) R := by
  intro b t hrun
  obtain ⟨a, u, h₁, h₂⟩ := run_bind_eq_ok hrun
  have ha := hm a u h₁
  have hb := hf a u h₁ ha b t h₂
  refine ⟨ha.scopes.trans hb.scopes, ha.later.trans hb.later, fun hR => (hb.owed hR).1,
    fun hK hR => ?_, fun hK => ?_⟩
  · exact hb.known (fun x hx => hx.elim (ha.known hK (hb.owed hR).2 x) fun h => hK x (.inr h)) hR
  · -- Names that are known in the middle are known in the end.
    exact hb.fits hK (ha.fits fun x hx => hK x (hb.scopes.isLocalIn_mono hx))

theorem owe {owed' : Prop} (hm : Reads c K owed m S) (h : owed → owed') :
    Reads c K owed' m S := fun s hs hstands a t hrun =>
  let hend := hm s hs hstands a t hrun
  { hend with owed := fun hS => h (hend.owed hS) }

/-- The rest takes over what the first part owes. -/
theorem next {f : α → Reading β} (hm : Reads c K owed m S)
    (hf : ∀ a, Reads c K (S.binds a) (f a) (R.given (S.fits a))) :
    Reads c K owed (m >>= f) R := fun s hs hstands =>
  bindAt (hm s hs hstands) fun a u _ ha => (hf a).owe (fun h => ⟨ha.owed h, h⟩) u ha.scopes.ne_nil
    (c.moves hstands ha.later)

theorem bind {f : α → Reading β} (hm : Reads c K True m S)
    (hf : ∀ a, Reads c K (owed ∧ S.binds a) (f a) (R.given (S.fits a))) :
    Reads c K owed (m >>= f) R := fun s hs hstands =>
  bindAt (hm s hs hstands) fun a u _ ha => hf a u ha.scopes.ne_nil (c.moves hstands ha.later)

theorem imp (hm : Reads c K owed m S) (hfits : ∀ a, S.fits a → T.fits a)
    (hbinds : ∀ a, T.binds a → S.binds a) : Reads c K owed m T := by
  intro s hs hstands a t hrun
  obtain ⟨hscopes, hlater, howed, hknown, hS⟩ := hm s hs hstands a t hrun
  exact ⟨hscopes, hlater, fun h => howed (hbinds a h), fun hK h => hknown hK (hbinds a h),
    fun hK => hfits a (hS hK)⟩

/-- What is made of the first part alone may be said first. -/
theorem mapped {γ : Type} {Q : Spec γ} {g : α → β} {f : β → Reading γ} (hm : Reads c K True m S)
    (hfits : ∀ a, S.fits a → R.fits (g a)) (hbinds : ∀ a, R.binds (g a) → S.binds a)
    (hf : ∀ b, Reads c K (owed ∧ R.binds b) (f b) (Q.given (R.fits b))) :
    Reads c K owed (m >>= fun a => Pure.pure (g a) >>= f) Q := by
  refine bind hm fun a s hs hstands => ?_
  refine owe (imp (T := (Q.given (S.fits a))) (hf (g a)) (fun b h ha => h (hfits a ha)) fun _ => id)
    (fun h => ⟨h.1, hbinds a h.2⟩) s hs hstands

/-- The first part may keep the scopes. -/
theorem after {f : α → Reading β} (hm : Quiet m) (hf : ∀ a, Reads c K owed (f a) R) :
    Reads c K owed (m >>= f) R := by
  intro s hs hstands b t hrun
  obtain ⟨a, u, h₁, h₂⟩ := run_bind_eq_ok hrun
  obtain ⟨hscopes, hlater⟩ := hm s a u h₁
  have hend := hf a u (hscopes ▸ hs) (c.moves hstands hlater) b t h₂
  obtain ⟨hext, hlater', howed, hknown, hfits⟩ := hend
  rw [hscopes] at hext hknown
  exact ⟨hext, hlater.trans hlater', howed, hknown, hfits⟩

theorem ite {p : Prop} [Decidable p] {m' : Reading α} (hm : Reads c K owed m S)
    (hm' : Reads c K owed m' S) : Reads c K owed (if p then m else m') S := by
  split
  · exact hm
  · exact hm'

/-- The two sides may count on how the test comes out. -/
theorem ite_of {p : Prop} [Decidable p] {m' : Reading α} (hm : p → Reads c K owed m S)
    (hm' : ¬ p → Reads c K owed m' S) : Reads c K owed (if p then m else m') S := by
  split
  · exact hm ‹_›
  · exact hm' ‹_›

/-! ### Tokens and faults -/

theorem get {f : ReadState → Reading α}
    (hf : ∀ s, s.scopes ≠ [] → c.stands s.tokens → ReadsAt c.lost K owed s (f s) S) :
    Reads c K owed (MonadState.get >>= f) S :=
  fun s hs hstands a t hrun => hf s hs hstands a t hrun

theorem peek (hf : ∀ k, c.Meets k → Reads c K owed (f k) S) :
    Reads c K owed (Reading.peek >>= f) S :=
  get fun s hs hstands => hf _ ⟨_, hstands, rfl⟩ s hs hstands

/-- The rest may count on the tokens before it. -/
theorem advanceAt (hf : ∀ s : ReadState, s.scopes ≠ [] → c.stands s.tokens → c.stands s.tokens.next →
      ReadsAt c.lost K owed { s with tokens := s.tokens.next } (f s.tokens.current.kind) S) :
    Reads c K owed (Reading.advance >>= f) S := by
  intro s hs hstands a t hrun
  obtain ⟨k, u, hk, hrun⟩ := run_bind_eq_ok hrun
  obtain ⟨rfl, rfl⟩ := run_ok_inj hk
  have hnext := s.tokens.later_next
  have hend := hf s hs hstands (c.moves hstands hnext) a t hrun
  exact { hend with later := hnext.trans hend.later }

theorem advance (hf : ∀ k, c.Meets k → Reads c K owed (f k) S) :
    Reads c K owed (Reading.advance >>= f) S :=
  advanceAt fun _ hs hstands hnext => hf _ ⟨_, hstands, rfl⟩ _ hs hnext

theorem throws (f : Fault) : Reads c K owed (throw f : Reading α) S := by
  intro s _ _ a t h
  cases h

theorem faultAt (offset : Nat) (cause : Cause) : Reads c K owed (Reading.faultAt offset cause) S :=
  throws _

theorem faultHere (cause : Cause) : Reads c K owed (Reading.faultHere cause) S := by
  intro s _ _ a t h
  cases h

theorem faultBefore (cause : Cause) : Reads c K owed (Reading.faultBefore cause) S := by
  intro s _ _ a t h
  cases h

theorem unexpected : Reads c K owed (unexpected : Reading α) S :=
  after Quiet.peek fun _ => faultHere _

/-! ### Scopes -/

theorem declare (x : String) : Reads c K True (declare x) ⟨fun _ => K x, fun _ => K x⟩ := by
  intro s hs _ a t hrun
  obtain ⟨-, rfl⟩ := run_ok_inj hrun
  obtain ⟨hext, hnew, hall⟩ := extends_declareIn (x := x) hs
  refine ⟨hext, .refl _, fun _ => trivial, fun hK hx y hy => ?_, fun hK => hK x hnew⟩
  rcases hall y hy with rfl | hy
  · exact hx
  · exact hK y (.inl hy)

theorem isLocal (x : String) :
    Reads c K True (isLocal x) ⟨fun known => known = true → K x, fun _ => True⟩ := by
  intro s hs _ a t hrun
  obtain ⟨rfl, rfl⟩ := run_ok_inj hrun
  exact ⟨.refl hs, .refl _, id, fun hK _ y hy => hK y (.inl hy), fun hK hx => hK x hx⟩

theorem withDoTaken (hm : Reads c K owed m S) (taken : Bool) :
    Reads c K owed (withDoTaken taken m) S := by
  have hset : ∀ n : ReadState → Nat,
      Quiet (modify fun s : ReadState => { s with noDo := n s } : Reading PUnit) :=
    fun _ => Quiet.modified (fun _ => rfl) fun _ => .refl _
  refine ite ?_ ?_
  · refine after (hset _) fun _ => hm.next fun a => after Quiet.releaseDo fun _ => pure id id
  · refine after (Quiet.get fun _ => Quiet.pure _) fun s => after (hset _) fun _ => ?_
    exact hm.next fun a => after (hset _) fun _ => pure id id

/-- Leaving a scope gives back the scopes around it, whatever has been declared in it. -/
theorem leaveScope_run {s t : ReadState} {inner : LocalScope} {around : List LocalScope} {u : Unit}
    (hext : Extends (inner :: around) s.scopes) (h : around ≠ []) (hrun : leaveScope s = .ok (u, t)) :
    t.scopes = around ∧ t.tokens = s.tokens := by
  obtain ⟨scope, outer, rfl⟩ := List.exists_cons_of_ne_nil h
  obtain ⟨tokens, scopes, noDo⟩ := s
  cases hext
  obtain ⟨-, rfl⟩ := run_ok_inj hrun
  exact ⟨rfl, rfl⟩

/-- What is read in a scope of its own leaves the scopes around it alone. -/
theorem inScopeAt {S : (String → Prop) → Spec α} {inherits : Bool} {s : ReadState}
    (hs : s.scopes ≠ [])
    (hm : ∀ K, ReadsAt lost K True { s with scopes := ⟨[], inherits⟩ :: s.scopes } m (S K)) :
    ReadsAt lost K True s (inScope inherits m) (.inner lost K inherits S) := by
  intro a t hrun
  obtain ⟨_, u, henter, hrun⟩ := run_bind_eq_ok hrun
  obtain ⟨-, rfl⟩ := run_ok_inj henter
  obtain ⟨b, v, hread, hrun⟩ := run_bind_eq_ok hrun
  obtain ⟨_, w, hleave, hrun⟩ := run_bind_eq_ok hrun
  obtain ⟨rfl, rfl⟩ := run_ok_inj hrun
  -- Reading has changed the new scope only, so what is left are the scopes as they were.
  obtain ⟨hscopes, htokens⟩ := leaveScope_run (hm K b v hread).scopes hs hleave
  refine ⟨by rw [hscopes]; exact .refl hs, htokens ▸ (hm K b v hread).later, id,
    fun hK _ x hx => hK x (.inl (hscopes ▸ hx)), fun hK K' hK' hbinds => ?_⟩
  have hend := hm K' b v hread
  refine hend.fits (hend.known (fun x hx => hK' x (hx.imp_left fun hx => ?_)) hbinds)
  rw [isLocalIn, List.contains_nil, Bool.false_or, Bool.and_eq_true] at hx
  exact ⟨hx.1, hK x (hscopes ▸ hx.2)⟩

theorem inScope {S : (String → Prop) → Spec α} (hm : ∀ K, Reads c K True m (S K))
    (inherits : Bool) : Reads c K True (inScope inherits m) (.inner c.lost K inherits S) :=
  fun _ hs hstands => inScopeAt hs fun K => hm K _ (List.cons_ne_nil _ _) hstands

/-! ### Repetition -/

/-- What is said after a round of a repetition. -/
def stepSpec (I : Spec σ) (S : Spec α) : Spec (Reading.Step σ α) where
  fits
    | .again s => I.fits s
    | .done a => S.fits a
  binds
    | .again s => I.binds s
    | .done a => S.binds a

/-- What each round keeps holds in the end, if it did in the beginning. -/
theorem repeatFrom (I : Spec σ) {body : σ → Reading (Reading.Step σ α)} {s : σ} {p : Prop}
    (hs : p → I.fits s) (howed : I.binds s → owed)
    (h : ∀ s, Reads c K (I.binds s) (body s) ((stepSpec I S).given (I.fits s))) :
    Reads c K owed (repeatFrom s body) (S.given p) := by
  have hiterate : ∀ (n : Nat) (s : σ),
      Reads c K (I.binds s) (iterate body n s) (S.given (I.fits s)) := by
    intro n
    induction n with
    | zero => exact fun s => faultHere _
    | succ n ih =>
        refine fun s => (h s).next fun r => ?_
        cases r with
        | again s' => exact (ih s').imp (fun a ha hr hs => ha (hr hs)) fun _ => id
        | done a => exact pure (fun hr hs => hr hs) id
  refine get fun u hu hstands => owe (imp (hiterate _ s) (fun a ha hp => ha (hs hp)) ?_) howed u hu hstands
  exact fun _ => id

/-- The first round may begin with what holds anyway. -/
theorem repeatWith (I : Spec σ) {body : σ → Reading (Reading.Step σ α)} {s : σ} (hs : I.fits s)
    (h : ∀ s, Reads c K (I.binds s) (body s) ((stepSpec I S).given (I.fits s))) :
    Reads c K True (Reading.repeatFrom s body) S :=
  (repeatFrom I (p := True) (fun _ => hs) (fun _ => trivial) h).imp (fun _ ha => ha trivial) fun _ => id

end Reads

theorem Quiet.reads {α : Type} {m : Reading α} {c : Setting} {K : String → Prop} (hm : Quiet m) :
    Reads c K True m ⟨fun _ => True, fun _ => True⟩ := by
  intro s hs _ a t hrun
  obtain ⟨hscopes, hlater⟩ := hm s a t hrun
  refine ⟨?_, hlater, id, fun hK _ x hx => hK x (.inl (hscopes ▸ hx)), fun _ => trivial⟩
  rw [hscopes]
  exact .refl hs

end RubyJs
