import RubyJs.Proofs.Runs
import RubyJs.Token.Lexer

set_option autoImplicit false

/-! # Faults of the text and faults of the reader

Most causes name something that is wrong with a text. Two do not: that the bound on the reader's
steps was too small, and that its scopes are not balanced. The lexer has neither of these
(`lex_blames`, `lexRange_blames`), whatever the text is.
-/

namespace RubyJs

/-- Whether a cause is in the text, and not in the reader. -/
def Cause.ofText : Cause → Bool
  | exhausted | unbalanced => false
  | _ => true

/-- That a computation can only fail for a cause that is in the text. -/
def BlamesText {α : Type} (x : Except Fault α) : Prop := ∀ f, x = .error f → f.cause.ofText = true

namespace BlamesText

variable {α β : Type}

theorem ok (a : α) : BlamesText (.ok a) := by
  intro f h
  cases h

theorem error {f : Fault} (h : f.cause.ofText = true) : BlamesText (.error f : Except Fault α) := by
  intro f' hf
  rw [← Except.error.inj hf]
  exact h

theorem bind {x : Except Fault α} {g : α → Except Fault β} (hx : BlamesText x)
    (hg : ∀ a, BlamesText (g a)) : BlamesText (x >>= g) := by
  intro f h
  rcases bind_eq_error h with h | ⟨a, -, h⟩
  · exact hx f h
  · exact hg a f h

theorem ite {c : Prop} [Decidable c] {x y : Except Fault α} (hx : BlamesText x)
    (hy : BlamesText y) : BlamesText (if c then x else y) := by
  split
  · exact hx
  · exact hy

/-! ## Literals -/

theorem codePoint (start : Nat) (ds : List Char) : BlamesText (codePoint start ds) :=
  ite (error rfl) (ite (ok _) (error rfl))

theorem escapeSequence (start : Nat) (cs : List Char) : BlamesText (escapeSequence start cs) := by
  unfold RubyJs.escapeSequence
  split
  case h_1 => exact error rfl
  case h_13 => exact ite (error rfl) (ok _)
  case h_14 => exact ite ((codePoint _ _).bind fun _ => ok _) (error rfl)
  case h_15 => exact (codePoint _ _).bind fun _ => ok _
  all_goals exact ok _

theorem escape (q : Quoting) (closing : Char) (start : Nat) (cs : List Char) :
    BlamesText (q.escape closing start cs) := by
  unfold Quoting.escape
  split
  · exact escapeSequence start cs
  all_goals
    split
    · exact ite (ok _) (ok _)
    · exact ok _

theorem interpolation (cur : Cursor) : BlamesText (interpolation cur) := by
  unfold RubyJs.interpolation
  dsimp only
  split
  · exact error rfl
  · exact ok _

theorem pieces (l : Literal) (fuel depth : Nat) (cur : Cursor) :
    BlamesText (l.pieces fuel depth cur) := by
  induction fuel generalizing depth cur with
  | zero => exact error rfl
  | succ fuel ih =>
      unfold Literal.pieces
      split
      · exact error rfl
      · refine ite (ok _) (ite ?_ (ite ?_ ?_))
        · exact (escape _ _ _ _).bind fun _ => (ih _ _).bind fun _ => ok _
        · exact (interpolation _).bind fun _ => (ih _ _).bind fun _ => ok _
        · exact (ih _ _).bind fun _ => ok _

/-- A literal is read for its body. -/
theorem body {l : Literal} {cur : Cursor} {g : List Segment × Cursor → Except Fault α}
    (hg : ∀ r, BlamesText (g r)) : BlamesText (l.body cur >>= g) :=
  bind ((pieces l _ _ _).bind fun _ => ok _) hg

/-! ## Single tokens -/

theorem checkDigits (start at_ radix : Nat) (ds : List Char) :
    BlamesText (Numeral.checkDigits start at_ radix ds) := by
  refine ite (error rfl) ?_
  split
  · exact error rfl
  · exact ok _

theorem decimal (start : Nat) (cs : List Char) : BlamesText (Numeral.scan.decimal start cs) := by
  unfold Numeral.scan.decimal
  refine ite ?_ (ok _)
  split
  · exact (checkDigits _ _ _ _).bind fun _ => ok _
  · exact ok _

theorem scan (start : Nat) (cs : List Char) : BlamesText (Numeral.scan start cs) := by
  unfold Numeral.scan
  split
  · split
    · exact (checkDigits _ _ _ _).bind fun _ => ok _
    · exact decimal _ _
  · exact decimal _ _

theorem instanceVariable (cur : Cursor) : BlamesText (Lexer.instanceVariable cur) := by
  unfold Lexer.instanceVariable
  dsimp only
  split
  · exact ite (error rfl) (ite (ok _) (error rfl))
  · exact error rfl

theorem globalVariable (cur : Cursor) : BlamesText (Lexer.globalVariable cur) := by
  refine ite (ok _) ?_
  split
  · exact ite (ok _) (error rfl)
  · exact error rfl

theorem colon (last : Option TokenKind) (spaced : Bool) (cur : Cursor) :
    BlamesText (Lexer.colon last spaced cur) := by
  refine ite (ok _) (ite (ok _) ?_)
  split
  · refine ite (body fun _ => ok _) (ite (body fun _ => ok _) (ite (ok _) ?_))
    split <;> exact ok _
  · exact ok _

theorem percentLiteral {cur : Cursor} {x : Except Fault (TokenKind × Cursor)}
    (h : Lexer.percentLiteral? cur = some x) : BlamesText x := by
  unfold Lexer.percentLiteral? at h
  split at h
  · cases h
  · split at h
    · cases h
    · obtain rfl := Option.some.inj h
      split <;> exact body fun _ => ok _

theorem token (last : Option TokenKind) (spaced : Bool) (cur : Cursor) :
    BlamesText (Lexer.token last spaced cur) := by
  unfold Lexer.token
  split
  · exact ok _
  · refine ite (body fun _ => ok _) (ite (body fun _ => ok _) (ite (body fun _ => ok _) ?_))
    refine ite ((scan _ _).bind fun _ => ok _) (ite (instanceVariable _) ?_)
    refine ite (globalVariable _) (ite (colon _ _ _) (ite (error rfl) (ite (ok _) ?_)))
    split
    · rename_i literal hliteral
      split at hliteral
      · exact percentLiteral hliteral
      · cases hliteral
    · split
      · exact ok _
      · exact error rfl

/-! ## The whole text -/

theorem step (s : Lexer.Scan) : BlamesText s.step := by
  refine ite ?_ ?_
  · split
    · exact ok _
    · exact error rfl
  · split
    case h_8 => exact (token _ _ _).bind fun _ => ok _
    all_goals exact ok _

theorem run (marker : Bool) (fuel : Nat) (s : Lexer.Scan) : BlamesText (s.run marker fuel) := by
  induction fuel generalizing s with
  | zero => exact ok _
  | succ fuel ih =>
      refine ite (ok _) ?_
      split
      · exact ok _
      · exact (step s).bind ih

end BlamesText

theorem lex_blames (text : String) : BlamesText (lex text) :=
  (BlamesText.run _ _ _).bind fun _ => .ok _

theorem lexRange_blames (text : String) (span : Span) : BlamesText (lexRange text span) :=
  (BlamesText.run _ _ _).bind fun _ => .ok _

end RubyJs
