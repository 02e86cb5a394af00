import RubyJs.Proofs.Syntax.Total
import RubyJs.Proofs.Token.Quotation

set_option autoImplicit false

/-! # Units of one expression

The loose rules of the grammar (statements, modifiers, `and` and `or`, `not`, assignment,
conditional and range) hand on what the rule for chains of operators reads, if nothing stands behind
it (`parse_of_binary`). So a unit that is one string is read as the text of the string.
-/

namespace RubyJs

open Reading Grammar

/-! ## What stands ahead -/

/-- That the tokens from the current one on are of the kinds `ks`. -/
def ReadState.Ahead (ks : List TokenKind) (s : ReadState) : Prop :=
  s.tokens.current.kind :: s.tokens.following.map Token.kind = ks

namespace ReadState

variable {s : ReadState} {k k' : TokenKind} {ks : List TokenKind}

theorem Ahead.kind (h : s.Ahead (k :: ks)) : s.tokens.current.kind = k := (List.cons.inj h).1

theorem Ahead.length (h : s.Ahead ks) : s.tokens.length = ks.length := by
  rw [← h, List.length_cons, List.length_map]
  rfl

theorem ahead_ofLexed (l : Lexed) (scopes : List LocalScope) (noDo : Nat) :
    Ahead (l.written.map Token.kind ++ [.eof]) ⟨Stream.ofLexed l, scopes, noDo⟩ := by
  unfold Ahead Stream.ofLexed
  cases l.written with
  | nil => rfl
  | cons t ts => simp [Token.endOfInput]

theorem Ahead.peek (h : s.Ahead (k :: ks)) : peek s = .ok (k, s) := by
  rw [← h.kind]
  rfl

theorem Ahead.advance (h : s.Ahead (k :: k' :: ks)) :
    ∃ t, advance s = .ok (k, t) ∧ t.Ahead (k' :: ks) := by
  refine ⟨{ s with tokens := s.tokens.next }, ?_, ?_⟩
  · rw [← h.kind]
    rfl
  · obtain ⟨⟨previous, current, following⟩, scopes, noDo⟩ := s
    cases following with
    | nil => exact absurd (List.cons.inj h).2 (by simp)
    | cons t ts => exact (List.cons.inj h).2

theorem Ahead.atKind (h : s.Ahead (k :: ks)) (kind : TokenKind) :
    atKind kind s = .ok (k == kind, s) := by
  rw [← h.kind]
  rfl

theorem Ahead.not_eat (h : s.Ahead (k :: ks)) {kind : TokenKind} (hne : k ≠ kind) :
    eat kind s = .ok (false, s) := by
  unfold eat
  rw [run_bind_of_ok (h.atKind kind), beq_eq_false_iff_ne.mpr hne]
  rfl

theorem Ahead.eat (h : s.Ahead (k :: k' :: ks)) :
    ∃ t, eat k s = .ok (true, t) ∧ t.Ahead (k' :: ks) := by
  obtain ⟨t, hadvance, ht⟩ := h.advance
  refine ⟨t, ?_, ht⟩
  unfold Reading.eat
  rw [run_bind_of_ok (h.atKind k), beq_self_eq_true]
  exact run_bind_of_ok hadvance

/-- Where the current token has another kind, nothing is skipped. -/
theorem Ahead.skipWhile (h : s.Ahead (k :: ks)) {p : TokenKind → Bool} (hp : p k = false) :
    s.tokens.skipWhile p = s.tokens := by
  obtain ⟨⟨previous, current, following⟩, scopes, noDo⟩ := s
  obtain rfl : current.kind = k := h.kind
  cases following <;> simp [Stream.skipWhile, Stream.skipWhile.go, hp]

end ReadState

/-! ## Rules that hand on -/

namespace Grammar

open ReadState

variable {r : Rules} {s t : ReadState} {e : Expr} {k : TokenKind} {ks : List TokenKind}

theorem range_of_binary (h : binary r 0 s = .ok (e, t)) (ht : t.Ahead [.eof]) :
    range r s = .ok (e, t) := by
  unfold range
  rw [run_bind_of_ok h, run_bind_of_ok ht.peek]
  rfl

theorem ternary_of_binary (h : binary r 0 s = .ok (e, t)) (ht : t.Ahead [.eof]) :
    ternary r s = .ok (e, t) := by
  unfold ternary
  rw [run_bind_of_ok (range_of_binary h ht), run_bind_of_ok (ht.not_eat (by simp))]
  rfl

theorem expr_of_binary (h : binary r 0 s = .ok (e, t)) (ht : t.Ahead [.eof]) :
    expr r s = .ok (e, t) := by
  have hstart : currentToken s = .ok (s.tokens.current, s) := rfl
  unfold expr
  rw [run_bind_of_ok hstart, run_bind_of_ok (ternary_of_binary h ht), run_bind_of_ok ht.peek]
  rfl

/-- That a statement can begin with a token of the kind `k`, other than `not`. -/
def Begins (k : TokenKind) : Prop :=
  isTerminator k = false ∧ endsBody k = false ∧ k ≠ .keyword .notKw

theorem notExpr_of_binary (hs : s.Ahead (k :: ks)) (hk : Begins k)
    (h : binary r 0 s = .ok (e, t)) (ht : t.Ahead [.eof]) : notExpr r s = .ok (e, t) := by
  unfold notExpr eatKeyword
  rw [run_bind_of_ok (hs.not_eat hk.2.2)]
  exact expr_of_binary h ht

theorem repeatFrom_done {σ α : Type} {body : σ → Reading (Step σ α)} {x : σ} {a : α}
    {s t : ReadState} (h : body x s = .ok (.done a, t)) : repeatFrom x body s = .ok (a, t) :=
  Steady.iterate_done h

theorem repeatFrom_once {σ α : Type} {body : σ → Reading (Step σ α)} {x y : σ} {a : α}
    {s t u : ReadState} (h : body x s = .ok (.again y, t)) (hdone : body y t = .ok (.done a, u)) :
    repeatFrom x body s = .ok (a, u) :=
  (Steady.iterate_again h).trans (Steady.iterate_done hdone)

theorem exprStmt_of_binary (hs : s.Ahead (k :: ks)) (hk : Begins k)
    (h : binary r 0 s = .ok (e, t)) (ht : t.Ahead [.eof]) : exprStmt r s = .ok (e, t) := by
  unfold exprStmt
  rw [run_bind_of_ok (notExpr_of_binary hs hk h ht)]
  refine repeatFrom_done ?_
  unfold eatKeyword
  rw [run_bind_of_ok (ht.not_eat (by simp))]
  exact run_bind_of_ok (ht.not_eat (by simp))

theorem stmt_of_binary (hs : s.Ahead (k :: ks)) (hk : Begins k)
    (h : binary r 0 s = .ok (e, t)) (ht : t.Ahead [.eof]) : stmt r s = .ok (e, t) := by
  unfold stmt
  rw [run_bind_of_ok (exprStmt_of_binary hs hk h ht)]
  exact repeatFrom_done (run_bind_of_ok ht.peek)

theorem skipNewlines_of (hs : s.Ahead (k :: ks)) (hk : k ≠ .newline) :
    skipNewlines s = .ok ((), s) := by
  have hskip : s.tokens.skipWhile (· == TokenKind.newline) = s.tokens :=
    hs.skipWhile (beq_eq_false_iff_ne.mpr hk)
  show Except.ok ((), { s with tokens := s.tokens.skipWhile (· == TokenKind.newline) }) = _
  rw [hskip]

theorem skipTerminators_of (hs : s.Ahead (k :: ks)) (hk : isTerminator k = false) :
    skipTerminators s = .ok ((), s) := by
  show Except.ok ((), { s with tokens := s.tokens.skipWhile isTerminator }) = _
  rw [hs.skipWhile hk]

/-- The statements of a unit with one expression are that expression. -/
theorem stmts_of_binary (hs : s.Ahead (k :: ks)) (hk : Begins k)
    (h : binary r 0 s = .ok (e, t)) (ht : t.Ahead [.eof]) : stmts r s = .ok ([e], t) := by
  unfold stmts
  -- the first turn reads the expression, the second one finds the end
  refine repeatFrom_once (y := [e]) (t := t) ?_ ?_
  · rw [run_bind_of_ok (skipTerminators_of hs hk.1), run_bind_of_ok hs.peek, hk.2.1]
    simp only [Bool.false_eq_true, if_false]
    rw [run_bind_of_ok (stmt_of_binary hs hk h ht), run_bind_of_ok ht.peek, run_bind_of_ok ht.peek]
    rfl
  · rw [run_bind_of_ok (skipTerminators_of ht rfl), run_bind_of_ok ht.peek]
    rfl

/-! ## Operands -/

/-- That nothing which belongs to the operand before follows with a token of the kind `k`. -/
def EndsOperand (k : TokenKind) : Prop := k ≠ .dot ∧ k ≠ .colonColon ∧ k ≠ .lbracket

theorem trailers_of_ahead (hs : s.Ahead (k :: ks)) (hk : EndsOperand k) :
    trailers r e s = .ok (e, s) := by
  obtain ⟨hdot, hcolons, hbracket⟩ := hk
  rw [← hs.kind] at hdot hcolons hbracket
  have htoken : currentToken s = .ok (s.tokens.current, s) := rfl
  refine repeatFrom_done ?_
  rw [run_bind_of_ok htoken]
  -- only three kinds of tokens go on with an operand
  generalize s.tokens.current.kind = kind at hdot hcolons hbracket
  cases kind
  case dot => exact absurd rfl hdot
  case colonColon => exact absurd rfl hcolons
  case lbracket => exact absurd rfl hbracket
  all_goals rfl

theorem power_of_ahead (hs : s.Ahead (k :: ks)) (hk : k ≠ .pow) : power r e s = .ok (e, s) := by
  unfold power
  rw [run_bind_of_ok (hs.not_eat hk)]
  rfl

end Grammar

/-- A unit whose chain of operators goes on to its end is that chain. -/
theorem parse_of_binary {file text : String} {l : Lexed} {k : TokenKind} {ks : List TokenKind}
    {e : Expr} {t : ReadState} (hlex : lex text = .ok l)
    (hkinds : l.written.map Token.kind = k :: ks) (hk : Begins k)
    (h : binary (Rules.level file text (text.utf8ByteSize + 1)) 0
      ⟨Stream.ofLexed l, [⟨[], false⟩], 0⟩ = .ok (e, t)) (ht : t.Ahead [.eof]) :
    parse file text = .ok ⟨[e], l.endData⟩ := by
  have hs := ReadState.ahead_ofLexed l [⟨[], false⟩] 0
  rw [hkinds] at hs
  have hbody : readBody file text l = .ok [e] := by
    have heof : expect .eof "end of input" t = .ok ((), { t with tokens := t.tokens.next }) := by
      unfold expect eat
      rw [run_bind_of_ok (run_bind_of_ok (ht.atKind .eof))]
      rfl
    unfold readBody
    dsimp only
    rw [run_bind_of_ok (stmts_of_binary hs hk h ht), run_bind_of_ok heof]
    rfl
  unfold parse
  rw [hlex]
  dsimp only
  rw [hbody]

/-! ## Strings -/

namespace Grammar

open ReadState

variable {r : Rules} {s t : ReadState} {e : Expr} {x : String}

/-- A string without code, and with no other one behind it, is its text. -/
theorem strings_of_text (hs : s.Ahead [.eof]) : strings r [.text x] s = .ok (.str x, s) := by
  have hparts : parts r [.text x] s = .ok ([.lit x], s) := rfl
  have htext : plainText? [.lit x] = some x := by simp [plainText?]
  unfold strings
  rw [run_bind_of_ok hparts, run_bind_of_ok (repeatFrom_done (run_bind_of_ok hs.peek)), htext]
  rfl

theorem binary_of_text (hs : s.Ahead [.str [.text x], .eof]) :
    ∃ t, binary r 0 s = .ok (.str x, t) ∧ t.Ahead [.eof] := by
  obtain ⟨t, hadvance, ht⟩ := hs.advance
  have hprimary : primary r s = .ok (.str x, t) := by
    have htoken : currentToken s = .ok (s.tokens.current, s) := rfl
    unfold primary primary.taken
    rw [run_bind_of_ok htoken, run_bind_of_ok hs.peek]
    exact (run_bind_of_ok hadvance).trans (strings_of_text ht)
  have hunary : unary r s = .ok (.str x, t) := by
    unfold unary
    rw [run_bind_of_ok hs.peek]
    show (primary r >>= _) s = _
    rw [run_bind_of_ok hprimary, run_bind_of_ok (trailers_of_ahead ht (by simp [EndsOperand]))]
    exact power_of_ahead ht (by simp)
  refine ⟨t, ?_, ht⟩
  unfold binary
  rw [run_bind_of_ok hunary]
  exact repeatFrom_done (run_bind_of_ok ht.peek)

end Grammar

/-- That `source` is a string with the text `s` and nothing else: one token that goes from its first
character to its last, before the end of the input, and one tree. -/
structure Denotes (source s : String) : Prop where
  tokens : (lex source).map Lexed.tokens
    = .ok [⟨.str [.text s], ⟨0, byteSize source.toList⟩, false⟩,
      Token.endOfInput (byteSize source.toList)]
  tree : ∀ file, parse file source = .ok ⟨[.str s], none⟩

theorem Quotes.denotes {q : Char} {quoting : Quoting} {marks : List Char}
    (h : Quotes q quoting marks) (s : String) : Denotes (quotation q marks s) s where
  tokens := by
    rw [h.lex_quotation]
    rfl
  tree file := by
    have hlex := h.lex_quotation s
    obtain ⟨t, hread, ht⟩ := binary_of_text (ReadState.ahead_ofLexed
      (oneString s (quotation q marks s)) [⟨[], false⟩] 0)
    exact parse_of_binary hlex rfl ⟨rfl, rfl, by simp⟩ hread ht

/-- **A quoted text is a string with that text**, whatever the text is and whichever quotes stand
around it. -/
theorem quoted_text_denotes (s : String) :
    Denotes (doubleQuoted s) s ∧ Denotes (singleQuoted s) s :=
  ⟨quotes_double.denotes s, quotes_single.denotes s⟩

/-- The quotations of a text with all the marks in it. -/
example : doubleQuoted "it's \\ #x \x22y\x22" = "\x22it's \\\\ \\#x \\\x22y\\\x22\x22"
    ∧ singleQuoted "it's \\ #x" = "'it\\'s \\\\ #x'" := by decide

end RubyJs
