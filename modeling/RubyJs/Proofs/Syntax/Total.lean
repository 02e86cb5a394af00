import RubyJs.Proofs.Syntax.Descent

set_option autoImplicit false

/-! # The parser is total and balanced

A part of a text has at most as many bytes as the text, so from every state in which reading can be,
a level above that number is enough: the rules satisfy their own equations there (`Rules.Closed`), as
if they fell back on each other without a bound. And each parsing function (`Grammar.Parses`) comes
from there to a fault of the text or to a later token, in as many scopes and with as many taken `do`
(`ReadState.Comes`).
-/

namespace RubyJs

open Reading

variable {text : String} {l : Lexed} {s : ReadState}

/-! ## The bound -/

theorem size_utf8Encode (cs : List Char) : cs.utf8Encode.size = byteSize cs := by
  induction cs with
  | nil => rfl
  | cons c cs ih =>
      rw [List.utf8Encode_cons, ByteArray.size_append, ih, byteSize_cons, List.utf8Encode_singleton,
        List.size_toByteArray, String.length_utf8EncodeChar]

theorem utf8ByteSize_eq_byteSize (text : String) : text.utf8ByteSize = byteSize text.toList := by
  rw [← size_utf8Encode, String.utf8Encode_toList]
  rfl

namespace ReadState

/-- That `s` stands in some scope at the token `i` of `l`, the tokens of a part of `text`. -/
structure Stands (text : String) (l : Lexed) (i : Nat) (s : ReadState) : Prop where
  part : ∃ range, Lexed.Cut text range l
  tokens : s.tokens.At l.tokens i
  scopes : s.scopes ≠ []

theorem Stands.ready {i k : Nat} (h : s.Stands text l i) (hk : text.utf8ByteSize < k) :
    s.Ready text k := by
  obtain ⟨range, hcut⟩ := h.part
  refine ⟨h.scopes, range, l, i, hcut, h.tokens, ?_⟩
  have hstop := hcut.placed.stop.le_byteSize
  rw [utf8ByteSize_eq_byteSize] at hk
  omega

/-- What reading from `s`, which stands at the token `i` of `l`, comes to: a fault of the text, or a
state that stands at this token or a later one, with as many scopes and as many taken `do`. -/
inductive Comes {α : Type} (l : Lexed) (i : Nat) (s : ReadState) :
    Except Fault (α × ReadState) → Prop where
  | fault {f : Fault} (cause : f.cause.ofText = true) : Comes l i s (.error f)
  | read {a : α} {t : ReadState} {j : Nat} (later : i ≤ j) (tokens : t.tokens.At l.tokens j)
      (scopes : t.scopes.length = s.scopes.length) (noDo : t.noDo = s.noDo) :
      Comes l i s (.ok (a, t))

theorem comes_of_ends {α : Type} {T : Twins} {took : α → Prop} {i : Nat}
    {x x' : Except Fault (α × ReadState)} (hs : s.Stands T.left l i) (h : Ends T took s x x') :
    s.Comes l i x := by
  cases h with
  | fault hcause => exact .fault hcause
  | read hmoves =>
      obtain ⟨j, hij, -, hat⟩ := hmoves.tokens _ i hs.tokens
      exact .read hij hat hmoves.scopes hmoves.noDo

end ReadState

/-! ## Parsing functions -/

namespace Grammar

/-- The functions that read tokens: those that take single ones, and those of the grammar with the
rules `r`. -/
inductive Parses (text : String) (r : Rules) : {α : Type} → Reading α → Prop where
  | advance : Parses text r advance
  | eat (kind : TokenKind) : Parses text r (eat kind)
  | expect (kind : TokenKind) (what : String) : Parses text r (expect kind what)
  | skipTerminators : Parses text r skipTerminators
  | skipNewlines : Parses text r skipNewlines
  | requireTerminator : Parses text r requireTerminator
  | methodNameAfterDot : Parses text r methodNameAfterDot
  | definedName : Parses text r definedName
  | methodOperand : Parses text r methodOperand
  | parameterName : Parses text r parameterName
  | constantName : Parses text r constantPath.constantName
  | constantPath : Parses text r constantPath
  | argument (a : Arguments) : Parses text r (argument r a)
  | delimitedArguments (close : TokenKind) : Parses text r (delimitedArguments r close)
  | commandArguments : Parses text r (commandArguments r)
  | arguments : Parses text r (arguments? r)
  | blockParameter (p : Params Expr) (name : String) : Parses text r (namedParameter r.unary p name)
  | blockParameters : Parses text r (blockParameters r)
  | methodParameter (p : Params Expr) (name : String) :
      Parses text r (namedParameter r.ternary p name)
  | someParameters (closed : Bool) : Parses text r (someParameters r closed)
  | methodParameters : Parses text r (methodParameters r)
  | blockContents (close : TokenKind) : Parses text r (blockContents r close)
  | block (close : TokenKind) : Parses text r (block r close)
  | blockIfAny : Parses text r (block? r)
  | callRest (recv : Option Expr) (name : String) : Parses text r (callRest r recv name)
  | embedded {span : Span} (code : Lexer.CodeSpan text span) : Parses text r (embedded r span)
  | parts {segments : List Segment} (code : ∀ span, .code span ∈ segments → Lexer.CodeSpan text span) :
      Parses text r (parts r segments)
  | strings {segments : List Segment}
      (code : ∀ span, .code span ∈ segments → Lexer.CodeSpan text span) :
      Parses text r (strings r segments)
  | hashKey : Parses text r (hashLiteral.hashKey r)
  | hashLiteral : Parses text r (hashLiteral r)
  | parenthesised : Parses text r (parenthesised r)
  | thenWord : Parses text r thenWord
  | branch : Parses text r (branch r)
  | elseBranches : Parses text r (elseBranches r)
  | ifExpr (negated : Bool) : Parses text r (ifExpr r negated)
  | loopExpr (isUntil : Bool) : Parses text r (loopExpr r isUntil)
  | bodyIfAny (w : Keyword) : Parses text r (body? r w)
  | whenValues : Parses text r (whenValues r)
  | whenClauses : Parses text r (whenClauses r)
  | caseExpr : Parses text r (caseExpr r)
  | rescueClasses : Parses text r (rescueClasses r)
  | rescueClauses : Parses text r (rescueClauses r)
  | guardedBody : Parses text r (guardedBody r)
  | singletonIfAny : Parses text r singleton?
  | methodContents : Parses text r (methodContents r)
  | defineExpr : Parses text r (defineExpr r)
  | scopedBody : Parses text r (scopedBody r)
  | classExpr : Parses text r (classExpr r)
  | moduleExpr : Parses text r (moduleExpr r)
  | jumpValue : Parses text r (jumpValue r)
  | undefNames : Parses text r undefNames
  | keywordExpr (w : Keyword) : Parses text r (keywordExpr r w)
  | primary : Parses text r (primary r)
  | trailers (e : Expr) : Parses text r (trailers r e)
  | power (base : Expr) : Parses text r (power r base)
  | signed (negative : Bool) : Parses text r (signed r negative)
  | unary : Parses text r (unary r)
  | binary (level : Nat) : Parses text r (binary r level)
  | range : Parses text r (range r)
  | ternary : Parses text r (ternary r)
  | target (e : Expr) (start : Nat) : Parses text r (target e start)
  | expr : Parses text r (expr r)
  | notExpr : Parses text r (notExpr r)
  | exprStmt : Parses text r (exprStmt r)
  | stmt : Parses text r (stmt r)
  | stmts : Parses text r (stmts r)

/-- Code of a unit has fewer bytes than a number above those of the unit. -/
theorem codeFits_of_codeSpan {k : Nat} {segments : List Segment}
    (h : ∀ span, .code span ∈ segments → Lexer.CodeSpan text span) (hk : text.utf8ByteSize < k) :
    CodeFits text k segments := by
  intro span hspan
  obtain ⟨w, hw⟩ := (h span hspan).covers
  have hstop := hw.stop_boundary.le_byteSize
  rw [utf8ByteSize_eq_byteSize] at hk
  exact ⟨h span hspan, hw.start_le_stop, by omega⟩

/-- Every parsing function is steady. -/
theorem Parses.steady {α : Type} {k : Nat} {r : Rules} {m : Reading α} (h : Parses text r m)
    (hk : text.utf8ByteSize ≤ k) (hr : r.Steady (.refl text) k r)
    (hr' : r.Steady (.refl text) (k + 1) r) : Tracks (.refl text) (k + 1) m m := by
  have hlt : text.utf8ByteSize < k + 1 := Nat.lt_succ_of_le hk
  have hsame : (Twins.refl text).same := trivial
  have hself : ∀ {ss : List Segment}, List.Forall₂ (Segment.Alike (Twins.refl text).code) ss ss :=
    Segment.forall₂_alike_self fun _ _ => rfl
  cases h with
  | advance =>
      intro s s' hs halike
      obtain rfl := halike.equal hsame
      exact .read ((ReadState.moves_next hs).imp False.elim) (.refl _)
  | eat kind => exact .maybe (.eats (.inl hsame))
  | expect kind what => exact .expects (.inl hsame)
  | skipTerminators => exact .skipTerminators
  | skipNewlines => exact .skipNewlines
  | requireTerminator => exact .requireTerminator
  | methodNameAfterDot => exact .methodNameAfterDot
  | definedName => exact .definedName
  | methodOperand => exact .methodOperand
  | parameterName => exact .parameterName
  | constantName => exact .constantName
  | constantPath => exact .constantPath
  | argument a => exact .argument hr' a
  | delimitedArguments close => exact .delimitedArguments hr' (.inl hsame)
  | commandArguments => exact .commandArguments hr'
  | arguments => exact .arguments? hr'
  | blockParameter p name => exact .namedParameter hr'.unary p name
  | blockParameters => exact .blockParameters hr'
  | methodParameter p name => exact .namedParameter hr'.ternary p name
  | someParameters closed => exact .someParameters hr' closed
  | methodParameters => exact .methodParameters hr'
  | blockContents close => exact .blockContents hr' (.inl hsame)
  | block close => exact .block hr' (.inl hsame)
  | blockIfAny => exact .block? hr'
  | callRest recv name => exact .callRest hr' recv name
  | @embedded span code =>
      have hfits : CodeFits text (k + 1) [.code span] := codeFits_of_codeSpan (by simpa using code) hlt
      obtain ⟨hcode, hle, hless⟩ := hfits span List.mem_cons_self
      exact .embedded hr' rfl hcode hle hless
  | parts code => exact .parts hr' hself (codeFits_of_codeSpan code hlt)
  | strings code => exact .strings hr' hself (codeFits_of_codeSpan code hlt)
  | hashKey => exact .hashKey hr'
  | hashLiteral => exact .hashLiteral hr'
  | parenthesised => exact .parenthesised hr'
  | thenWord => exact .thenWord
  | branch => exact .branch hr'
  | elseBranches => exact .elseBranches hr'
  | ifExpr negated => exact .ifExpr hr' negated
  | loopExpr isUntil => exact .loopExpr hr' isUntil
  | bodyIfAny w => exact .body? hr' w
  | whenValues => exact .whenValues hr'
  | whenClauses => exact .whenClauses hr'
  | caseExpr => exact .caseExpr hr'
  | rescueClasses => exact .rescueClasses hr'
  | rescueClauses => exact .rescueClauses hr'
  | guardedBody => exact .guardedBody hr'
  | singletonIfAny => exact .singleton?
  | methodContents => exact .methodContents hr'
  | defineExpr => exact .defineExpr hr'
  | scopedBody => exact .scopedBody hr'
  | classExpr => exact .classExpr hr'
  | moduleExpr => exact .moduleExpr hr'
  | jumpValue => exact .jumpValue hr'
  | undefNames => exact .undefNames
  | keywordExpr w => exact .keywordExpr hr' (fun hp => .advances rfl fun _ => hp) w
  | primary => exact .maybe (.primary hr)
  | trailers e => exact .trailers hr' e
  | power base => exact .power hr' base
  | signed negative => exact .signed hr' negative
  | unary => exact .maybe (.unary hr)
  | binary level => exact .maybe (.binary hr level)
  | range => exact .maybe (.range hr)
  | ternary => exact .maybe (.ternary hr)
  | target e start => exact .target e fun _ => rfl
  | expr => exact .maybe (.expression hr)
  | notExpr => exact .maybe (.notExpr hr)
  | exprStmt => exact .maybe (.exprStmt hr)
  | stmt => exact .maybe (.stmt hr)
  | stmts => exact .stmts hr

end Grammar

/-! ## The rules without a bound -/

/-- That at `s` the rules fall back on each other as the grammar says. -/
structure Rules.Closed (r : Rules) (s : ReadState) : Prop where
  stmts : r.stmts s = Grammar.stmts r s
  exprStmt : r.exprStmt s = Grammar.exprStmt r s
  notExpr : r.notExpr s = Grammar.notExpr r s
  expr : r.expr s = Grammar.expr r s
  ternary : r.ternary s = Grammar.ternary r s
  binary : ∀ level, r.binary level s = Grammar.binary r level s
  unary : r.unary s = Grammar.unary r s

/-- A level above the number of bytes is as good as no bound. -/
theorem ReadState.Ready.closed {n : Nat} (hs : s.Ready text (text.utf8ByteSize + 1)) (file : String)
    (hn : text.utf8ByteSize < n) : (Rules.level file text n).Closed s := by
  cases n with
  | zero => exact absurd hn (Nat.not_lt_zero _)
  | succ n =>
      have hr : Rules.Steady (.refl text) text.utf8ByteSize (Rules.level file text n)
          (Rules.level file text (n + 1)) :=
        Rules.steady_level (.refl text) file (Nat.le_of_lt_succ hn) (Nat.le_of_lt hn)
      have heq : ∀ {α : Type} {m m' : Reading α} {took : α → Prop},
          Steady (.refl text) (Ready text (text.utf8ByteSize + 1)) m m' took → m s = m' s :=
        fun h => (h s s hs (.refl s)).eq trivial
      exact ⟨heq (.stmts hr), heq (.exprStmt hr), heq (.notExpr hr), heq (.expression hr),
        heq (.ternary hr), fun l => heq (.binary hr l), heq (.unary hr)⟩

/-! ## The whole text -/

theorem stands_ofLexed (h : lex text = .ok l) :
    ReadState.Stands text l 0 ⟨Stream.ofLexed l, [⟨[], false⟩], 0⟩ :=
  ⟨⟨_, .unit h⟩, Stream.ofLexed_at l, List.cons_ne_nil _ _⟩

/-- A unit is what is read from its tokens up to the end. -/
def Grammar.unit (r : Rules) : Reading (List Expr) := do
  let body ← stmts r
  expect .eof "end of input"
  return body

theorem readBody_eq_unit (file text : String) (l : Lexed) : readBody file text l =
    (Grammar.unit (Rules.level file text (text.utf8ByteSize + 1)) ⟨Stream.ofLexed l, [⟨[], false⟩], 0⟩
      >>= fun r => .ok r.1) := rfl

/-- The tokens of a unit are read, or have a fault in the text. What is read is read from tokens that
are alike as well, in a text that is at least as long. -/
theorem readBody_ends (T : Twins) (file : String)
    (hsize : T.left.utf8ByteSize ≤ T.right.utf8ByteSize) {l' : Lexed} (hlex : lex T.left = .ok l)
    (hequal : T.same → l = l') (hl : List.Forall₂ (Token.Alike T.code) l.written l'.written) :
    (∃ f : Fault, f.cause.ofText = true ∧ readBody file T.left l = .error f)
      ∨ ∃ body, readBody file T.left l = .ok body ∧ readBody file T.right l' = .ok body := by
  let r := Rules.level file T.left (T.left.utf8ByteSize + 1)
  let r' := Rules.level file T.right (T.right.utf8ByteSize + 1)
  have hr : r.Steady T T.left.utf8ByteSize r' :=
    Rules.steady_level T file (Nat.le_succ _) (Nat.le_succ_of_le hsize)
  have hunit : Tracks T (T.left.utf8ByteSize + 1) (Grammar.unit r) (Grammar.unit r') :=
    .after (.stmts hr) fun _ => .after (.expect rfl) fun _ => .value
  have hbegin : ReadState.Alike T ⟨Stream.ofLexed l, [⟨[], false⟩], 0⟩
      ⟨Stream.ofLexed l', [⟨[], false⟩], 0⟩ :=
    ⟨Stream.alike_ofLexed hl, rfl, rfl, fun hsame => by rw [hequal hsame]⟩
  have hends := hunit _ _ ((stands_ofLexed hlex).ready (Nat.lt_succ_self _)) hbegin
  rw [readBody_eq_unit, readBody_eq_unit]
  generalize Grammar.unit r _ = x, Grammar.unit r' _ = x' at hends
  cases hends with
  | fault hcause => exact .inl ⟨_, hcause, rfl⟩
  | read => exact .inr ⟨_, rfl, rfl⟩

/-- A unit is read or has a fault in its text. -/
theorem readBody_blames (file : String) (h : lex text = .ok l) :
    BlamesText (readBody file text l) := by
  have halike : List.Forall₂ (Token.Alike (Twins.refl text).code) l.written l.written :=
    List.forall₂_same.mpr fun _ _ => .refl fun _ _ => rfl
  rcases readBody_ends (.refl text) file (Nat.le_refl _) h (fun _ => rfl) halike with
    ⟨f, hcause, hf⟩ | ⟨body, hbody, -⟩
  · exact hf ▸ .error hcause
  · exact hbody ▸ .ok body

/-- Texts whose tokens are alike have the same tree. -/
theorem parse_twin (T : Twins) {file : String} (hsize : T.left.utf8ByteSize ≤ T.right.utf8ByteSize)
    {l' : Lexed} (hlex : lex T.left = .ok l) (hlex' : lex T.right = .ok l')
    (hl : List.Forall₂ (Token.Alike T.code) l.written l'.written) {program : Program}
    (h : parse file T.left = .ok program) :
    parse file T.right = .ok ⟨program.body, l'.endData⟩ ∧ program.endData = l.endData := by
  have hequal : T.same → l = l' := fun hsame => by
    rw [← (T.equal hsame).1, hlex] at hlex'
    exact Except.ok.inj hlex'
  unfold parse at h ⊢
  rw [hlex] at h
  rw [hlex']
  dsimp only at h ⊢
  rcases readBody_ends T file hsize hlex hequal hl with ⟨f, -, hf⟩ | ⟨body, hbody, hbody'⟩
  · rw [hf] at h
    cases h
  · rw [hbody] at h
    rw [hbody', ← Except.ok.inj h]
    exact ⟨rfl, rfl⟩

/-- **The parser is total and balanced.** Every text is a program or has a fault that is in it: no
bound on the reader's steps is too small and no scope is left that was not entered. From every state
that stands at a token of the text, or of code in it at any depth, each parsing function comes to a
fault of the text or to a token that is not before, in as many scopes and with as many taken `do`, and
the rules fall back on each other as if there were no bound. -/
theorem parse_total (file text : String) :
    ((∃ program, parse file text = .ok program)
      ∨ ∃ f : Fault, f.cause.ofText = true ∧ parse file text = .error (.ofFault file text f))
      ∧ ∀ n, text.utf8ByteSize < n → ∀ l i s, ReadState.Stands text l i s →
        (Rules.level file text n).Closed s
          ∧ ∀ (α : Type) (m : Reading α), Grammar.Parses text (Rules.level file text n) m →
            s.Comes l i (m s) := by
  constructor
  · unfold parse
    cases hlex : lex text with
    | error f => exact .inr ⟨f, lex_blames text f hlex, rfl⟩
    | ok l =>
        cases hread : readBody file text l with
        | error f =>
            refine .inr ⟨f, readBody_blames file hlex f hread, ?_⟩
            simp only [hread]
        | ok body =>
            refine .inl ⟨⟨body, l.endData⟩, ?_⟩
            simp only [hread]
  · intro n hn l i s hs
    refine ⟨(hs.ready (Nat.lt_succ_self _)).closed file hn, ?_⟩
    intro α m hm
    have hsteady := hm.steady (Nat.le_refl _)
      (Rules.steady_level (.refl text) file (Nat.le_of_lt hn) (Nat.le_of_lt hn))
      (Rules.steady_level (.refl text) file hn hn)
    exact ReadState.comes_of_ends (T := .refl text) hs
      (hsteady s s (hs.ready (Nat.lt_succ_self _)) (.refl s))

open Lexer in
/-- Code in code, at the token of the inner one. -/
theorem parse_total_nested :
    let text := "\x22#\x7b\x22#\x7ba\x7d\x22\x7d\x22"
    let l : Lexed := ⟨[⟨.ident "a", ⟨6, 7⟩, false⟩], 7, none⟩
    let s : ReadState := ⟨Stream.ofLexed l, [⟨[], false⟩], 0⟩
    text.utf8ByteSize < 12 ∧ CodeSpan text ⟨6, 7⟩ ∧ s.Stands text l 0 ∧ (Rules.level "a" text 12).Closed s
      ∧ s.Comes l 0 (Grammar.stmts (Rules.level "a" text 12) s) := by
  intro text l s
  obtain ⟨_, houter, rfl⟩ : ∃ l, lex text = .ok l
      ∧ l = ⟨[⟨.str [.code ⟨3, 9⟩], ⟨0, 11⟩, false⟩], 11, none⟩ :=
    exists_ok_of_any (by decide +kernel)
  obtain ⟨_, hinner, rfl⟩ : ∃ l, lexRange text ⟨3, 9⟩ = .ok l
      ∧ l = ⟨[⟨.str [.code ⟨6, 7⟩], ⟨3, 9⟩, false⟩], 9, none⟩ :=
    exists_ok_of_any (by decide +kernel)
  obtain ⟨l', hlexed, hl⟩ : ∃ l', lexRange text ⟨6, 7⟩ = .ok l' ∧ l' = l :=
    exists_ok_of_any (by decide +kernel)
  rw [hl] at hlexed
  have hcode : CodeSpan text ⟨6, 7⟩ :=
    .nested (.unit houter List.mem_cons_self List.mem_cons_self) hinner List.mem_cons_self
      List.mem_cons_self
  have hs : s.Stands text l 0 :=
    ⟨⟨_, .code hcode hlexed⟩, Stream.ofLexed_at l, List.cons_ne_nil _ _⟩
  have hsize : text.utf8ByteSize < 12 := by decide
  have htotal := (parse_total "a" text).2 12 hsize l 0 s hs
  exact ⟨hsize, hcode, hs, htotal.1, htotal.2 _ _ .stmts⟩

end RubyJs
