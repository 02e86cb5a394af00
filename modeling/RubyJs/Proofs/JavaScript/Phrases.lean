import RubyJs.Proofs.JavaScript.Reader

set_option autoImplicit false

/-! # Phrases

Tokens that are read as a term or as statements, whatever follows them. What follows a term must not
go on with it: after `a && b` no `&&`, but a `||` is fine (`Closes`). A term without operators can
also be followed by a property or a call, which then belongs to it (`Chain`).

The bound of the reader never matters: eight times the number of tokens is enough, because a term
passes through the six levels, and some more calls, for each token that it takes.
-/

namespace RubyJs.JavaScript

variable {L : Letters}
variable {x : String}

/-- The tightest level whose terms a token goes on with. -/
def Token.level : Token → Nat
  | .dot | .lparen => 0
  | .andAnd => 2
  | .orOr => 3
  | .question | .assign => 4
  | .comma => 5
  | _ => 6

/-- That what follows a term of a level does not go on with it. -/
def Closes (k : Nat) (rest : List Token) : Prop := ∀ t ∈ rest.head?, k < t.level

theorem Closes.mono {k k' : Nat} {rest : List Token} (h : Closes k' rest) (hk : k ≤ k') :
    Closes k rest :=
  fun t ht => Nat.lt_of_le_of_lt hk (h t ht)

theorem closes_cons {k : Nat} {t : Token} (h : k < t.level) (rest : List Token) :
    Closes k (t :: rest) := by
  intro u hu
  rwa [← Option.some.inj hu]

/-- Whether a statement that begins with a token is a term. -/
def Token.opens : Token → Bool
  | .word w => w != "var" && w != "return" && w != "if" && w != "function"
  | .line | .rbrace | .rparen => false
  | _ => true

/-- That some tokens begin like a term. -/
def Opens (us : List Token) : Prop := ∃ t us', us = t :: us' ∧ t.opens = true

theorem Opens.append {us : List Token} (h : Opens us) (vs : List Token) : Opens (us ++ vs) := by
  obtain ⟨t, us', rfl, ht⟩ := h
  exact ⟨t, us' ++ vs, rfl, ht⟩

theorem Opens.length_pos {us : List Token} (h : Opens us) : 0 < us.length := by
  obtain ⟨t, us', rfl, -⟩ := h
  exact Nat.succ_pos _

/-- That some tokens are read as a term of a level. -/
structure Phrase (L : Letters) (k : Nat) (us : List Token) (e : Term) : Prop where
  opens : Opens us
  reads : ∀ rest, Closes k rest → ∀ m, 8 * us.length + k < m →
    term L m k (us ++ rest) = some (e, rest)

/-- That some tokens are read as a term that properties and calls can follow: what is read of them
after the term is read of it. -/
structure Chain (L : Letters) (us : List Token) (e : Term) : Prop where
  opens : Opens us
  reads : ∀ (vs : List Token) (e' : Term) (rest : List Token),
    (∀ m, 8 * vs.length < m → accesses L m e (vs ++ rest) = some (e', rest)) →
    ∀ m, 8 * (us.length + vs.length) < m → term L m 0 (us ++ (vs ++ rest)) = some (e', rest)

/-! ## Operands -/

theorem accesses_closed {e : Term} {rest : List Token} (h : Closes 0 rest) (m : Nat) :
    accesses L m e rest = some (e, rest) := by
  cases rest with
  | nil => cases m <;> rfl
  | cons t rest =>
      have ht := h t rfl
      cases t with
      | dot | lparen => exact absurd ht (Nat.lt_irrefl 0)
      | _ => cases m <;> rfl

/-- What is read without operators can be followed by properties and calls. -/
theorem Chain.of_operand {us : List Token} {e : Term} (hopens : Opens us)
    (h : ∀ rest m, 8 * us.length ≤ m → operand L m (us ++ rest) = some (e, rest)) :
    Chain L us e where
  opens := hopens
  reads vs e' rest hvs m hm := by
    have hpos := hopens.length_pos
    cases m with
    | zero => exact absurd hm (Nat.not_lt_zero _)
    | succ m =>
        rw [term, h (vs ++ rest) m (by omega)]
        exact hvs m (by omega)

theorem Chain.phrase {us : List Token} {e : Term} (h : Chain L us e) : Phrase L 0 us e where
  opens := h.opens
  reads rest hrest m hm :=
    h.reads [] e rest (fun m' _ => accesses_closed hrest m') m (by simpa using hm)

theorem ne_reserved {w : String} (h : L.isVariable x = true) (hw : w ∈ reservedWords) : x ≠ w := by
  rintro rfl
  rw [Letters.isVariable, Bool.and_eq_true, Bool.not_eq_true', List.contains_eq_mem] at h
  exact absurd hw (by simpa using h.2)

theorem chain_name (h : L.isVariable x = true) : Chain L [.word x] (.name x) := by
  refine .of_operand ⟨_, _, rfl, ?_⟩ fun rest m _ => ?_
  · simp [Token.opens, ne_reserved h (w := "var") (by decide),
      ne_reserved h (w := "return") (by decide), ne_reserved h (w := "if") (by decide),
      ne_reserved h (w := "function") (by decide)]
  · show operand L m (.word x :: rest) = _
    rw [operand, if_neg (ne_reserved h (by decide)), if_neg (ne_reserved h (by decide)), if_pos h]

theorem chain_bool (b : Bool) : Chain L [.word (if b then "true" else "false")] (.bool b) := by
  refine .of_operand ⟨_, _, rfl, by cases b <;> decide⟩ fun rest m _ => ?_
  show operand L m (.word _ :: rest) = _
  cases b with
  | true => rw [operand, if_pos (by decide)]
  | false => rw [operand, if_neg (by decide), if_pos (by decide)]

theorem upTo_some {α : Type} (t : Token) (a : α) (rest : List Token) :
    upTo t (some (a, t :: rest)) = some (a, rest) := if_pos rfl

theorem Phrase.paren {us : List Token} {e : Term} (h : Phrase L 5 us e) :
    Chain L (.lparen :: (us ++ [.rparen])) e := by
  refine .of_operand ⟨_, _, rfl, rfl⟩ fun rest m hm => ?_
  rw [List.length_cons, List.length_append, List.length_singleton] at hm
  cases m with
  | zero => omega
  | succ m =>
      have hinner := h.reads (.rparen :: rest) (closes_cons (by decide) rest) m (by omega)
      rw [List.cons_append, List.append_assoc, operand, List.singleton_append, hinner]
      exact upTo_some _ _ _

namespace Chain

variable {us : List Token} {e : Term}

/-- What is read after a term in one step is read of the tokens of the term and of the step. -/
theorem extend (h : Chain L us e) {ws : List Token} {e' : Term}
    (hstep : ∀ rest m, 8 * ws.length ≤ m + 1 →
      accesses L (m + 1) e (ws ++ rest) = accesses L m e' rest) (hws : 0 < ws.length) :
    Chain L (us ++ ws) e' where
  opens := h.opens.append ws
  reads vs e'' rest hvs m hm := by
    rw [List.length_append] at hm
    have hreads := h.reads (ws ++ vs) e'' rest (fun n hn => ?_) m (by
      rw [List.length_append]
      omega)
    · rw [List.append_assoc] at hreads ⊢
      exact hreads
    · rw [List.length_append] at hn
      cases n with
      | zero => omega
      | succ n =>
          rw [List.append_assoc, hstep _ n (by omega)]
          exact hvs n (by omega)

theorem member (h : Chain L us e) {p : String} (hp : L.isName p = true) :
    Chain L (us ++ [.dot, .word p]) (.member e p) := by
  refine h.extend (fun rest m _ => ?_) (Nat.succ_pos _)
  show accesses L (m + 1) e (.dot :: .word p :: rest) = _
  rw [accesses, if_pos hp]

theorem invoke (h : Chain L us e) : Chain L (us ++ [.lparen, .rparen]) (.invoke e) := by
  refine h.extend (fun rest m _ => ?_) (Nat.succ_pos _)
  show accesses L (m + 1) e (.lparen :: .rparen :: rest) = _
  rw [accesses]

theorem apply (h : Chain L us e) {vs : List Token} {a : Term} (ha : Phrase L 4 vs a) :
    Chain L (us ++ (.lparen :: (vs ++ [.rparen]))) (.apply e a) := by
  refine h.extend (fun rest m hm => ?_) (Nat.succ_pos _)
  rw [List.length_cons, List.length_append, List.length_singleton] at hm
  have harg := ha.reads (.rparen :: rest) (closes_cons (by decide) rest) m (by omega)
  obtain ⟨t, vs', rfl, ht⟩ := ha.opens
  -- The argument does not begin with the parenthesis that closes a call without one.
  have hopen : accesses L (m + 1) e (.lparen :: (t :: vs' ++ [.rparen] ++ rest)) =
      upTo .rparen (term L m 4 (t :: vs' ++ [.rparen] ++ rest)) >>= fun r =>
        accesses L m (.apply e r.1) r.2 := by
    cases t with
    | rparen => exact absurd ht Bool.false_ne_true
    | _ => rfl
  rw [List.cons_append, hopen, List.append_assoc, List.singleton_append, harg, upTo_some]
  rfl

end Chain

/-! ## Operators -/

/-- What begins like a term is no function. -/
theorem function?_opens {us : List Token} (h : Opens us) : function? us = none := by
  obtain ⟨t, us, rfl, ht⟩ := h
  unfold function?
  split
  · rename_i w r ts heq
    obtain rfl : t = .word w := (List.cons.inj heq).1
    rw [if_neg]
    rintro ⟨rfl, -⟩
    exact absurd ht (by decide)
  · rfl

namespace Phrase

variable {us vs : List Token} {e e' : Term}

/-- A term of a level is one of the next level. -/
theorem succ {k : Nat} (h : Phrase L k us e) (hk : k < 5) : Phrase L (k + 1) us e where
  opens := h.opens
  reads rest hrest m hm := by
    cases m with
    | zero => omega
    | succ m =>
        have hread := h.reads rest (hrest.mono (Nat.le_succ k)) m (by omega)
        -- At each level the operator that would go on with the term does not follow.
        match k, hk with
        | 0, _ =>
            obtain ⟨t, us', rfl, ht⟩ := h.opens
            cases t with
            | bang =>
                have hnone := h.reads [] (fun t ht => by simp at ht) (8 * (us'.length + 1) + 2)
                  (by simp)
                simp [term, operand] at hnone
            | _ => exact hread
        | 1, _ =>
            rw [term, hread]
            rcases rest with _ | ⟨u, rest⟩
            · rfl
            · cases u with
              | andAnd => exact absurd (hrest _ rfl) (by decide)
              | _ => rfl
        | 2, _ =>
            rw [term, hread]
            rcases rest with _ | ⟨u, rest⟩
            · rfl
            · cases u with
              | orOr => exact absurd (hrest _ rfl) (by decide)
              | _ => rfl
        | 3, _ =>
            rw [term, function?_opens (h.opens.append rest), hread]
            rcases rest with _ | ⟨u, rest⟩
            · rfl
            · cases u with
              | question | assign => exact absurd (hrest _ rfl) (by decide)
              | _ => rfl
        | 4, _ =>
            rw [term, hread]
            rcases rest with _ | ⟨u, rest⟩
            · rfl
            · cases u with
              | comma => exact absurd (hrest _ rfl) (by decide)
              | _ => rfl
            all_goals simp

/-- A term of a level is one of every looser level. -/
theorem lift {k k' : Nat} (h : Phrase L k us e) (hk : k ≤ k') (hk' : k' ≤ 5) :
    Phrase L k' us e := by
  induction k' with
  | zero =>
      obtain rfl := Nat.le_zero.mp hk
      exact h
  | succ k' ih =>
      rcases Nat.lt_or_eq_of_le hk with hlt | rfl
      · exact (ih (Nat.lt_succ_iff.mp hlt) (by omega)).succ (by omega)
      · exact h

theorem not (h : Phrase L 1 us e) : Phrase L 1 (.bang :: us) (.not e) where
  opens := ⟨_, _, rfl, rfl⟩
  reads rest hrest m hm := by
    rw [List.length_cons] at hm
    cases m with
    | zero => omega
    | succ m =>
        rw [List.cons_append, term, h.reads rest hrest m (by omega)]
        rfl

/-- An operator between two terms, of which the second one may have the operator again. -/
theorem operator {k : Nat} {o : Token} {join : Term → Term → Term} (ho : k < o.level)
    (hjoin : ∀ m ts rest, term L m k ts = some (e, o :: rest) → term L (m + 1) (k + 1) ts =
      term L m (k + 1) rest >>= fun r => some (join e r.1, r.2))
    (h : Phrase L k us e) (h' : Phrase L (k + 1) vs e') :
    Phrase L (k + 1) (us ++ o :: vs) (join e e') where
  opens := h.opens.append _
  reads rest hrest m hm := by
    rw [List.length_append, List.length_cons] at hm
    cases m with
    | zero => omega
    | succ m =>
        have hleft := h.reads (o :: (vs ++ rest)) (closes_cons ho _) m (by omega)
        rw [List.append_assoc, List.cons_append, hjoin m _ _ hleft, h'.reads rest hrest m (by omega)]
        rfl

theorem and (h : Phrase L 1 us e) (h' : Phrase L 2 vs e') :
    Phrase L 2 (us ++ .andAnd :: vs) (.and e e') := by
  refine operator (by decide) (fun m ts rest hleft => ?_) h h'
  rw [term, hleft]
  rfl

theorem or (h : Phrase L 2 us e) (h' : Phrase L 3 vs e') :
    Phrase L 3 (us ++ .orOr :: vs) (.or e e') := by
  refine operator (by decide) (fun m ts rest hleft => ?_) h h'
  rw [term, hleft]
  rfl

theorem choice {ws : List Token} {e'' : Term} (h : Phrase L 3 us e) (h' : Phrase L 4 vs e')
    (h'' : Phrase L 4 ws e'') :
    Phrase L 4 (us ++ .question :: (vs ++ .colon :: ws)) (.choice e e' e'') where
  opens := h.opens.append _
  reads rest hrest m hm := by
    simp only [List.length_append, List.length_cons] at hm
    cases m with
    | zero => omega
    | succ m =>
        have htest := h.reads (.question :: (vs ++ .colon :: (ws ++ rest)))
          (closes_cons (by decide) _) m (by omega)
        have hyes := h'.reads (.colon :: (ws ++ rest)) (closes_cons (by decide) _) m (by omega)
        have hno := h''.reads rest hrest m (by omega)
        rw [term, function?_opens ((h.opens.append _).append rest)]
        simp only [List.append_assoc, List.cons_append, htest]
        show (upTo .colon (term L m 4 (vs ++ Token.colon :: (ws ++ rest))) >>= _) = _
        rw [hyes, upTo_some]
        show (term L m 4 (ws ++ rest) >>= _) = _
        rw [hno]
        rfl

theorem assign (h : Phrase L 3 us e) (htarget : e.isTarget = true)
    (h' : ∀ rest, Closes 4 rest → ∀ m, 8 * vs.length + 4 < m →
      term L m 4 (vs ++ rest) = some (e', rest)) :
    Phrase L 4 (us ++ .assign :: vs) (.assign e e') where
  opens := h.opens.append _
  reads rest hrest m hm := by
    rw [List.length_append, List.length_cons] at hm
    cases m with
    | zero => omega
    | succ m =>
        have hleft := h.reads (.assign :: (vs ++ rest)) (closes_cons (by decide) _) m (by omega)
        rw [term, function?_opens ((h.opens.append _).append rest)]
        simp only [List.append_assoc, List.cons_append, hleft]
        show (if e.isTarget = true then term L m 4 (vs ++ rest) >>= _ else none) = _
        rw [if_pos htarget, h' rest hrest m (by omega)]
        rfl

theorem comma (h : Phrase L 4 us e) (h' : Phrase L 5 vs e') :
    Phrase L 5 (us ++ .comma :: vs) (.comma e e') := by
  refine operator (by decide) (fun m ts rest hleft => ?_) h h'
  rw [term, hleft]
  · rfl
  all_goals simp

end Phrase

theorem chain_str : Chain L [.str] .str :=
  .of_operand ⟨_, _, rfl, rfl⟩ fun _ m _ => by cases m <;> rfl

/-- The tokens of a function that returns what `us` are read as. -/
def functionTokens (us : List Token) : List Token :=
  .word "function" :: .lparen :: .rparen :: .lbrace :: .word "return" :: (us ++ [.semi, .rbrace])

theorem term_function {us : List Token} {e : Term} (h : Phrase L 5 us e) (rest : List Token)
    {m : Nat} (hm : 8 * (functionTokens us).length + 4 < m) :
    term L m 4 (functionTokens us ++ rest) = some (.func e, rest) := by
  simp only [functionTokens, List.length_append, List.length_cons] at hm
  cases m with
  | zero => omega
  | succ m =>
      have hbody := h.reads (.semi :: .rbrace :: rest) (closes_cons (by decide) _) m (by omega)
      have hfront : function? (functionTokens us ++ rest) =
          some (us ++ .semi :: .rbrace :: rest) := by
        simp [functionTokens, function?]
      rw [term, hfront]
      show (upTo .rbrace (upTo .semi (term L m 5 (us ++ Token.semi :: .rbrace :: rest))) >>= _) = _
      rw [hbody, upTo_some, upTo_some]
      rfl

/-! ## Declarations -/

/-- That some tokens are read as an item of a declaration. -/
structure ItemPhrase (L : Letters) (us : List Token) (item : String × Option Term) : Prop where
  last : ∀ rest m, 8 * us.length + 5 ≤ m →
    declaration L m (us ++ .semi :: rest) = some ([item], rest)
  more : ∀ ts rest items m, 8 * us.length + 5 ≤ m + 1 → declaration L m ts = some (items, rest) →
    declaration L (m + 1) (us ++ .comma :: ts) = some (item :: items, rest)

theorem item_name (h : L.isVariable x = true) : ItemPhrase L [.word x] (x, none) where
  last rest m hm := by
    cases m with
    | zero => omega
    | succ m =>
        show declaration L (m + 1) (.word x :: .semi :: rest) = _
        rw [declaration, if_pos h]
        rfl
  more ts rest items m _ hrest := by
    show declaration L (m + 1) (.word x :: .comma :: ts) = _
    rw [declaration, if_pos h]
    show (declaration L m ts >>= _) = _
    rw [hrest]
    rfl

theorem item_value (h : L.isVariable x = true) {us : List Token} {e : Term} (he : Phrase L 4 us e) :
    ItemPhrase L (.word x :: .assign :: us) (x, some e) where
  last rest m hm := by
    simp only [List.length_cons] at hm
    cases m with
    | zero => omega
    | succ m =>
        have hvalue := he.reads (.semi :: rest) (closes_cons (by decide) _) m (by omega)
        rw [List.cons_append, List.cons_append, declaration, if_pos h]
        simp only [hvalue]
        rfl
  more ts rest items m hm hrest := by
    simp only [List.length_cons] at hm
    have hvalue := he.reads (.comma :: ts) (closes_cons (by decide) _) m (by omega)
    rw [List.cons_append, List.cons_append, declaration, if_pos h]
    simp only [hvalue]
    show (declaration L m ts >>= _) = _
    rw [hrest]
    rfl

/-! ## Statements -/

/-- That some tokens are read as statements, up to the end or a brace. -/
def Body (L : Letters) (us : List Token) (ss : List Stmt) : Prop :=
  ∀ rest, (rest = [] ∨ ∃ ts, rest = .rbrace :: ts) → ∀ m, 8 * us.length + 8 ≤ m →
    stmts L m (us ++ rest) = some (ss, rest)

/-- That some tokens are read as a statement, at the end of a line. -/
structure StmtPhrase (L : Letters) (us : List Token) (s : Stmt) : Prop where
  starts : ∃ t us', us = t :: us' ∧ t ≠ .line ∧ t ≠ .rbrace
  reads : ∀ rest m, 8 * us.length + 7 ≤ m → stmt L m (us ++ .line :: rest) = some (s, .line :: rest)

theorem body_nil : Body L [] [] := by
  intro rest hrest m hm
  cases m with
  | zero => omega
  | succ m =>
      rcases hrest with rfl | ⟨ts, rfl⟩
      · rfl
      · rfl

theorem Body.line {us : List Token} {ss : List Stmt} (h : Body L us ss) :
    Body L (.line :: us) ss := by
  intro rest hrest m hm
  rw [List.length_cons] at hm
  cases m with
  | zero => omega
  | succ m =>
      rw [List.cons_append, stmts]
      exact h rest hrest m (by omega)

theorem StmtPhrase.body {us vs : List Token} {s : Stmt} {ss : List Stmt} (h : StmtPhrase L us s)
    (hrest : Body L vs ss) : Body L (us ++ .line :: vs) (s :: ss) := by
  intro rest hr m hm
  rw [List.length_append, List.length_cons] at hm
  have hpos : 0 < us.length := by
    obtain ⟨t, us', rfl, -⟩ := h.starts
    exact Nat.succ_pos _
  cases m with
  | zero => omega
  | succ m =>
      have hfirst := h.reads (vs ++ rest) m (by omega)
      have hothers := hrest.line rest hr m (by rw [List.length_cons]; omega)
      have hstmts : stmts L (m + 1) (us ++ .line :: (vs ++ rest)) =
          stmt L m (us ++ .line :: (vs ++ rest)) >>= fun first =>
            stmts L m first.2 >>= fun others => some (first.1 :: others.1, others.2) := by
        obtain ⟨t, us', rfl, hline, hbrace⟩ := h.starts
        cases t with
        | line => exact absurd rfl hline
        | rbrace => exact absurd rfl hbrace
        | _ => rfl
      rw [List.append_assoc, List.cons_append, hstmts, hfirst]
      show (stmts L m (.line :: (vs ++ rest)) >>= _) = _
      rw [← List.cons_append, hothers]
      rfl

/-- A term is a statement. -/
theorem Phrase.stmt {us : List Token} {e : Term} (h : Phrase L 5 us e) :
    StmtPhrase L (us ++ [.semi]) (.term e) where
  starts := by
    obtain ⟨t, us', rfl, ht⟩ := h.opens
    refine ⟨t, us' ++ [.semi], rfl, ?_, ?_⟩
    all_goals
      rintro rfl
      exact absurd ht Bool.false_ne_true
  reads rest m hm := by
    rw [List.length_append, List.length_singleton] at hm
    cases m with
    | zero => omega
    | succ m =>
        have hterm := h.reads (.semi :: .line :: rest) (closes_cons (by decide) _) m (by omega)
        rw [List.append_assoc, List.singleton_append]
        -- No statement of another form begins as a term does.
        have hstmt : JavaScript.stmt L (m + 1) (us ++ .semi :: .line :: rest) =
            upTo .semi (term L m 5 (us ++ .semi :: .line :: rest)) >>= fun r =>
              some (.term r.1, r.2) := by
          obtain ⟨t, us', rfl, ht⟩ := h.opens
          cases t with
          | word w =>
              simp only [Token.opens, Bool.and_eq_true, bne_iff_ne] at ht
              obtain ⟨⟨⟨hvar, hret⟩, hif⟩, hfunction⟩ := ht
              rw [List.cons_append, JavaScript.stmt, if_neg hvar, if_neg hret, if_neg hif,
                if_neg hfunction]
          | _ => rfl
        rw [hstmt, hterm, upTo_some]
        rfl

theorem Phrase.ret {us : List Token} {e : Term} (h : Phrase L 5 us e) :
    StmtPhrase L (.word "return" :: (us ++ [.semi])) (.ret e) where
  starts := ⟨_, _, rfl, by simp, by simp⟩
  reads rest m hm := by
    simp only [List.length_cons, List.length_append, List.length_nil] at hm
    cases m with
    | zero => omega
    | succ m =>
        have hterm := h.reads (.semi :: .line :: rest) (closes_cons (by decide) _) m (by omega)
        rw [List.cons_append, List.append_assoc, List.singleton_append, JavaScript.stmt,
          if_neg (by decide), if_pos (by decide), hterm, upTo_some]
        rfl

theorem stmt_var {us : List Token} {items : List (String × Option Term)}
    (h : ∀ rest m, 8 * us.length + 6 ≤ m → declaration L m (us ++ rest) = some (items, rest)) :
    StmtPhrase L (.word "var" :: us) (.var items) where
  starts := ⟨_, _, rfl, by simp, by simp⟩
  reads rest m hm := by
    rw [List.length_cons] at hm
    cases m with
    | zero => omega
    | succ m =>
        rw [List.cons_append, JavaScript.stmt, if_pos (by decide), h _ m (by omega)]
        rfl

/-- The tokens of an `if`, up to its first branch. -/
def ifTokens (us : List Token) : List Token := .word "if" :: .lparen :: (us ++ [.rparen, .lbrace])

theorem stmt_if {us : List Token} {e : Term} (h : Phrase L 5 us e) {ts : List Token} {m : Nat}
    (hm : 8 * (ifTokens us).length ≤ m + 8) :
    JavaScript.stmt L (m + 1) (ifTokens us ++ ts) = branches L m e ts := by
  simp only [ifTokens, List.length_cons, List.length_append, List.length_nil] at hm
  have htest := h.reads (.rparen :: .lbrace :: ts) (closes_cons (by decide) _) m (by omega)
  rw [ifTokens, List.cons_append, List.cons_append, List.append_assoc, JavaScript.stmt,
    if_neg (by decide), if_neg (by decide), if_pos (by decide)]
  show (upTo .lbrace (upTo .rparen (term L m 5 (us ++ Token.rparen :: .lbrace :: ts))) >>= _) = _
  rw [htest, upTo_some, upTo_some]
  rfl

theorem Phrase.onlyIf {us vs : List Token} {e : Term} {yes : List Stmt} (h : Phrase L 5 us e)
    (hyes : Body L vs yes) :
    StmtPhrase L (ifTokens us ++ .line :: (vs ++ [.rbrace])) (.ifElse e yes []) where
  starts := ⟨_, _, rfl, by simp, by simp⟩
  reads rest m hm := by
    simp only [List.length_append, List.length_cons, List.length_nil] at hm
    match m with
    | 0 | 1 => omega
    | m + 2 =>
        have hbody := hyes.line (.rbrace :: .line :: rest) (Or.inr ⟨_, rfl⟩) m
          (by rw [List.length_cons]; omega)
        rw [List.append_assoc, stmt_if h (by omega), branches]
        simp only [List.cons_append, List.append_assoc, List.nil_append] at hbody ⊢
        rw [hbody, upTo_some]
        rfl

theorem Phrase.ifElse {us vs ws : List Token} {e : Term} {yes no : List Stmt}
    (h : Phrase L 5 us e) (hyes : Body L vs yes) (hno : Body L ws no) :
    StmtPhrase L
      (ifTokens us ++ .line :: (vs ++ .rbrace :: .word "else" :: .lbrace :: .line ::
        (ws ++ [.rbrace]))) (.ifElse e yes no) where
  starts := ⟨_, _, rfl, by simp, by simp⟩
  reads rest m hm := by
    simp only [List.length_append, List.length_cons, List.length_nil] at hm
    match m with
    | 0 | 1 => omega
    | m + 2 =>
        have hfirst := hyes.line
          (.rbrace :: .word "else" :: .lbrace :: .line :: (ws ++ .rbrace :: .line :: rest))
          (Or.inr ⟨_, rfl⟩) m (by rw [List.length_cons]; omega)
        have hsecond := hno.line (.rbrace :: .line :: rest) (Or.inr ⟨_, rfl⟩) m
          (by rw [List.length_cons]; omega)
        rw [List.append_assoc, stmt_if h (by omega), branches]
        simp only [List.cons_append, List.append_assoc, List.nil_append] at hfirst hsecond ⊢
        rw [hfirst, upTo_some]
        show (upTo .rbrace (stmts L m (Token.line :: (ws ++ Token.rbrace :: .line :: rest))) >>= _) = _
        rw [hsecond, upTo_some]
        rfl

end RubyJs.JavaScript
