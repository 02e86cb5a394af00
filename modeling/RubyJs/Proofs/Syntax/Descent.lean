import RubyJs.Proofs.Syntax.Steady
import RubyJs.Syntax.Parser

set_option autoImplicit false

/-! # The grammar reads steadily

There is a lemma for each rule of the grammar, which says that it is steady if the rules are that it
falls back on (`Rules.Steady`), here and in the twin text. Those rules are known to be steady from
states with fewer than `k` bytes left. A rule that an operand can begin with is steady from `k + 1`
bytes: it takes a token before it falls back, and that is also what a repetition of it lives on. All
others are steady from `k` bytes, since a token is taken before they are used.

So a level of `k` is enough for `k` bytes, one above it reads the same, and so does the twin text
(`steady_level`).
-/

namespace RubyJs

open Reading Grammar
open ReadState (Moves Ready On)

/-- That the rules `r` and `r'` of twin texts read alike, and steadily, where fewer than `k` bytes are
left. -/
structure Rules.Steady (T : Twins) (k : Nat) (r r' : Rules) : Prop where
  file : r.file = r'.file
  left : r.text = T.left
  right : r'.text = T.right
  stmts : Tracks T k r.stmts r'.stmts
  exprStmt : Tracks T k r.exprStmt r'.exprStmt
  notExpr : Tracks T k r.notExpr r'.notExpr
  expr : Tracks T k r.expr r'.expr
  ternary : Tracks T k r.ternary r'.ternary
  binary : ∀ level, Tracks T k (r.binary level) (r'.binary level)
  unary : Tracks T k r.unary r'.unary

namespace Steady

variable {T : Twins} {k : Nat} {r r' : Rules}
variable {close : TokenKind}

/-! ## Names -/

theorem operatorName (kind : TokenKind) {cause : Cause} (h : cause.ofText = true) :
    Tracks T k (operatorName kind cause) (Grammar.operatorName kind cause) := by
  unfold Grammar.operatorName
  split
  · exact value
  · exact faultBefore h

theorem methodNameAfterDot : Tracks T k methodNameAfterDot Grammar.methodNameAfterDot := by
  refine advances rfl fun kind => ?_
  split
  case h_4 => exact operatorName _ rfl
  all_goals exact value

theorem definedName : Tracks T k definedName Grammar.definedName := by
  refine advances rfl fun kind => ?_
  split
  case' h_4 => refine after (expect rfl) fun _ => ?_
  case' h_5 => refine after (operatorName _ rfl) fun _ => ?_
  case' h_1 | h_2 | h_3 | h_4 => refine after value fun _ => ?_
  all_goals
    refine faced fun t t' ht _ => of_on ?_
    have hkind : (t.kind == .assign) = (t'.kind == .assign) :=
      ht.kind.eq_of_blind (f := (· == .assign)) rfl
    rw [hkind, ht.spaced]
    exact ite (advances rfl fun _ => value) value

theorem methodOperand : Tracks T k methodOperand Grammar.methodOperand := by
  refine advances rfl fun kind => ?_
  split
  case h_6 => exact after (expect rfl) fun _ => value
  case h_7 => exact operatorName _ rfl
  all_goals exact value

theorem parameterName : Tracks T k parameterName Grammar.parameterName := by
  refine advances rfl fun kind => ?_
  split
  · exact after (declare _) fun _ => value
  · exact faultBefore rfl

theorem constantName : Tracks T k constantPath.constantName constantPath.constantName := by
  refine advances rfl fun kind => ?_
  split
  · exact value
  · exact faultBefore rfl

theorem constantPath : Tracks T k constantPath Grammar.constantPath := by
  refine after (eat rfl) fun top => after constantName fun first => ?_
  refine repeatFrom fun ⟨base, name⟩ => ?_
  exact eaten (by rfl) (by nofun) (after constantName fun inner => value) done

theorem parenFollows : Tracks T k parenFollows Grammar.parenFollows := by
  refine faced fun t t' ht _ => ?_
  have hkind : (t.kind == .lparen) = (t'.kind == .lparen) :=
    ht.kind.eq_of_blind (f := (· == .lparen)) rfl
  rw [hkind, ht.spaced]
  exact value

theorem commandFollows : Tracks T k commandFollows Grammar.commandFollows := by
  refine get fun s s' halike => ?_
  have hkind : ∀ glued, beginsArgument s.tokens.current.kind glued =
      beginsArgument s'.tokens.current.kind glued := fun glued =>
    halike.tokens.current.kind.eq_of_blind (f := (beginsArgument · glued)) rfl
  dsimp only
  rw [hkind, halike.tokens.current.spaced, halike.tokens.second.spaced]
  exact value

theorem thenWord : Tracks T k thenWord Grammar.thenWord := by
  refine after eatKeyword fun found => ite ?_ value
  exact after requireTerminator fun _ => after eatKeyword fun _ => value

/-! ## Arguments -/

section Rules

variable (hr : r.Steady T k r')

include hr

theorem argument (a : Arguments) : Tracks T k (argument r a) (Grammar.argument r' a) := by
  refine looked rfl fun kind => ?_
  split
  · exact advances rfl fun _ => after hr.ternary fun e => value
  · exact advances rfl fun _ => after hr.ternary fun e => value
  · exact advances rfl fun _ => after skipNewlines fun _ => after hr.expr fun e => value
  · refine after hr.expr fun e => after (eat rfl) fun arrow => ite ?_ value
    exact after skipNewlines fun _ => after hr.expr fun e' => value

theorem delimitedArguments (hclose : T.Sees (· == close)) :
    Tracks T k (delimitedArguments r close) (Grammar.delimitedArguments r' close) := by
  refine withDoTaken (repeatFrom fun a => ?_) _
  refine after skipNewlines fun _ => after (eats hclose) fun closed => ite done ?_
  refine after (argument hr a) fun a' => after skipNewlines fun _ => eaten (by rfl) (by nofun) value ?_
  exact after skipNewlines fun _ => after (expects hclose) fun _ => done

theorem commandArguments : Tracks T k (commandArguments r) (Grammar.commandArguments r') := by
  refine withDoTaken (repeatFrom fun a => after (argument hr a) fun a' => ?_) _
  exact eaten (by rfl) (by nofun) (after skipNewlines fun _ => value) done

theorem arguments? : Tracks T k (arguments? r) (Grammar.arguments? r') := by
  refine after parenFollows fun paren => ite (advances rfl fun _ => ?_) ?_
  · exact after (delimitedArguments hr (.inr rfl)) fun a => value
  · refine after commandFollows fun command => ite ?_ value
    exact after (commandArguments hr) fun a => value

/-! ## Parameters and blocks -/

omit hr in
theorem namedParameter {m m' : Reading Expr} (hm : Tracks T k m m')
    (p : Params Expr) (name : String) :
    Tracks T k (namedParameter m p name) (Grammar.namedParameter m' p name) := by
  refine after (declare name) fun _ => after (eat rfl) fun assign => ite ?_ value
  exact after hm fun e => value

theorem blockParameters : Tracks T k (blockParameters r) (Grammar.blockParameters r') := by
  refine repeatFrom fun p => after skipNewlines fun _ => after (eat rfl) fun closed => ite done ?_
  refine advances rfl fun kind => ?_
  split
  case' h_1 => refine after (namedParameter hr.unary p _) fun p' => ?_
  case' h_2 | h_3 => refine after parameterName fun n => after value fun p' => ?_
  case h_4 | h_5 => exact faultBefore rfl
  -- After each parameter comes another one or the bar.
  all_goals
    refine eaten (by rfl) (by nofun) value ?_
    exact after skipNewlines fun _ => after (expect rfl) fun _ => done

theorem someParameters (closed : Bool) :
    Tracks T k (someParameters r closed) (Grammar.someParameters r' closed) := by
  refine repeatFrom fun p => ite (after skipNewlines fun _ => ?_) ?_
  -- What follows is the same with parentheses and without.
  all_goals
    refine advances rfl fun kind => ?_
    split
    case' h_1 => refine after (namedParameter hr.ternary p _) fun p' => ?_
    case' h_2 | h_3 => refine after parameterName fun n => after value fun p' => ?_
    case h_4 | h_5 => exact faultBefore rfl
    all_goals exact eaten (by rfl) (by nofun) value done

theorem methodParameters : Tracks T k (methodParameters r) (Grammar.methodParameters r') := by
  refine after (eat rfl) fun opened => ite (after skipNewlines fun _ => ?_) ?_
  · refine after (eat rfl) fun closed => ite value ?_
    refine after (someParameters hr true) fun p => after skipNewlines fun _ => ?_
    exact after (expect rfl) fun _ => value
  · exact after atTerminator fun ends => ite value (someParameters hr false)

theorem blockContents (hclose : T.Sees (· == close)) :
    Tracks T k (blockContents r close) (Grammar.blockContents r' close) := by
  refine after (eat rfl) fun bar => ite ?_ ?_
  case' refine_1 => refine after (blockParameters hr) fun p => ?_
  case' refine_2 => refine after (eat rfl) fun _ => after value fun p => ?_
  all_goals exact after hr.stmts fun body => after (expects hclose) fun _ => value

theorem block (hclose : T.Sees (· == close)) :
    Tracks T k (block r close) (Grammar.block r' close) :=
  advances rfl fun _ => inScope (withDoTaken (blockContents hr hclose) _) _

theorem block? : Tracks T k (block? r) (Grammar.block? r') := by
  refine after (atKind (.inr rfl)) fun brace => ite ?_ ?_
  · exact after (block hr (.inr rfl)) fun b => value
  · refine after atKeyword fun word => get fun s s' halike => ?_
    rw [halike.noDo]
    exact ite (after (block hr (.inr rfl)) fun b => value) value

theorem callRest (recv : Option Expr) (name : String) :
    Tracks T k (callRest r recv name) (Grammar.callRest r' recv name) :=
  after (arguments? hr) fun _ => after (block? hr) fun _ => value

/-! ## Literals -/

/-- The code of an interpolation has fewer bytes than its literal, and the tokens around it are there
again when it is read. -/
theorem embedded {span span' : Span} (hspan : T.code span span')
    (hcode : Lexer.CodeSpan T.left span) (hle : span.start ≤ span.stop)
    (hlt : span.stop < span.start + k) :
    Tracks T k (embedded r span) (Grammar.embedded r' span') := by
  unfold Grammar.embedded
  rw [hr.left, hr.right]
  split
  · rename_i f hlex
    refine fun _ _ _ _ => .fault (lexRange_blames T.left span f hlex) fun hsame => ?_
    rw [Twins.lexRange_eq hsame hspan, hlex]
    rfl
  · rename_i l hlex
    obtain ⟨l', hlex', hwritten⟩ := T.lexed hspan hlex
    rw [hlex']
    intro s s' hs halike
    have hinner : Ready T.left k { s with tokens := Stream.ofLexed l } := by
      have hcut : Lexed.Cut T.left span l := .code hcode hlex
      have hat := Stream.ofLexed_at l
      have hstart := hcut.placed.start_le_start (List.mem_of_getElem? hat.current) hle
      refine ⟨hs.scopes, span, l, 0, hcut, hat, ?_⟩
      show span.stop < (Stream.ofLexed l).current.span.start + k
      omega
    have hinside : ReadState.Alike T { s with tokens := Stream.ofLexed l }
        { s' with tokens := Stream.ofLexed l' } := by
      refine ⟨Stream.alike_ofLexed hwritten, halike.scopes, halike.noDo, fun hsame => ?_⟩
      rw [Twins.lexRange_eq hsame hspan, hlex] at hlex'
      rw [halike.equal hsame, Except.ok.inj hlex']
    refine enclosed _ _ (fun body t => .ok (body, { t with tokens := s.tokens }))
      (fun body t => .ok (body, { t with tokens := s'.tokens }))
      (withDoTaken (after hr.stmts fun body => after (expect (by rfl)) fun _ => value) false) hinner
      hinside rfl rfl fun body t t' hmoves ht => .read ?_ ?_
    · exact ⟨fun ts i hat => ⟨i, Nat.le_refl i, False.elim, hat⟩, hmoves.scopes, hmoves.noDo⟩
    · refine ⟨halike.tokens, ht.scopes, ht.noDo, fun hsame => ?_⟩
      rw [ht.equal hsame, halike.equal hsame]

theorem parts {ss ss' : List Segment}
    (halike : List.Forall₂ (Segment.Alike T.code) ss ss') (h : CodeFits T.left k ss) :
    Tracks T k (parts r ss) (Grammar.parts r' ss') := by
  induction halike with
  | nil => exact value
  | cons hs _ ih =>
      have hrest := ih fun span hspan => h span (List.mem_cons_of_mem _ hspan)
      cases hs with
      | text t => exact after hrest fun ps => value
      | @code span span' hspan =>
          obtain ⟨hcode, hle, hlt⟩ := h span List.mem_cons_self
          exact after (embedded hr hspan hcode hle hlt) fun body => after hrest fun ps => value

theorem strings {ss ss' : List Segment}
    (halike : List.Forall₂ (Segment.Alike T.code) ss ss') (h : CodeFits T.left k ss) :
    Tracks T k (strings r ss) (Grammar.strings r' ss') := by
  refine after (parts hr halike h) fun first => after (repeatFrom fun ps => ?_) fun all => ?_
  · refine peeks fun kind kind' hkind => ?_
    cases hkind with
    | xstr => exact of_on done
    | dsymbol => exact of_on done
    | str hss =>
        refine advanced (by nofun) (Nat.le_succ k) fun hfits => ?_
        exact after (parts hr hss hfits) fun ps' => value
    | plain hplain =>
        split
        · obtain rfl : _ = [] := hplain
          refine advanced (by nofun) (Nat.le_succ k) fun hfits => ?_
          exact after (parts hr .nil hfits) fun ps' => value
        · exact of_on done
  · split <;> exact value

theorem hashKey : Tracks T k (hashLiteral.hashKey r) (hashLiteral.hashKey r') := by
  refine looked rfl fun kind => ?_
  split
  · exact advances rfl fun _ => value
  · refine after hr.expr fun key => after skipNewlines fun _ => ?_
    exact after (expect rfl) fun _ => value

theorem hashLiteral : Tracks T k (hashLiteral r) (Grammar.hashLiteral r') := by
  refine withDoTaken (repeatFrom fun pairs => ?_) _
  refine after skipNewlines fun _ => after (eat rfl) fun closed => ite done ?_
  refine after (hashKey hr) fun key => after skipNewlines fun _ => after hr.expr fun value' => ?_
  refine after skipNewlines fun _ => eaten (by rfl) (by nofun) value ?_
  exact after skipNewlines fun _ => after (expect rfl) fun _ => done

theorem parenthesised : Tracks T k (parenthesised r) (Grammar.parenthesised r') := by
  refine withDoTaken (after hr.stmts fun body => after (expect (by rfl)) fun _ => ?_) _
  split <;> exact value

/-! ## Conditions and clauses -/

theorem branch : Tracks T k (branch r) (Grammar.branch r') :=
  after hr.exprStmt fun _ => after thenWord fun _ => after hr.stmts fun _ => value

theorem elseBranches : Tracks T k (elseBranches r) (Grammar.elseBranches r') := by
  refine repeatFrom fun branches => eaten (by rfl) (by nofun) (after (branch hr) fun b => value) ?_
  refine after eatKeyword fun last => ite ?_ ?_
  case' refine_1 => refine after hr.stmts fun body => ?_
  case' refine_2 => refine after value fun body => ?_
  all_goals exact done

theorem ifExpr (negated : Bool) : Tracks T k (ifExpr r negated) (Grammar.ifExpr r' negated) := by
  refine after (branch hr) fun b => after (elseBranches hr) fun other => ?_
  exact after expectKeyword fun _ => value

theorem loopExpr (isUntil : Bool) :
    Tracks T k (loopExpr r isUntil) (Grammar.loopExpr r' isUntil) := by
  refine after (withDoTaken hr.exprStmt _) fun cond => after eatKeyword fun word => ?_
  refine ite (after requireTerminator fun _ => ?_) ?_
  all_goals exact after hr.stmts fun body => after expectKeyword fun _ => value

theorem body? (w : Keyword) : Tracks T k (body? r w) (Grammar.body? r' w) :=
  after eatKeyword fun _ => ite (after hr.stmts fun _ => value) value

theorem whenValues : Tracks T k (whenValues r) (Grammar.whenValues r') := by
  refine repeatFrom fun values => after (eat rfl) fun star => ite ?_ ?_
  case' refine_1 => refine after hr.ternary fun e => after value fun e' => ?_
  case' refine_2 => refine after hr.ternary fun e' => ?_
  all_goals exact eaten (by rfl) (by nofun) (after skipNewlines fun _ => value) done

theorem whenClauses : Tracks T k (whenClauses r) (Grammar.whenClauses r') := by
  refine repeatFrom fun whens => eaten (by rfl) (by nofun) ?_ done
  refine after (whenValues hr) fun values => after thenWord fun _ => ?_
  exact after hr.stmts fun body => value

theorem caseExpr : Tracks T k (caseExpr r) (Grammar.caseExpr r') := by
  refine after atTerminator fun bare => ite ?_ ?_
  case' refine_1 => refine after value fun subject => ?_
  case' refine_2 => refine after hr.exprStmt fun e => after value fun subject => ?_
  all_goals
    refine after skipTerminators fun _ => after (whenClauses hr) fun whens => ?_
    refine ite (faultHere rfl) (after (body? hr _) fun elseBody => ?_)
    exact after expectKeyword fun _ => value

theorem rescueClasses : Tracks T k (rescueClasses r) (Grammar.rescueClasses r') := by
  refine repeatFrom fun classes => after atTerminator fun ends => after (atKind (.inr rfl)) fun arrow => ?_
  refine after atKeyword fun word => ite done ?_
  exact after hr.ternary fun e => eaten (by rfl) (by nofun) value done

theorem rescueClauses : Tracks T k (rescueClauses r) (Grammar.rescueClauses r') := by
  refine repeatFrom fun rescues => eaten (by rfl) (by nofun) ?_ done
  refine after (rescueClasses hr) fun classes => after (eat rfl) fun arrow => ite ?_ ?_
  case' refine_1 => refine after parameterName fun n => after value fun var => ?_
  case' refine_2 => refine after value fun var => ?_
  all_goals exact after thenWord fun _ => after hr.stmts fun body => value

theorem guardedBody : Tracks T k (guardedBody r) (Grammar.guardedBody r') := by
  refine after hr.stmts fun body => after (rescueClauses hr) fun rescues => ?_
  refine after (body? hr _) fun elseBody => after (body? hr _) fun ensureBody => ?_
  exact after expectKeyword fun _ => value

/-! ## Definitions -/

omit hr in
theorem singleton? : Tracks T k singleton? Grammar.singleton? := by
  refine get fun s s' halike => ?_
  have hdot : (s.tokens.second.kind != .dot) = (s'.tokens.second.kind != .dot) :=
    halike.tokens.second.kind.eq_of_blind (f := (· != .dot)) rfl
  have hkind := halike.tokens.current.kind
  dsimp only
  rw [hdot]
  generalize s.tokens.current.kind = kind, s'.tokens.current.kind = kind' at hkind ⊢
  refine ite value ?_
  cases hkind
  case' plain =>
    split
    case' h_3 =>
      refine after (isLocal _) fun known => ?_
      split
  all_goals
    refine after value fun target => ite ?_ value
    exact advances rfl fun _ => advances rfl fun _ => value

theorem methodContents : Tracks T k (methodContents r) (Grammar.methodContents r') :=
  after (methodParameters hr) fun _ => after (guardedBody hr) fun _ => value

theorem defineExpr : Tracks T k (defineExpr r) (Grammar.defineExpr r') := by
  refine after singleton? fun target => after definedName fun name => ?_
  exact after (inScope (methodContents hr) _) fun contents => value

theorem scopedBody : Tracks T k (scopedBody r) (Grammar.scopedBody r') :=
  inScope (after hr.stmts fun _ => after expectKeyword fun _ => value) _

theorem classExpr : Tracks T k (classExpr r) (Grammar.classExpr r') := by
  refine after (eat rfl) fun single => ite ?_ ?_
  · exact after hr.expr fun target => after (scopedBody hr) fun body => value
  · refine after constantPath fun path => after (eat rfl) fun found => ite ?_ ?_
    case' refine_1 => refine after hr.expr fun e => after value fun parent => ?_
    case' refine_2 => refine after value fun parent => ?_
    all_goals exact after (scopedBody hr) fun body => value

theorem moduleExpr : Tracks T k (moduleExpr r) (Grammar.moduleExpr r') :=
  after constantPath fun _ => after (scopedBody hr) fun _ => value

/-! ## Jumps and other words -/

theorem jumpValue : Tracks T k (jumpValue r) (Grammar.jumpValue r') := by
  refine looked rfl fun kind => ite value (after hr.expr fun first => ?_)
  refine after (atKind (.inr rfl)) fun comma => ite value (repeatFrom fun values => ?_)
  exact eaten (by rfl) (by nofun) (after hr.expr fun e => value) done

omit hr in
theorem undefNames : Tracks T k undefNames Grammar.undefNames := by
  refine after methodOperand fun first => repeatFrom fun names => ?_
  exact eaten (by rfl) (by nofun) (after methodOperand fun n => value) done

/-- What a word begins is steady as far as taking the word is. -/
theorem keywordExpr {P : ReadState → Prop} {took : Expr → Prop}
    (htaken : ∀ {p p' : Reading Expr}, Tracks T k p p' →
      Steady T P (Reading.advance >>= fun _ => p) (Reading.advance >>= fun _ => p') took)
    (w : Keyword) : Steady T P (keywordExpr r w) (Grammar.keywordExpr r' w) took := by
  unfold Grammar.keywordExpr
  split
  · exact htaken value
  · exact htaken value
  · exact htaken value
  · exact htaken value
  · rw [hr.file]
    exact htaken value
  · exact htaken (ifExpr hr _)
  · exact htaken (ifExpr hr _)
  · exact htaken (loopExpr hr _)
  · exact htaken (loopExpr hr _)
  · exact htaken (caseExpr hr)
  · exact htaken (guardedBody hr)
  · exact htaken (defineExpr hr)
  · exact htaken (classExpr hr)
  · exact htaken (moduleExpr hr)
  · exact htaken (after (jumpValue hr) fun v => value)
  · exact htaken (after (jumpValue hr) fun v => value)
  · exact htaken (after (jumpValue hr) fun v => value)
  · exact htaken (after (arguments? hr) fun a => value)
  · exact htaken (after (arguments? hr) fun a => after (block? hr) fun b => value)
  · exact htaken (after methodOperand fun a => after methodOperand fun b => value)
  · exact htaken (after undefNames fun names => value)
  · exact htaken (after hr.expr fun e => value)
  · exact unexpected

/-! ## Operands -/

theorem primary : Takes T (k + 1) (primary r) (Grammar.primary r') := by
  have htaken : ∀ {kind : TokenKind}, kind ≠ .eof → ∀ {p p' : Reading Expr},
      (CodeFits T.left k kind.segments → Tracks T k p p') →
      Steady T (On T.left (k + 1) kind) (primary.taken p) (primary.taken p') Always := by
    intro kind hkind p p' hp
    show Steady T _ (Reading.advance >>= fun _ => p) (Reading.advance >>= fun _ => p') _
    exact advanced hkind (Nat.le_refl _) hp
  refine faced fun t t' _ hequal => of_on (peeks fun kind kind' hkind => ?_)
  cases hkind with
  | str h => exact htaken (by nofun) fun hfits => strings hr h hfits
  | xstr h => exact htaken (by nofun) fun hfits => after (parts hr h hfits) fun ps => value
  | dsymbol h =>
      refine htaken (by nofun) fun hfits => after (parts hr h hfits) fun ps => ?_
      split <;> exact value
  | plain hplain =>
      split
      · exact htaken (by nofun) fun _ => value
      · exact htaken (by nofun) fun _ => value
      · obtain rfl : _ = [] := hplain
        exact htaken (by nofun) fun hfits => strings hr .nil hfits
      · obtain rfl : _ = [] := hplain
        exact htaken (by nofun) fun hfits => after (parts hr .nil hfits) fun ps => value
      · exact htaken (by nofun) fun _ => value
      · obtain rfl : _ = [] := hplain
        refine htaken (by nofun) fun hfits => after (parts hr .nil hfits) fun ps => ?_
        split <;> exact value
      · exact htaken (by nofun) fun _ => value
      · exact htaken (by nofun) fun _ => value
      · exact htaken (by nofun) fun _ => value
      · refine htaken (by nofun) fun _ => after parenFollows fun paren => ?_
        exact ite (callRest hr _ _) value
      · refine htaken (by nofun) fun _ => after (isLocal _) fun known => ?_
        exact after parenFollows fun paren => ite value (callRest hr _ _)
      · refine htaken (by nofun) fun _ => advances rfl fun kind => ?_
        split
        · exact value
        · exact faultBefore rfl
      · exact htaken (by nofun) fun _ => parenthesised hr
      · refine htaken (by nofun) fun _ => after (delimitedArguments hr (.inr rfl)) fun a => ?_
        exact ite (faultAt rfl fun hsame => by rw [hequal hsame]) value
      · exact htaken (by nofun) fun _ => hashLiteral hr
      · exact keywordExpr hr (fun h => advanced (by nofun) (Nat.le_refl _) fun _ => h) _
      · exact unexpected

theorem trailers (e : Expr) : Tracks T k (trailers r e) (Grammar.trailers r' e) := by
  refine repeatFrom fun e => faced fun t t' ht _ => ?_
  obtain ⟨kind, span, spaced⟩ := t
  obtain ⟨kind', span', spaced'⟩ := t'
  obtain ⟨hkind, hspaced⟩ := ht
  obtain rfl : spaced = spaced' := hspaced
  cases hkind with
  | str => exact of_on done
  | xstr => exact of_on done
  | dsymbol => exact of_on done
  | plain =>
      dsimp only
      split
      · refine advanced (by nofun) (Nat.le_succ k) fun _ => after skipNewlines fun _ => ?_
        exact after methodNameAfterDot fun name => after (callRest hr _ _) fun e' => value
      · refine advanced (by nofun) (Nat.le_succ k) fun _ => advances rfl fun kind => ?_
        split
        · refine after parenFollows fun paren => ite ?_ value
          exact after (callRest hr _ _) fun e' => value
        · exact after (callRest hr _ _) fun e' => value
        · exact faultBefore rfl
      · refine ite (advanced (by nofun) (Nat.le_succ k) fun _ => ?_) (of_on done)
        exact after (delimitedArguments hr (.inr rfl)) fun a => value
      · exact of_on done

/-! ## Operators -/

theorem power (base : Expr) : Tracks T k (power r base) (Grammar.power r' base) :=
  after (eat rfl) fun _ => ite (after hr.unary fun _ => value) value

theorem signed (negative : Bool) : Tracks T k (signed r negative) (Grammar.signed r' negative) := by
  refine get fun s s' halike => ?_
  have hpow : (s.tokens.second.kind != .pow) = (s'.tokens.second.kind != .pow) :=
    halike.tokens.second.kind.eq_of_blind (f := (· != .pow)) rfl
  have hliteral : ∀ sign, signedLiteral? sign s.tokens.current.kind =
      signedLiteral? sign s'.tokens.current.kind := fun sign =>
    halike.tokens.current.kind.eq_of_blind (f := signedLiteral? sign) rfl
  dsimp only
  rw [hpow, hliteral, halike.tokens.current.spaced]
  split
  · refine advances rfl fun _ => after (trailers hr _) fun e => ?_
    exact after (power hr _) fun e' => value
  · exact after hr.unary fun e => value

theorem unary : Takes T (k + 1) (unary r) (Grammar.unary r') := by
  refine peeked rfl fun kind => ?_
  split
  · exact advanced (by nofun) (Nat.le_refl _) fun _ => signed hr _
  · exact advanced (by nofun) (Nat.le_refl _) fun _ => signed hr _
  · exact advanced (by nofun) (Nat.le_refl _) fun _ => after hr.unary fun e => value
  · exact advanced (by nofun) (Nat.le_refl _) fun _ => after hr.unary fun e => value
  · exact of_on (taking (primary hr) fun e => after (trailers hr e) fun e' => power hr e')

theorem binary (level : Nat) : Takes T (k + 1) (binary r level) (Grammar.binary r' level) := by
  refine taking (unary hr) fun first => repeatFrom fun left => peeked rfl fun kind => ?_
  split
  · exact of_on done
  · rename_i hop
    refine ite (of_on done) (advanced ?_ (Nat.le_succ k) fun _ => after skipNewlines fun _ => ?_)
    · rintro rfl
      cases hop
    · exact after (hr.binary _) fun right => value

theorem range : Takes T (k + 1) (range r) (Grammar.range r') := by
  refine taking (binary hr 0) fun first => looked rfl fun kind => ?_
  have hlast := (binary hr 0).mono (Nat.le_succ k)
  split
  case h_3 => exact value
  all_goals exact advances rfl fun _ => after hlast fun last => value

theorem ternary : Takes T (k + 1) (ternary r) (Grammar.ternary r') := by
  refine taking (range hr) fun cond => after (eat rfl) fun found => ite value ?_
  refine after skipNewlines fun _ => after hr.ternary fun yes => after skipNewlines fun _ => ?_
  refine after (expect rfl) fun _ => after skipNewlines fun _ => ?_
  exact after hr.ternary fun no => value

/-! ## Assignment -/

omit hr in
theorem target (e : Expr) {start start' : Nat} (hstart : T.same → start = start') :
    Tracks T k (target e start) (Grammar.target e start') := by
  unfold Grammar.target
  split
  case h_5 =>
    refine ite (after (declare _) fun _ => value) ?_
    split
    · exact ite value (ite value (faultAt rfl hstart))
    · exact faultAt rfl hstart
  case h_6 => exact faultAt rfl hstart
  all_goals exact value

theorem expression : Takes T (k + 1) (Grammar.expr r) (Grammar.expr r') := by
  refine faced fun t t' _ hequal => of_on (taking (ternary hr) fun left => looked rfl fun kind => ?_)
  have hstart : T.same → t.span.start = t'.span.start := fun hsame => by rw [hequal hsame]
  split
  · exact after (target _ hstart) fun t => advances rfl fun _ => after hr.expr fun v => value
  · exact after (target _ hstart) fun t => advances rfl fun _ => after hr.expr fun v => value
  · exact value

/-! ## Statements -/

theorem notExpr : Takes T (k + 1) (notExpr r) (Grammar.notExpr r') := by
  refine eatKeyword.bind (fun _ hs => hs) (Nat.le_refl _) (fun found ht => ?_)
    fun found ht => ?_
  · rw [if_pos ht.1, if_pos ht.1]
    exact after hr.notExpr fun e => value
  · have hfound : ¬ found = true := fun hfound => ht ⟨hfound, by nofun⟩
    rw [if_neg hfound, if_neg hfound]
    exact expression hr

theorem exprStmt : Takes T (k + 1) (exprStmt r) (Grammar.exprStmt r') := by
  have hnext := (notExpr hr).mono (Nat.le_succ k)
  refine taking (notExpr hr) fun first => repeatFrom fun left => ?_
  refine eaten (by rfl) (by nofun) (after hnext fun right => value) ?_
  exact eaten (by rfl) (by nofun) (after hnext fun right => value) done

theorem stmt : Takes T (k + 1) (stmt r) (Grammar.stmt r') := by
  have hnext := (exprStmt hr).mono (Nat.le_succ k)
  refine taking (exprStmt hr) fun first => repeatFrom fun e => peeked rfl fun kind => ?_
  split
  case h_6 => exact of_on done
  all_goals exact advanced (by nofun) (Nat.le_succ k) fun _ => after hnext fun e' => value

theorem stmts : Tracks T (k + 1) (stmts r) (Grammar.stmts r') := by
  refine repeatFrom fun body => after skipTerminators fun _ => looked rfl fun kind => ite done ?_
  refine taking (stmt hr) fun e => looked rfl fun kind => looked rfl fun kind' => ?_
  exact ite unexpected value

end Rules

end Steady

namespace Rules

theorem file_level (file text : String) (n : Nat) : (level file text n).file = file := by
  cases n <;> rfl

theorem text_level (file text : String) (n : Nat) : (level file text n).text = text := by
  cases n <;> rfl

/-- Where fewer than `k` bytes are left, levels of `k` and more read alike and steadily. -/
theorem steady_level (T : Twins) (file : String) {k n n' : Nat} (hn : k ≤ n) (hn' : k ≤ n') :
    (level file T.left n).Steady T k (level file T.right n') := by
  have hfile : (level file T.left n).file = (level file T.right n').file := by
    rw [file_level, file_level]
  induction k generalizing n n' with
  | zero =>
      -- No state has fewer than zero bytes left.
      have hnone : ∀ {α : Type} {m m' : Reading α}, Tracks T 0 m m' :=
        fun s s' hs => absurd hs.pos (Nat.lt_irrefl 0)
      exact ⟨hfile, text_level .., text_level .., hnone, hnone, hnone, hnone, hnone,
        fun _ => hnone, hnone⟩
  | succ k ih =>
      cases n with
      | zero => exact absurd hn (Nat.not_succ_le_zero k)
      | succ n =>
          cases n' with
          | zero => exact absurd hn' (Nat.not_succ_le_zero k)
          | succ n' =>
              have hr := ih (Nat.le_of_succ_le_succ hn) (Nat.le_of_succ_le_succ hn')
                (by rw [file_level, file_level])
              exact ⟨hfile, text_level .., text_level .., .stmts hr, .maybe (.exprStmt hr),
                .maybe (.notExpr hr), .maybe (.expression hr), .maybe (.ternary hr),
                fun level => .maybe (.binary hr level), .maybe (.unary hr)⟩

end Rules

end RubyJs
