import RubyJs.Proofs.Syntax.Regular
import RubyJs.Proofs.Syntax.Streams

set_option autoImplicit false

/-! # The grammar reads regular and scoped trees

There is a lemma for each rule of the grammar, which says that what it reads fits, and binds all that
becomes known, if this holds of what the rules give that it falls back on (`Rules.Fit`). So it does
at every level (`fit_level`).

Two kinds of lists need not keep all that binds a name: of several parameters with a star, or with
an ampersand, the last is kept, and so it is with arguments. A `yield` has no block, and keeps none.

    def f(*a, *b) a end          a is known in the body, and no parameter
    f(&(x = 1), &y)              x is known from here on, and nothing assigns to it

The names that are `Lost` in this way count as bound.
-/

namespace RubyJs

open Reading Grammar
open Holder (exprs)

/-! ## Lost names -/

/-- That the next token is the name `x`, after a star or an ampersand. -/
def Stream.Splats (b : Stream) (x : String) : Prop :=
  (b.current.kind = .star ∨ b.current.kind = .amp) ∧ b.next.current.kind = .ident x

/-- That `x` may be read right after a star or an ampersand. -/
def Setting.Splats (c : Setting) (x : String) : Prop := ∃ b, c.stands b ∧ b.Splats x

/-- That from `s` to `t` a list is read, and perhaps what stands in its scope. The tree keeps the
parameters `names` and the expressions `es` of it. The tokens from `place` on have the names that it
may lose. -/
inductive Grammar.Collects (r : Rules) :
    Stream → ReadState → ReadState → List String → List Expr → (String → Prop) → Prop where
  | method {s u t : ReadState} {name : String} {m : Params Expr × List Expr}
      (word : s.tokens.current.kind = .keyword .defKw)
      (head : (do let _ ← advance; let _ ← singleton?; definedName) s = .ok (name, u))
      (contents : methodContents r { u with scopes := ⟨[], false⟩ :: u.scopes } = .ok (m, t)) :
      Collects r s.tokens { u with scopes := ⟨[], false⟩ :: u.scopes } t m.1.names (exprs m)
        fun x => ∃ b, s.tokens.Later b ∧ b.Splats x
  | block {close : TokenKind} {s t : ReadState} {b : Block Expr}
      (contents : blockContents r close s = .ok (b, t)) :
      Collects r s.tokens s t b.params.names (exprs b) fun x => ∃ b, s.tokens.Later b ∧ b.Splats x
  | delimited {close : TokenKind} {s t : ReadState} {a : Arguments}
      (arguments : delimitedArguments r close s = .ok (a, t)) :
      Collects r s.tokens s t [] (exprs a) fun _ => ∃ b, s.tokens.Later b ∧ b.current.kind = .amp
  | command {s t : ReadState} {a : Arguments} (arguments : commandArguments r s = .ok (a, t)) :
      Collects r s.tokens s t [] (exprs a) fun _ => ∃ b, s.tokens.Later b ∧ b.current.kind = .amp
  | yield {s t : ReadState} {a : Option Arguments}
      (word : s.tokens.current.kind = .keyword .yieldKw)
      (arguments : (do let _ ← advance; arguments? r) s = .ok (a, t)) :
      Collects r s.tokens s t [] (exprs (a.getD {}).list)
        fun _ => ∃ b, s.tokens.Later b ∧ b.current.kind = .amp

/-- That a list at `place` makes `x` known, and the tree keeps nothing of it that binds `x`. -/
def Grammar.Loses (r : Rules) (place : Stream) (x : String) : Prop :=
  ∃ s t names es may, Collects r place s t names es may ∧ may x ∧ isLocalIn x t.scopes = true ∧
    isLocalIn x s.scopes = false ∧ x ∉ names ∧ ∀ e ∈ es, ¬ e.Assigned x

/-- That a list in the unit `file` with the text `text` loses `x`. -/
def Lost (file text : String) (x : String) : Prop :=
  ∃ range l place n, Lexed.Cut text range l ∧ (Stream.ofLexed l).Later place ∧
    Loses (Rules.level file text n) place x

/-! ## The rules -/

/-- That the rules read what fits. -/
structure Rules.Fit (c : Setting) (r : Rules) : Prop where
  stmts : ∀ {K : String → Prop}, Reads c K True r.stmts (fit c K)
  exprStmt : ∀ {K : String → Prop}, Reads c K True r.exprStmt (fit c K)
  notExpr : ∀ {K : String → Prop}, Reads c K True r.notExpr (fit c K)
  expr : ∀ {K : String → Prop}, Reads c K True r.expr (fit c K)
  ternary : ∀ {K : String → Prop}, Reads c K True r.ternary (fit c K)
  binary : ∀ {K : String → Prop} (level : Nat), Reads c K True (r.binary level) (fit c K)
  unary : ∀ {K : String → Prop}, Reads c K True r.unary (fit c K)
  code : ∀ {K : String → Prop} {kind : TokenKind} {span : Span} {l : Lexed}
    (h : lexRange r.text span = .ok l), c.Meets kind → .code span ∈ kind.segments →
      Reads (c.inside h) K True r.stmts (fit c K)
  lost : ∀ {place : Stream} {x : String}, c.stands place → Loses r place x → c.lost x

theorem Rules.Fit.since {c : Setting} {r : Rules} (h : r.Fit c) (b : Stream) : r.Fit (c.since b) := by
  have hreads : ∀ {α : Type} {K : String → Prop} {m : Reading α} {S : Spec α}, Reads c K True m S →
      Reads (c.since b) K True m S := fun hm s hs hstands => hm s hs hstands.1
  refine ⟨hreads h.stmts, hreads h.exprStmt, hreads h.notExpr, hreads h.expr, hreads h.ternary,
    fun level => hreads (h.binary level), hreads h.unary, fun hlex hmeets hcode => ?_,
    fun hplace => h.lost hplace.1⟩
  obtain ⟨b', hb', hkind⟩ := hmeets
  exact h.code hlex ⟨b', hb'.1, hkind⟩ hcode

/-! ## Names -/

namespace Quiet

theorem operatorName (kind : TokenKind) (cause : Cause) : Quiet (operatorName kind cause) := by
  unfold Grammar.operatorName
  split
  · exact pure _
  · exact faultBefore _

theorem methodNameAfterDot : Quiet methodNameAfterDot := by
  refine advance.bind fun k => ?_
  split
  case h_4 => exact operatorName _ _
  all_goals exact pure _

theorem definedName : Quiet definedName := by
  refine advance.bind fun k => ?_
  split
  case' h_4 => refine (expect _ _).bind fun _ => ?_
  -- In all cases a name is followed by the sign of a setter or not.
  all_goals
    refine bind ?_ fun _ => currentToken.bind fun _ => ite (advance.bind fun _ => pure _) (pure _)
  case h_5 => exact operatorName _ _
  all_goals exact pure _

theorem methodOperand : Quiet methodOperand := by
  refine advance.bind fun k => ?_
  split
  case h_6 => exact (expect _ _).bind fun _ => pure _
  case h_7 => exact operatorName _ _
  all_goals exact pure _

theorem parenFollows : Quiet parenFollows := currentToken.bind fun _ => pure _

theorem thenWord : Quiet thenWord := by
  refine (eatKeyword _).bind fun found => ite ?_ (pure _)
  exact requireTerminator.bind fun _ => (eatKeyword _).bind fun _ => pure _

end Quiet

namespace Reads

variable {α : Type} {c : Setting} {K : String → Prop} {r : Rules}
variable {s : ReadState}

attribute [local simp] fit Spec.given Spec.option stepSpec Expr.parts Expr.scope
  partsBound_append partsBound_held PartsFit.nil partsFit_append partsFit_held
  Nesting.isOwn heldArgument allIn_arguments and_assoc Expr.Unnamed Expr.written Expr.binds
  Expr.isHollow

/-- What a list keeps binds all that becomes known, but for the names that are lost. -/
theorem kept (hr : r.Fit c) {m : Reading α} {S : (String → Prop) → Spec α} {T : Spec α}
    {place : Stream} {names : α → List String} {es : α → List Expr} {may : String → Prop}
    (hplace : c.stands place)
    (hcollects : ∀ a t, m s = .ok (a, t) → Collects r place s t (names a) (es a) may)
    (hm : ∀ K, ReadsAt c.lost K True s m (S K))
    (hbinds : ∀ K a, (∀ x, may x → K x) → (∀ x ∈ names a, K x) → (∀ e ∈ es a, e.Within K) → (S K).binds a)
    (hfits : ∀ a, (S K).fits a → T.fits a)
    (hkept : ∀ a, T.binds a → (∀ x ∈ names a, K x) ∧ ∀ e ∈ es a, e.Within K) :
    ReadsAt c.lost K True s m T := by
  intro a t hrun
  have hend := hm K a t hrun
  refine ⟨hend.scopes, hend.later, fun _ => trivial, fun hK hT x hx => ?_,
    fun hK => hfits a (hend.fits hK)⟩
  obtain ⟨hnames, hes⟩ := hkept a hT
  refine Classical.byContradiction fun hnot => hnot (hK x (.inr (hr.lost hplace ?_)))
  -- All that becomes known is in `K` or may get lost, so a name that is not in `K` does.
  have hmay : may x ∨ K x := by
    have hwide := hm (fun y => may y ∨ K y) a t hrun
    refine hwide.known (fun y hy => .inr (hK y hy)) (hbinds _ a (fun _ => .inl) ?_ ?_) x hx
    · exact fun y hy => .inr (hnames y hy)
    · exact fun e he y hy => .inr (hes e he y hy)
  refine ⟨s, t, names a, es a, may, hcollects a t hrun, hmay.resolve_right hnot, hx, ?_, ?_, ?_⟩
  · exact Bool.eq_false_iff.mpr fun hbefore => hnot (hK x (.inl hbefore))
  · exact fun hmem => hnot (hnames x hmem)
  · exact fun e he hassigned => hnot (hes e he x hassigned)

theorem parameterName : Reads c K True parameterName ⟨fun x => (c.words → IsWord x) ∧ K x, K⟩ := by
  refine advance fun k hk => ?_
  split
  · exact (declare _).bind fun _ => pure (fun hknown => ⟨hk.worded, hknown⟩) fun hx => ⟨trivial, hx⟩
  · exact faultBefore _

theorem constantName :
    Reads c K True constantPath.constantName ⟨fun x => c.words → IsConstant x, fun _ => True⟩ := by
  refine advance fun k hk => ?_
  split
  · exact pure hk.worded id
  · exact faultBefore _

/-- What is read as the path of a constant. -/
def paths (c : Setting) (K : String → Prop) : Spec (Base Expr × String) where
  fits path := Fits c K path.1 ∧ (c.words → IsConstant path.2)
  binds path := Bound K path.1

attribute [local simp] paths

theorem constantPath : Reads c K True constantPath (paths c K) := by
  refine after (Quiet.eat _) fun top => constantName.bind fun first => ?_
  refine repeatFrom (paths c K) (fun hfirst => ⟨?_, hfirst⟩) (fun _ => ⟨trivial, trivial⟩) fun path => ?_
  · cases top <;> simp
  · refine after (Quiet.eat _) fun more => ite ?_ (pure id id)
    exact constantName.bind fun inner => madeOf (.const path.1 path.2) (by simp +contextual)

/-! ## Arguments -/

/-- What is read as arguments, before it is known which are kept. -/
def argumentSpec (c : Setting) (K : String → Prop) : Spec Arguments where
  fits := Fits c K
  binds a := (c.Meets .amp → ∀ x, K x) ∧ Bound K a.values ∧ Bound K a.pairs

attribute [local simp] argumentSpec Arguments.addValue Arguments.addPair

section Rules

variable (hr : r.Fit c)

include hr

theorem argument (a : Arguments) : Reads c K ((argumentSpec c K).binds a)
    (argument r a) ((argumentSpec c K).given (Fits c K a)) := by
  refine peek fun k hk => ?_
  split
  · exact after Quiet.advance fun _ => hr.ternary.bind fun e => madeOf (.splat e) (by simp +contextual)
  · refine after Quiet.advance fun _ => hr.ternary.bind fun e => pure (by simp +contextual) ?_
    -- The last argument of this kind is kept, and another one that was there is not.
    exact fun hall => ⟨hall, bound_of_all (hall.1 hk)⟩
  · rename_i name
    refine after Quiet.advance fun _ => after Quiet.skipNewlines fun _ => ?_
    exact hr.expr.bind fun e => madeOf (.sym name) (by simp +contextual)
  · refine hr.expr.bind fun e => after (Quiet.eat _) fun arrow => ite
      (after Quiet.skipNewlines fun _ => hr.expr.bind fun e' => done ?_) (done ?_)
    all_goals simp +contextual

theorem delimitedBase (close : TokenKind) :
    Reads c K True (delimitedArguments r close) (argumentSpec c K) := by
  refine withDoTaken (repeatWith (argumentSpec c K) (by simp) fun a => ?_) _
  refine after Quiet.skipNewlines fun _ => after (Quiet.eat _) fun closed => ite (pure id id) ?_
  refine (argument hr a).next fun a' => after Quiet.skipNewlines fun _ => ?_
  refine after (Quiet.eat _) fun comma => ite (pure id id) ?_
  exact after Quiet.skipNewlines fun _ => after (Quiet.expect _ _) fun _ => pure id id

theorem commandBase : Reads c K True (commandArguments r) (argumentSpec c K) := by
  refine withDoTaken (repeatWith (argumentSpec c K) (by simp) fun a => ?_) _
  refine (argument hr a).next fun a' => after (Quiet.eat _) fun comma => ?_
  exact ite (after Quiet.skipNewlines fun _ => pure id id) (pure id id)

omit hr in
/-- Without an ampersand among the tokens, values and pairs are all the arguments. -/
theorem argumentSpec_since {b : Stream} {a : Arguments}
    (hmay : ∀ x, (∃ b', b.Later b' ∧ b'.current.kind = .amp) → K x) (hvalues : Bound K a.values)
    (hpairs : Bound K a.pairs) : (argumentSpec (c.since b) K).binds a := by
  refine ⟨?_, hvalues, hpairs⟩
  rintro ⟨b', hstands, hkind⟩ x
  exact hmay x ⟨b', hstands.2, hkind⟩

theorem keptArguments {m : Reading Arguments}
    (hm : ∀ {c : Setting} {K : String → Prop}, r.Fit c → Reads c K True m (argumentSpec c K))
    (hcollects : ∀ {s t : ReadState} {a : Arguments}, m s = .ok (a, t) →
      Collects r s.tokens s t [] (exprs a) fun _ => ∃ b, s.tokens.Later b ∧ b.current.kind = .amp) :
    Reads c K True m (fit c K) := by
  intro s hs hstands
  refine kept hr hstands (fun _ _ => hcollects) (fun _ => hm (hr.since _) s hs ⟨hstands, .refl _⟩)
    (fun K' a hmay _ hes => ?_) (fun _ => id) fun _ ha => ⟨nofun, ha⟩
  obtain ⟨⟨hvalues, hpairs⟩, -⟩ := allIn_arguments.mp hes
  exact argumentSpec_since hmay hvalues hpairs

theorem delimitedArguments (close : TokenKind) :
    Reads c K True (delimitedArguments r close) (fit c K) :=
  keptArguments hr (fun hr => delimitedBase hr close) .delimited

theorem commandArguments : Reads c K True (commandArguments r) (fit c K) :=
  keptArguments hr commandBase .command

omit hr in
theorem arguments? {S : Spec Arguments}
    (hdelimited : Reads c K True (Grammar.delimitedArguments r .rparen) S)
    (hcommand : Reads c K True (Grammar.commandArguments r) S) :
    Reads c K True (arguments? r) S.option := by
  have hfollows : Quiet commandFollows := Quiet.get fun _ => Quiet.pure _
  refine after Quiet.parenFollows fun paren => ite (after Quiet.advance fun _ => ?_) ?_
  · exact hdelimited.bind fun a => done (by simp +contextual)
  · refine after hfollows fun command => ite (hcommand.bind fun a => done ?_) (done ?_)
    all_goals simp +contextual

/-! ## Parameters and blocks -/

/-- What is read as parameters, before it is known which are kept. -/
def paramSpec (c : Setting) (K : String → Prop) : Spec (Params Expr) where
  fits := ParamsFit c K
  binds p := (∀ x, c.Splats x → K x) ∧ (∀ x ∈ p.positional, K x) ∧ Bound K p.optional

omit hr in
theorem namedParameter {m : Reading Expr} (hm : Reads c K True m (fit c K)) (p : Params Expr)
    {name : String} (hname : c.words → IsWord name) :
    Reads c K ((paramSpec c K).binds p) (namedParameter m p name)
      ((paramSpec c K).given (ParamsFit c K p)) := by
  refine (declare name).bind fun _ => after (Quiet.eat _) fun assign => ite ?_ ?_
  · refine hm.bind fun e => pure (fun he hknown hp => hp.add ⟨hname, hknown⟩ ?_ ?_) ?_
    · grind [Params.names, Params.positional]
    · exact hp.defaults.concat (allIn_pair.mpr ⟨allIn_string, he⟩)
    · rintro ⟨hall, hpositional, hbound⟩
      obtain ⟨hdefaults, hlast⟩ := allIn_append.mp hbound
      obtain ⟨-, he⟩ := allIn_pair.mp (allIn_cons.mp hlast).1
      refine ⟨⟨⟨hall, fun x hx => hpositional x ?_, hdefaults⟩, hpositional name ?_⟩, he⟩
      · grind [Params.positional]
      · grind [Params.positional]
  · refine pure (fun hknown hp => hp.add ⟨hname, hknown⟩ ?_ hp.defaults) ?_
    · grind [Params.names, Params.positional]
    · rintro ⟨hall, hpositional, hbound⟩
      refine ⟨⟨hall, fun x hx => hpositional x ?_, hbound⟩, hpositional name ?_⟩
      · grind [Params.positional]
      · grind [Params.positional]

omit hr in
theorem parameterName_eq_ok {t : ReadState} {x : String}
    (h : Grammar.parameterName s = .ok (x, t)) : s.tokens.current.kind = .ident x := by
  obtain ⟨k, u, hk, hrest⟩ := run_bind_eq_ok h
  obtain ⟨rfl, rfl⟩ := run_ok_inj hk
  generalize s.tokens.current.kind = kind at hrest
  cases kind with
  | ident y =>
      obtain ⟨_, v, -, hrest⟩ := run_bind_eq_ok hrest
      obtain ⟨rfl, -⟩ := run_ok_inj hrest
      rfl
  | _ => cases hrest

omit hr in
/-- Of the parameters after a star or an ampersand, one that was there may be replaced. -/
theorem splatParameter {p : Params Expr} {add : String → Params Expr} {f : Params Expr → Reading α}
    {S : Spec α} (hs : s.scopes ≠ []) (hstands : c.stands s.tokens) (hnext : c.stands s.tokens.next)
    (hkind : s.tokens.current.kind = .star ∨ s.tokens.current.kind = .amp)
    (hnames : ∀ x, ∀ y ∈ (add x).names, y = x ∨ y ∈ p.names)
    (hsame : ∀ x, (add x).positional = p.positional ∧ (add x).optional = p.optional)
    (hf : ∀ p', Reads c K ((paramSpec c K).binds p') (f p') (S.given (ParamsFit c K p'))) :
    ReadsAt c.lost K ((paramSpec c K).binds p) { s with tokens := s.tokens.next }
      (Grammar.parameterName >>= fun x => Pure.pure (add x) >>= f) (S.given (ParamsFit c K p)) := by
  refine bindAt (parameterName _ hs hnext) fun x u hx hend => ?_
  have hsplats : c.Splats x := ⟨s.tokens, hstands, hkind, parameterName_eq_ok hx⟩
  intro a t hrun
  obtain ⟨hscopes, hlater, howed, hknown, hfits⟩ :=
    hf (add x) u hend.scopes.ne_nil (c.moves hnext hend.later) a t hrun
  refine ⟨hscopes, hlater, fun h => ?_, hknown, fun hK hx hp => hfits hK ?_⟩
  · obtain ⟨hall, hpositional, hbound⟩ := howed h
    exact ⟨⟨hall, (hsame x).1 ▸ hpositional, (hsame x).2 ▸ hbound⟩, hall x hsplats⟩
  · exact hp.add hx (hnames x) ((hsame x).2 ▸ hp.defaults)

theorem blockParameters : Reads c K True (blockParameters r) (paramSpec c K) := by
  refine repeatWith (paramSpec c K) .empty fun p => ?_
  refine after Quiet.skipNewlines fun _ => after (Quiet.eat _) fun closed => ite (pure id id) ?_
  refine advanceAt fun s hs hstands hnext => ?_
  split
  case' h_1 name heq =>
    have hword := Setting.Meets.worded ⟨_, hstands, heq⟩
    refine next (namedParameter hr.unary p hword) (fun p' => ?_) _ hs hnext
  case' h_2 heq | h_3 heq =>
    refine splatParameter hs hstands hnext (by simp [heq]) ?_ (fun _ => ⟨rfl, rfl⟩) fun p' => ?_
    · grind [Params.names, Params.positional]
  case h_4 | h_5 => exact faultBefore _ _ hs hnext
  -- After each parameter comes another one or the bar.
  all_goals
    refine after (Quiet.eat _) fun comma => ite (pure ?_ id) ?_
    case' refine_2 =>
      refine after Quiet.skipNewlines fun _ => after (Quiet.expect _ _) fun _ => pure ?_ id
  all_goals exact id

theorem someParameters (closed : Bool) :
    Reads c K True (someParameters r closed) (paramSpec c K) := by
  refine repeatWith (paramSpec c K) .empty fun p => ?_
  refine ite (after Quiet.skipNewlines fun _ => ?_) ?_
  -- What follows is the same with parentheses and without.
  all_goals
    refine advanceAt fun s hs hstands hnext => ?_
    split
    case' h_1 name heq =>
      have hword := Setting.Meets.worded ⟨_, hstands, heq⟩
      refine next (namedParameter hr.ternary p hword) (fun p' => ?_) _ hs hnext
    case' h_2 heq | h_3 heq =>
      refine splatParameter hs hstands hnext (by simp [heq]) ?_ (fun _ => ⟨rfl, rfl⟩) fun p' => ?_
      · grind [Params.names, Params.positional]
    case h_4 | h_5 => exact faultBefore _ _ hs hnext
    all_goals exact after (Quiet.eat _) fun comma => ite (pure id id) (pure id id)

theorem methodParameters : Reads c K True (methodParameters r) (paramSpec c K) := by
  refine after (Quiet.eat _) fun opened => ite (after Quiet.skipNewlines fun _ => ?_) ?_
  · refine after (Quiet.eat _) fun closed => ite (pure ParamsFit.empty fun _ => trivial) ?_
    refine (someParameters hr true).next fun p => after Quiet.skipNewlines fun _ => ?_
    exact after (Quiet.expect _ _) fun _ => pure id id
  · refine after Quiet.atTerminator fun ends => ite ?_ (someParameters hr false)
    exact pure ParamsFit.empty fun _ => trivial

/-- What is read in a scope with parameters, before it is known which are kept. -/
def contentSpec (c : Setting) (K : String → Prop) : Spec (Params Expr × List Expr) where
  fits := (contents c K).fits
  binds m := (paramSpec c K).binds m.1 ∧ Bound K m.2

theorem blockBase (close : TokenKind) : Reads c K True (blockContents r close)
    ⟨fun b => (contentSpec c K).fits (b.params, b.body),
      fun b => (contentSpec c K).binds (b.params, b.body)⟩ := by
  refine after (Quiet.eat _) fun bar => ite ?_ ?_
  case' refine_1 => refine (blockParameters hr).bind fun p => ?_
  case' refine_2 =>
    refine after (Quiet.eat _) fun _ => bind (S := paramSpec c K) ?_ fun p => ?_
    · exact pure .empty fun _ => trivial
  all_goals
    refine hr.stmts.bind fun body => after (Quiet.expect _ _) fun _ => pure ?_ ?_
    · exact fun hbody hp => ⟨hp, hbody⟩
    · exact fun h => ⟨⟨trivial, h.1⟩, h.2⟩

section Since

variable {b : Stream} {m : Params Expr × List Expr}

omit hr in
/-- Of the names of parameters, those after a star or an ampersand may be lost. -/
theorem contentSpec_since (hmay : ∀ x, (∃ b', b.Later b' ∧ b'.Splats x) → K x)
    (hnames : ∀ x ∈ m.1.names, K x) (hes : Bound K m) : (contentSpec (c.since b) K).binds m := by
  obtain ⟨hdefaults, hbody⟩ := allIn_pair.mp hes
  refine ⟨⟨fun x hx => ?_, fun x hx => hnames x ?_, hdefaults⟩, hbody⟩
  · obtain ⟨b', hstands, hsplats⟩ := hx
    exact hmay x ⟨b', hstands.2, hsplats⟩
  · simp [Params.names, hx]

omit hr in
theorem contents_since (h : (contentSpec (c.since b) K).fits m) : (contents c K).fits m :=
  ⟨⟨h.1.names, h.1.defaults⟩, h.2⟩

end Since

theorem blockContents (close : TokenKind) : Reads c K True (blockContents r close)
    ⟨fun b => (contents c K).fits (b.params, b.body),
      fun b => (contents c K).binds (b.params, b.body)⟩ := fun s hs hstands =>
  kept hr hstands (fun _ _ => .block) (fun _ => blockBase (hr.since _) close s hs ⟨hstands, .refl _⟩)
    (fun _ b => contentSpec_since (m := (b.params, b.body))) (fun _ => contents_since) fun _ => id

/-- A block has a scope of its own. -/
theorem block (close : TokenKind) : Reads c K True (block r close) (blockFit c K) :=
  after Quiet.advance fun _ => inScope (fun _ => withDoTaken (blockContents hr close) _) _

theorem block? : Reads c K True (block? r) (blockFit c K).option := by
  refine after (Quiet.atKind _) fun brace => ite ?_ ?_
  · exact (block hr _).bind fun b => done (by simp +contextual)
  · refine after (Quiet.atKeyword _) fun word => after (Quiet.get fun _ => Quiet.pure _) fun s => ?_
    refine ite ((block hr _).bind fun b => done ?_) (done ?_)
    all_goals simp +contextual

theorem callRest (recv : Option Expr) {name : String}
    (hname : recv = none → c.words → IsWord name) :
    Reads c K (Bound K recv) (callRest r recv name) ((fit c K).given (Fits c K recv)) := by
  refine (arguments? (delimitedArguments hr _) (commandArguments hr)).bind fun a => ?_
  refine (block? hr).bind fun b => ?_
  cases a with
  | none =>
      refine pure (fun hb ha hrecv => fits_call hname hrecv allIn_nil hb allIn_none) fun h => ?_
      simpa [blockFit, bound_list] using partsBound h
  | some a =>
      refine pure (fun hb ha hrecv => ?_) fun h => ?_
      · exact fits_call hname hrecv (ha a rfl).arguments hb (allIn_arguments.mp (ha a rfl)).2
      · simpa [blockFit, bound_list] using partsBound h

/-! ## Literals -/

/-- That the code in these segments stands in tokens that may be read. -/
def Codes (c : Setting) (segments : List Segment) : Prop :=
  ∀ span, .code span ∈ segments → ∃ kind, c.Meets kind ∧ .code span ∈ kind.segments

theorem embedded {kind : TokenKind} (hkind : c.Meets kind) {span : Span}
    (hcode : .code span ∈ kind.segments) : Reads c K True (embedded r span) (fit c K) := by
  unfold Grammar.embedded
  split
  · exact throws _
  · rename_i l hlex
    -- The tokens of the code are read in the place of those around it, and these again after it.
    intro s hs hstands body t hrun
    obtain ⟨_, _, hget, hrun⟩ := run_bind_eq_ok hrun
    obtain ⟨rfl, rfl⟩ := run_ok_inj hget
    obtain ⟨_, u, hset, hrun⟩ := run_bind_eq_ok hrun
    obtain ⟨-, rfl⟩ := run_ok_inj hset
    obtain ⟨b, v, hread, hrun⟩ := run_bind_eq_ok hrun
    obtain ⟨_, w, hback, hrun⟩ := run_bind_eq_ok hrun
    obtain ⟨-, rfl⟩ := run_ok_inj hback
    obtain ⟨rfl, rfl⟩ := run_ok_inj hrun
    have hend := withDoTaken ((hr.code (K := K) hlex hkind hcode).next fun body =>
      after (Quiet.expect _ _) fun _ => pure id id) _ { s with tokens := Stream.ofLexed l } hs (.refl _)
      b v hread
    exact ⟨hend.scopes, .refl _, hend.owed, hend.known, hend.fits⟩

theorem parts {segments : List Segment} (hcodes : Codes c segments) :
    Reads c K True (parts r segments) (fit c K) := by
  induction segments with
  | nil => exact pure allIn_nil fun _ => trivial
  | cons s ss ih =>
      have ih := ih fun span hspan => hcodes span (List.mem_cons_of_mem _ hspan)
      cases s with
      | text t => exact ih.bind fun ps => done (by simp +contextual)
      | code span =>
          obtain ⟨kind, hkind, hcode⟩ := hcodes span List.mem_cons_self
          exact (embedded hr hkind hcode).bind fun body => ih.bind fun ps => done (by simp +contextual)

theorem strings {segments : List Segment} (hcodes : Codes c segments) :
    Reads c K True (strings r segments) (fit c K) := by
  refine (parts hr hcodes).next fun first => next (repeatFrom (S := fit c K) (fit c K) id id ?_) fun ps => ?_
  · refine fun ps => peek fun k hk => ?_
    split
    · refine after Quiet.advance fun _ => (parts hr fun _ h => ⟨_, hk, h⟩).bind fun ps' => done ?_
      simp +contextual
    · exact pure id id
  · split
    · rename_i t htext
      exact made (by simp +contextual [bound_of_plainText htext])
    · exact made (by simp +contextual)

theorem hashKey : Reads c K True (hashLiteral.hashKey r) (fit c K) := by
  refine after Quiet.peek fun k => ?_
  split
  · rename_i name
    exact after Quiet.advance fun _ => made (by simp +contextual)
  · refine hr.expr.next fun key => after Quiet.skipNewlines fun _ => ?_
    exact after (Quiet.expect _ _) fun _ => pure id id

theorem hashLiteral : Reads c K True (hashLiteral r) (fit c K) := by
  refine withDoTaken (repeatWith (fit c K) allIn_nil fun pairs => ?_) _
  refine after Quiet.skipNewlines fun _ => after (Quiet.eat _) fun closed => ite ?_ ?_
  · exact madeOf (.hash pairs) (by simp +contextual)
  refine (hashKey hr).bind fun key => after Quiet.skipNewlines fun _ => ?_
  refine hr.expr.bind fun value => after Quiet.skipNewlines fun _ => ?_
  refine after (Quiet.eat _) fun comma => ite (done (by simp +contextual)) ?_
  refine after Quiet.skipNewlines fun _ => after (Quiet.expect _ _) fun _ => ?_
  exact madeOf (.hash (pairs ++ [(key, value)])) (by simp +contextual)

theorem parenthesised : Reads c K True (parenthesised r) (fit c K) := by
  refine withDoTaken (hr.stmts.next fun body => after (Quiet.expect _ _) fun _ => ?_) _
  split
  · exact made (by simp +contextual)
  · exact done (by simp +contextual)
  · exact made (by simp +contextual)

/-! ## Conditions and clauses -/

theorem branch : Reads c K True (branch r) (fit c K) := by
  refine hr.exprStmt.bind fun cond => after Quiet.thenWord fun _ => hr.stmts.bind fun body => ?_
  exact done (by simp +contextual)

theorem elseBranches : Reads c K True (elseBranches r) (fit c K) := by
  refine repeatWith (fit c K) allIn_nil fun branches => ?_
  refine after (Quiet.eatKeyword _) fun more => ite ?_ ?_
  · exact (branch hr).bind fun b => done (by simp +contextual)
  · refine after (Quiet.eatKeyword _) fun last => ite ?_ ?_
    case' refine_1 => refine hr.stmts.bind fun body => ?_
    case' refine_2 => refine bind (S := fit c K) (pure allIn_nil fun _ => trivial) fun body => ?_
    all_goals
      refine pure (fun hbody hbranches => fits_foldl_ifElse hbranches hbody) ?_
      exact bound_foldl_ifElse

theorem ifExpr (negated : Bool) : Reads c K True (ifExpr r negated) (fit c K) := by
  refine (branch hr).bind fun b => (elseBranches hr).bind fun other => ?_
  obtain ⟨cond, body⟩ := b
  refine after (Quiet.expectKeyword _) fun _ => ?_
  cases negated with
  | true | false => exact made (by simp +contextual)

theorem loopExpr (isUntil : Bool) : Reads c K True (loopExpr r isUntil) (fit c K) := by
  refine (withDoTaken hr.exprStmt _).bind fun cond => after (Quiet.eatKeyword _) fun word => ?_
  refine ite (after Quiet.requireTerminator fun _ => ?_) ?_
  all_goals
    refine hr.stmts.bind fun body => after (Quiet.expectKeyword _) fun _ => ?_
    exact made (by simp +contextual)

theorem body? (w : Keyword) : Reads c K True (body? r w) (fit c K) := by
  refine after (Quiet.eatKeyword _) fun found => ite (hr.stmts.next fun body => done ?_) (done ?_)
  all_goals simp +contextual

theorem whenValues : Reads c K True (whenValues r) (fit c K) := by
  refine repeatWith (fit c K) allIn_nil fun values => after (Quiet.eat _) fun star => ite ?_ ?_
  case' refine_1 =>
    refine mapped (R := fit c K) hr.ternary (fun e => ?_) (fun e => ?_) fun value => ?_
    · simp [fits_parts (e := .splat e)]
    · simp [within_parts (e := .splat e)]
  case' refine_2 => refine hr.ternary.bind fun value => ?_
  all_goals
    refine after (Quiet.eat _) fun comma => ite (after Quiet.skipNewlines fun _ => done ?_) (done ?_)
    all_goals simp +contextual

theorem whenClauses : Reads c K True (whenClauses r) (fit c K) := by
  refine repeatWith (fit c K) allIn_nil fun whens => ?_
  refine after (Quiet.eatKeyword _) fun more => ite ?_ (pure id id)
  refine (whenValues hr).bind fun values => after Quiet.thenWord fun _ => ?_
  exact hr.stmts.bind fun body => done (by simp +contextual)

theorem caseExpr : Reads c K True (caseExpr r) (fit c K) := by
  refine after Quiet.atTerminator fun bare => ite ?_ ?_
  case' refine_1 => refine bind (S := fit c K) (done (by simp +contextual)) fun subject => ?_
  case' refine_2 => refine mapped (R := fit c K) hr.exprStmt (by simp) (by simp) fun subject => ?_
  all_goals
    refine after Quiet.skipTerminators fun _ => (whenClauses hr).bind fun whens => ?_
    split
    · exact faultHere _
    · rename_i hne
      cases whens with
      | nil => exact absurd rfl hne
      | cons w ws =>
          refine (body? hr _).bind fun elseBody => after (Quiet.expectKeyword _) fun _ => ?_
          exact made (by simp +contextual)

theorem rescueClasses : Reads c K True (rescueClasses r) (fit c K) := by
  refine repeatWith (fit c K) allIn_nil fun classes => ?_
  refine after Quiet.atTerminator fun ends => after (Quiet.atKind _) fun arrow => ?_
  refine after (Quiet.atKeyword _) fun word => ite (pure id id) ?_
  refine hr.ternary.bind fun e => after (Quiet.eat _) fun comma => ite (done ?_) (done ?_)
  all_goals simp +contextual

theorem rescueClauses : Reads c K True (rescueClauses r) (clauses c K) := by
  refine repeatWith (clauses c K) ⟨by simp, allIn_nil⟩ fun rescues => ?_
  refine after (Quiet.eatKeyword _) fun more => ite ?_ (pure id id)
  refine (rescueClasses hr).bind fun classes => after (Quiet.eat _) fun arrow => ite ?_ ?_
  case' refine_1 =>
    refine mapped (R := .option ⟨fun x => (c.words → IsWord x) ∧ K x, K⟩) parameterName (by simp)
      (by simp) fun var => ?_
  case' refine_2 =>
    refine bind (S := .option ⟨fun x => (c.words → IsWord x) ∧ K x, K⟩) ?_ fun var => ?_
    · exact done (by simp +contextual)
  -- The variable that holds the error is known in the body, which is read after it.
  all_goals
    refine after Quiet.thenWord fun _ => hr.stmts.bind fun body => pure ?_ ?_
    · intro hbody hvar hclasses hrescues
      refine ⟨fun x hx => ?_, hrescues.2.concat (allIn_rescue.mpr ⟨hclasses, hbody⟩)⟩
      rw [List.filterMap_append, List.mem_append] at hx
      exact hx.elim (hrescues.1 x) fun hx => hvar x (by cases var <;> simp_all)
    · rintro ⟨hvars, hbound⟩
      obtain ⟨hrescues, hlast⟩ := allIn_append.mp hbound
      obtain ⟨hclasses, hbody⟩ := allIn_rescue.mp (allIn_cons.mp hlast).1
      refine ⟨⟨⟨⟨fun x hx => hvars x ?_, hrescues⟩, hclasses⟩, fun x hx => hvars x ?_⟩, hbody⟩
      · exact List.filterMap_append ▸ List.mem_append_left _ hx
      · simp [Option.mem_def.mp hx]

theorem guardedBody : Reads c K True (guardedBody r) (fit c K) := by
  refine hr.stmts.bind fun body => (rescueClauses hr).bind fun rescues => ?_
  refine (body? hr _).bind fun elseBody => (body? hr _).bind fun ensureBody => ?_
  refine after (Quiet.expectKeyword _) fun _ => pure (fun hensure helse hrescues hbody => ?_) fun h => ?_
  · exact fits_begin hbody hrescues helse hensure
  · obtain ⟨hbody, hrescues, helse, hensure⟩ := (bound_begin (c := c)).mp h
    exact ⟨⟨⟨⟨trivial, hbody⟩, hrescues⟩, helse⟩, hensure⟩

/-! ## Definitions -/

omit hr in
theorem singleton? : Reads c K True singleton? (fit c K) := by
  refine get fun s hs hstands => (?_ : Reads c K True _ (fit c K)) s hs hstands
  refine ite (pure allIn_none fun _ => trivial) ?_
  have hcurrent : c.Meets s.tokens.current.kind := ⟨_, hstands, rfl⟩
  split
  case' h_3 n heq =>
    rw [heq] at hcurrent
    refine (isLocal n).bind fun known => ?_
    split
  all_goals
    refine bind (S := ⟨(· = _), fun _ => True⟩) (pure rfl id) fun target => ite
      (after Quiet.advance fun _ => after Quiet.advance fun _ => pure ?_ (by simp)) (pure ?_ (by simp))
    all_goals rintro rfl
  case h_1.refine_1 | h_1.refine_2 => simp [fits_parts (e := .selfRef)]
  case h_2.refine_1 | h_2.refine_2 => simp [fits_parts (e := .const .lexical _)]
  case h_3.isTrue.refine_1 | h_3.isTrue.refine_2 =>
    intro hknown
    exact allIn_some.mpr (Fits.expr .nil (List.forall_mem_singleton.mpr hcurrent.worded)
      (List.forall_mem_singleton.mpr (hknown ‹_›)) rfl)
  case h_3.isFalse.refine_1 | h_3.isFalse.refine_2 =>
    intro _
    exact allIn_some.mpr (fits_call (fun _ => hcurrent.worded) allIn_none allIn_nil nofun allIn_none)
  case h_4.refine_1 | h_4.refine_2 => exact allIn_none

theorem methodBase : Reads c K True (methodContents r) (contentSpec c K) := by
  refine (methodParameters hr).bind fun p => (guardedBody hr).bind fun whole => pure ?_ ?_
  · refine fun hwhole hp => ⟨hp, ?_⟩
    cases hplain : unguarded? whole with
    | none => exact hwhole.list
    | some body => exact fits_of_unguarded hplain hwhole
  · rintro ⟨hp, hbody⟩
    refine ⟨⟨trivial, hp⟩, ?_⟩
    cases hplain : unguarded? whole with
    | none =>
        rw [hplain] at hbody
        exact (allIn_cons.mp hbody).1
    | some body =>
        rw [hplain] at hbody
        exact bound_of_unguarded hplain hbody

/-- The parameters of a method are read right after its name. -/
theorem defineExpr (hs : s.scopes ≠ []) (hstands : c.stands s.tokens)
    (hword : s.tokens.current.kind = .keyword .defKw) :
    ReadsAt c.lost K True s (Reading.advance >>= fun _ => defineExpr r) (fit c K) := by
  refine bindAt (Quiet.advance.reads s hs hstands) fun _ s₁ hadvance h₁ => ?_
  have hstands₁ := c.moves hstands h₁.later
  refine bindAt (singleton? s₁ h₁.scopes.ne_nil hstands₁) fun target s₂ htarget h₂ => ?_
  have hstands₂ := c.moves hstands₁ h₂.later
  refine bindAt (Quiet.definedName.reads s₂ h₂.scopes.ne_nil hstands₂) fun name s₃ hname h₃ => ?_
  have hhead : (do let _ ← Reading.advance; let _ ← Grammar.singleton?; definedName) s =
      .ok (name, s₃) :=
    (run_bind_of_ok hadvance).trans ((run_bind_of_ok htarget).trans hname)
  have hcontents : ∀ K, ReadsAt c.lost K True { s₃ with scopes := ⟨[], false⟩ :: s₃.scopes }
      (methodContents r) (contents c K) := fun K =>
    kept hr hstands (fun _ _ => .method hword hhead)
      (fun _ => methodBase (hr.since _) _ (List.cons_ne_nil _ _)
        ⟨c.moves hstands₂ h₃.later, (h₁.later.trans h₂.later).trans h₃.later⟩)
      (fun _ _ => contentSpec_since) (fun _ => contents_since) fun _ => id
  refine bindAt (inScopeAt h₃.scopes.ne_nil hcontents) fun m s₄ _ h₄ => ?_
  refine pure (fun hm _ htarget _ => ?_) (fun h => ?_) s₄ h₄.scopes.ne_nil
    (c.moves (c.moves hstands₂ h₃.later) h₄.later)
  · have hheld : held .method m = held .method m.1 ++ held .method m.2 := List.map_append
    obtain ⟨hparts, hwords⟩ := fits_contents (e := .define target name m.1 m.2) (n := .method) hm rfl
      (fun x hx => .inr (hx.resolve_left fun h => Bool.false_ne_true h.1)) rfl
      (hheld ▸ fun s hs => by simp_all)
    rw [hheld, partsFit_append] at hparts
    exact .expr ((htarget.parts.append hparts.1).append hparts.2) hwords nofun rfl
  · simpa [Spec.inner] using partsBound h

theorem scopedBody : Reads c K True (scopedBody r) (.inner c.lost K false (fit c)) :=
  inScope (fun _ => hr.stmts.next fun _ => after (Quiet.expectKeyword _) fun _ => pure id id) _

theorem classExpr : Reads c K True (classExpr r) (fit c K) := by
  refine after (Quiet.eat _) fun single => ite ?_ ?_
  · refine hr.expr.bind fun target => (scopedBody hr).bind fun body => ?_
    refine made ⟨by simp, fun hfits hbinds => ⟨fun hbody htarget => ?_, ?_⟩⟩
    · refine allIn_expr.mpr (hfits.mpr (htarget.parts.append (fits_classBody hbody ?_)))
      exact fun s hs => by simp [hs]
    · simp [hbinds, Spec.inner]
  · refine constantPath.bind fun path => after (Quiet.eat _) fun found => ite ?_ ?_
    case' refine_1 => refine mapped (R := fit c K) hr.expr (by simp) (by simp) fun parent => ?_
    case' refine_2 => refine bind (S := fit c K) (done (by simp +contextual)) fun parent => ?_
    all_goals
      refine (scopedBody hr).bind fun body => pure ?_ fun h => ?_
      · refine fun hbody hparent hpath => fits_expr_iff.mpr ⟨fun hW => ⟨?_, ?_⟩, nofun, ?_⟩
        · exact List.forall_mem_singleton.mpr (hpath.2 hW).1
        · exact Bool.not_eq_eq_eq_not.mpr (hpath.2 hW).2
        · refine (hpath.1.parts.append hparent.parts).append (fits_classBody hbody ?_)
          exact fun s hs => by simp [hs]
      · simpa [Spec.inner] using partsBound h

theorem moduleExpr : Reads c K True (moduleExpr r) (fit c K) := by
  refine constantPath.bind fun path => (scopedBody hr).bind fun body => ?_
  refine made ⟨by simp, fun hfits hbinds => ⟨fun hbody hpath => ?_, ?_⟩⟩
  · refine allIn_expr.mpr (hfits.mpr (hpath.1.parts.append (fits_classBody hbody ?_)))
    exact fun s hs => by simp [hs]
  · simp [hbinds, Spec.inner]

/-! ## Jumps and other words -/

theorem jumpValue : Reads c K True (jumpValue r) (fit c K) := by
  refine after Quiet.peek fun k => ite (done (by simp +contextual)) (hr.expr.next fun first => ?_)
  refine after (Quiet.atKind _) fun comma => ite (done (by simp +contextual)) ?_
  refine repeatFrom (fit c K) (fun hfirst => hfirst.list) (by simp) fun values => ?_
  refine after (Quiet.eat _) fun more => ite (hr.expr.bind fun e => done ?_) (madeOf (.array values) ?_)
  all_goals simp +contextual

omit hr in
theorem undefNames : Reads c K True undefNames ⟨fun _ => True, fun _ => True⟩ := by
  refine after Quiet.methodOperand fun first => repeatWith ⟨fun _ => True, fun _ => True⟩ trivial ?_
  refine fun names => after (Quiet.eat _) fun more => ite ?_ (pure id id)
  exact after Quiet.methodOperand fun n => pure id id

/-- A `yield` keeps no argument with an ampersand. -/
theorem yieldArguments (hs : s.scopes ≠ []) (hstands : c.stands s.tokens)
    (hword : s.tokens.current.kind = .keyword .yieldKw) :
    ReadsAt c.lost K True s (Reading.advance >>= fun _ => Grammar.arguments? r)
      ⟨fun a => Fits c K (a.getD {}).list, fun a => Bound K (a.getD {}).list⟩ := by
  have hbase : ∀ K, ReadsAt c.lost K True s (Reading.advance >>= fun _ => Grammar.arguments? r)
      (argumentSpec (c.since s.tokens) K).option := fun K =>
    after Quiet.advance (fun _ => arguments? (delimitedBase (hr.since _) _) (commandBase (hr.since _)))
      s hs ⟨hstands, .refl _⟩
  refine kept hr hstands (fun _ _ => .yield hword) hbase (fun K a hmay _ hes a' ha => ?_)
    (fun a ha => ?_) fun _ h => ⟨nofun, h⟩
  · obtain rfl := Option.mem_def.mp ha
    exact argumentSpec_since hmay (bound_list.mp hes).1 (bound_list.mp hes).2
  · cases a with
    | none => exact allIn_nil
    | some a => exact Fits.arguments (ha a rfl)

theorem keywordExpr {w : Keyword} (hs : s.scopes ≠ []) (hstands : c.stands s.tokens)
    (hw : s.tokens.current.kind = .keyword w) :
    ReadsAt c.lost K True s (keywordExpr r w) (fit c K) := by
  have htaken : ∀ {p : Reading Expr}, Reads c K True p (fit c K) →
      ReadsAt c.lost K True s (keywordExpr.taken p) (fit c K) :=
    fun h => after Quiet.advance (fun _ => h) s hs hstands
  unfold Grammar.keywordExpr
  split
  case h_1 | h_2 | h_3 | h_4 | h_5 => exact htaken (made (by simp +contextual))
  case h_15 | h_16 | h_17 => exact htaken ((jumpValue hr).next fun v => made (by simp +contextual))
  · exact htaken (ifExpr hr _)
  · exact htaken (ifExpr hr _)
  · exact htaken (loopExpr hr _)
  · exact htaken (loopExpr hr _)
  · exact htaken (caseExpr hr)
  · exact htaken (guardedBody hr)
  · exact defineExpr hr hs hstands hw
  · exact htaken (classExpr hr)
  · exact htaken (moduleExpr hr)
  · refine bindAt (f := fun a => Pure.pure (Expr.yield (a.getD {}).list))
      (yieldArguments hr hs hstands hw) fun a u _ hend => ?_
    refine (?_ : Reads c K _ _ _) u hend.scopes.ne_nil (c.moves hstands hend.later)
    exact made (by simp +contextual)
  · refine htaken (bind (arguments? (delimitedArguments hr _) (commandArguments hr)) fun a => ?_)
    refine (block? hr).bind fun b => pure (fun hb ha => ?_) fun h => ?_
    · obtain ⟨hblock, hwords⟩ := fits_block (e := .super (a.map (·.list)) b (a.bind (·.blockArg))) hb rfl
        fun s hs => by simp [hs]
      have hargs : Fits c K (a.map (·.list)) ∧ Fits c K (a.bind (·.blockArg)) := by
        cases a with
        | none => exact ⟨allIn_none, allIn_none⟩
        | some a => exact ⟨allIn_some.mpr (ha a rfl).arguments, (allIn_arguments.mp (ha a rfl)).2⟩
      exact .expr ((hargs.1.parts.append hblock).append hargs.2.parts) hwords nofun rfl
    · cases a with
      | none => simp [blockFit]
      | some a => simpa [blockFit, bound_list] using partsBound h
  · refine htaken (after Quiet.methodOperand fun a => after Quiet.methodOperand fun b => ?_)
    exact made (by simp +contextual)
  · exact htaken (undefNames.bind fun names => made (by simp +contextual))
  · exact htaken (hr.expr.next fun e => made (by simp +contextual))
  · exact unexpected s hs hstands

/-! ## Operands -/

theorem primary : Reads c K True (primary r) (fit c K) := by
  refine after Quiet.currentToken fun t => get fun s hs hstands => ?_
  have htaken : ∀ {p : Reading Expr}, Reads c K True p (fit c K) →
      ReadsAt c.lost K True s (primary.taken p) (fit c K) :=
    fun h => after Quiet.advance (fun _ => h) s hs hstands
  have hplain : ∀ {e : Expr}, Fits c K e → ReadsAt c.lost K True s (primary.taken (Pure.pure e)) (fit c K) :=
    fun h => htaken (pure h fun _ => trivial)
  have hmeets : ∀ {k : TokenKind}, s.tokens.current.kind = k → c.Meets k := fun h => ⟨_, hstands, h⟩
  dsimp only
  split <;> rename_i hkind
  · exact hplain (fits_int fun hW => Numbers.isInteger_of_isNumeral ((hmeets hkind).worded hW))
  · exact htaken (made (by simp +contextual))
  · exact htaken (strings hr fun _ h => ⟨_, hmeets hkind, h⟩)
  · exact htaken ((parts hr fun _ h => ⟨_, hmeets hkind, h⟩).next fun ps => made (by simp +contextual))
  · exact htaken (made (by simp +contextual))
  · refine htaken ((parts hr fun _ h => ⟨_, hmeets hkind, h⟩).next fun ps => ?_)
    split
    · rename_i t htext
      exact made (by simp +contextual [bound_of_plainText htext])
    · exact made (by simp +contextual)
  · rename_i ws
    have hwords : Fits c K (ws.map Expr.str) := by
      intro e he
      simp only [exprs, List.mem_flatMap, List.mem_map] at he
      obtain ⟨_, ⟨w, -, rfl⟩, he⟩ := he
      obtain rfl := List.mem_singleton.mp he
      simp [fits_parts (e := .str w)]
    exact htaken (made (by simp +contextual [hwords]))
  · exact hplain (.expr .nil (List.forall_mem_singleton.mpr (hmeets hkind).worded) nofun rfl)
  · exact htaken (made (by simp +contextual))
  · refine htaken (after Quiet.parenFollows fun paren => ite ?_ ?_)
    · exact ((callRest hr none fun _ hW => ((hmeets hkind).worded hW).1).imp (fun e he => he allIn_none)
        fun _ => id).owe fun _ => trivial
    · exact made (by simp +contextual)
  · -- A name is a variable only where it is known, and a call elsewhere.
    refine htaken ((isLocal _).bind fun known => after Quiet.parenFollows fun paren => ?_)
    split
    · refine pure (fun hknown => .expr .nil ?_ ?_ rfl) (by simp)
      · exact List.forall_mem_singleton.mpr (hmeets hkind).worded
      · exact List.forall_mem_singleton.mpr (hknown (by simp_all))
    · refine owe (imp (callRest hr none fun _ => (hmeets hkind).worded) (fun e he _ => ?_) fun _ => id)
        fun _ => ⟨trivial, trivial⟩
      exact he allIn_none
  · refine htaken (after Quiet.advance fun k => ?_)
    split
    · exact made (by simp +contextual)
    · exact faultBefore _
  · exact htaken (parenthesised hr)
  · refine htaken ((delimitedArguments hr _).next fun a => ite_of (fun _ => faultAt _ _) fun hsome => ?_)
    have hnone : a.blockArg = none := Option.not_isSome_iff_eq_none.mp hsome
    refine made ⟨by simp, fun hfits hbinds => ⟨fun ha => ?_, ?_⟩⟩
    · simpa [hfits] using ha.arguments
    · simp [hbinds, hnone, bound_list]
  · exact htaken (hashLiteral hr)
  · exact keywordExpr hr hs hstands hkind
  · exact unexpected s hs hstands

theorem trailers (e : Expr) :
    Reads c K (Bound K e) (trailers r e) ((fit c K).given (Fits c K e)) := by
  refine repeatFrom (fit c K) id id fun e => ?_
  have hcall : ∀ name, Reads c K (Bound K e) (Grammar.callRest r (some e) name)
      ((fit c K).given (Fits c K e)) := fun name =>
    ((callRest hr (some e) nofun).imp (fun e' h he => h (allIn_some.mpr he)) fun _ => id).owe
      allIn_some.mp
  refine after Quiet.currentToken fun t => ?_
  split
  · refine after Quiet.advance fun _ => after Quiet.skipNewlines fun _ => ?_
    exact after Quiet.methodNameAfterDot fun name => (hcall name).next fun e' => pure id id
  · refine after Quiet.advance fun _ => after Quiet.advance fun k => ?_
    split
    · refine after Quiet.parenFollows fun paren => ite ((hcall _).next fun e' => pure id id) ?_
      rename_i name
      exact madeOf (.const (.within e) name) (by simp +contextual)
    · exact (hcall _).next fun e' => pure id id
    · exact faultBefore _
  · refine ite (after Quiet.advance fun _ => ?_) (pure id id)
    refine (delimitedArguments hr _).bind fun a => pure (fun ha he => ?_) fun h => ?_
    · exact fits_call nofun (allIn_some.mpr he) (Fits.arguments ha) nofun (allIn_arguments.mp ha).2
    · simpa [bound_list] using partsBound h
  · exact pure id id

/-! ## Operators -/

theorem power (base : Expr) :
    Reads c K (Bound K base) (power r base) ((fit c K).given (Fits c K base)) := by
  refine after (Quiet.eat _) fun found => ite ?_ (pure id id)
  refine hr.unary.bind fun e => pure (fun he hbase => fits_send hbase he.list) fun h => ?_
  simpa using bound_send.mp h

theorem signed (negative : Bool) : Reads c K True (signed r negative) (fit c K) := by
  refine get fun s hs hstands => (?_ : Reads c K True _ (fit c K)) s hs hstands
  dsimp only
  split
  · rename_i e hliteral
    have he : Fits c K e := by
      split at hliteral
      · cases hliteral
      · exact fits_signedLiteral (Setting.Meets.worded ⟨_, hstands, rfl⟩) hliteral
    refine after Quiet.advance fun _ => next ((trailers hr e).owe fun _ => trivial) fun e' => ?_
    refine (power hr e').next fun e'' => pure (fun he'' he' => ?_) fun h => ?_
    · split
      · exact fits_send (he'' (he' he)) allIn_nil
      · exact he'' (he' he)
    · split at h
      · exact (bound_send.mp h).1
      · exact h
  · exact hr.unary.next fun e => pure (fun he => fits_send he allIn_nil) fun h => (bound_send.mp h).1

theorem unary : Reads c K True (unary r) (fit c K) := by
  refine after Quiet.peek fun k => ?_
  split
  · exact after Quiet.advance fun _ => signed hr _
  · exact after Quiet.advance fun _ => signed hr _
  · exact after Quiet.advance fun _ => hr.unary.next fun e => made (by simp +contextual)
  · refine after Quiet.advance fun _ => hr.unary.next fun e => pure (fun he => ?_) fun h => ?_
    · exact fits_send he allIn_nil
    · exact (bound_send.mp h).1
  · refine (primary hr).next fun e => (trailers hr e).next fun e' => ?_
    exact (power hr e').imp (fun e'' he'' he' he => he'' (he' he)) fun _ => id

theorem binary (level : Nat) : Reads c K True (binary r level) (fit c K) := by
  refine (unary hr).next fun first => repeatFrom (fit c K) id id fun left => ?_
  refine after Quiet.peek fun k => ?_
  split
  · exact pure id id
  · refine ite (pure id id) (after Quiet.advance fun _ => after Quiet.skipNewlines fun _ => ?_)
    refine (hr.binary _).bind fun right => pure (fun hright hleft => fits_combine hleft hright) ?_
    exact bound_combine

theorem range : Reads c K True (range r) (fit c K) := by
  refine (binary hr 0).next fun first => after Quiet.peek fun k => ?_
  split
  case h_3 => exact pure id id
  all_goals
    exact after Quiet.advance fun _ => (binary hr 0).bind fun last => made (by simp +contextual)

theorem ternary : Reads c K True (ternary r) (fit c K) := by
  refine (range hr).next fun cond => after (Quiet.eat _) fun found => ite (pure id id) ?_
  refine after Quiet.skipNewlines fun _ => hr.ternary.bind fun yes => ?_
  refine after Quiet.skipNewlines fun _ => after (Quiet.expect _ _) fun _ => ?_
  exact after Quiet.skipNewlines fun _ => hr.ternary.bind fun no => made (by simp +contextual)

/-! ## Assignment -/

omit hr in
theorem target (e : Expr) (start : Nat) :
    Reads c K (Bound K e) (target e start) ((targets c K).given (Fits c K e)) := by
  cases e with
  | lvar n =>
      refine pure (fun he => ?_) fun _ => ?_
      · obtain ⟨hhere, hknown, -⟩ := fits_expr_iff.mp he
        refine ⟨fun x hx => ?_, nofun, nofun⟩
        obtain rfl := Target.lvar.inj hx
        exact ⟨fun hW => (hhere hW).written _ (List.mem_singleton_self _),
          hknown _ (List.mem_singleton_self _)⟩
      · exact bound_of_leaf rfl rfl
  | ivar n =>
      refine pure (fun he => ⟨nofun, fun x hx hW => ?_, nofun⟩) fun _ => ?_
      · obtain rfl := Target.ivar.inj hx
        exact ((fits_expr_iff.mp he).1 hW).written _ (List.mem_singleton_self _)
      · exact bound_of_leaf rfl rfl
  | gvar n => exact pure (fun _ => ⟨nofun, nofun, nofun⟩) fun _ => bound_of_leaf rfl rfl
  | const base n =>
      refine pure (fun he => ⟨nofun, nofun, ?_⟩) fun h => ?_
      · have hbase : Fits c K base := by simpa using (fits_expr_iff.mp he).2.2
        exact hbase
      · exact bound_iff.mpr ⟨nofun, partsBound_held.mpr fun _ => h.2⟩
  | call call =>
      obtain ⟨recv, name, args, block, arg⟩ := call
      refine ite_of (fun hbare => ?_) fun _ => ?_
      · -- The name of a call without a receiver becomes a variable.
        have hrecv : recv = none := by simp_all [Call.isBare]
        subst hrecv
        refine (declare _).bind fun _ => pure (fun hknown he => ⟨fun x hx => ?_, nofun, nofun⟩) ?_
        · obtain rfl := Target.lvar.inj hx
          refine ⟨fun hW => ?_, hknown⟩
          exact ((fits_expr_iff.mp he).1 hW).written _ List.mem_cons_self
        · intro h
          refine ⟨bound_iff.mpr ?_, h.1 _ rfl⟩
          simp_all [Call.isBare, Expr.binds]
      · split
        · rename_i recv name args heq
          cases heq
          have hparts : Fits c K (Expr.call ⟨some recv, name, args, none, none⟩) →
              Fits c K recv ∧ Fits c K args := fun he => by
            obtain ⟨-, -, hparts⟩ := fits_expr_iff.mp he
            simp_all
          refine ite (pure (fun he => ⟨nofun, nofun, ?_⟩) fun h => ?_)
            (ite_of (fun _ => pure (fun he => ⟨nofun, nofun, ?_⟩) fun h => ?_) fun _ => faultAt _ _)
          · exact allIn_cons.mpr (hparts he)
          · have hboth : Bound K (recv :: args) := h.2
            exact bound_iff.mpr (by simp_all [Expr.binds])
          · exact (hparts he).1
          · have hrecv : Bound K recv := h.2
            exact bound_iff.mpr (by simp_all [Expr.binds])
        · exact faultAt _ _
  | _ => exact faultAt _ _

theorem expression : Reads c K True (Grammar.expr r) (fit c K) := by
  refine after Quiet.currentToken fun t => (ternary hr).next fun left => ?_
  refine after Quiet.peek fun k => ?_
  split
  · refine (target left _).next fun t => after Quiet.advance fun _ => hr.expr.bind fun v => ?_
    exact pure (fun hv ht hleft => ((ht hleft).assign hv).1) (bound_assign (c := c)).1
  · refine (target left _).next fun t => after Quiet.advance fun _ => hr.expr.bind fun v => ?_
    exact pure (fun hv ht hleft => ((ht hleft).assign hv).2 _) ((bound_assign (c := c)).2 _)
  · exact pure id id

/-! ## Statements -/

theorem notExpr : Reads c K True (notExpr r) (fit c K) := by
  refine after (Quiet.eatKeyword _) fun found => ite ?_ (expression hr)
  exact hr.notExpr.next fun e => made (by simp +contextual)

theorem exprStmt : Reads c K True (exprStmt r) (fit c K) := by
  refine (notExpr hr).next fun first => repeatFrom (fit c K) id id fun left => ?_
  refine after (Quiet.eatKeyword _) fun isAnd => ite ?_ ?_
  · exact (notExpr hr).bind fun right => madeOf (.and left right) (by simp +contextual)
  · refine after (Quiet.eatKeyword _) fun isOr => ite ?_ (pure id id)
    exact (notExpr hr).bind fun right => madeOf (.or left right) (by simp +contextual)

theorem stmt : Reads c K True (stmt r) (fit c K) := by
  refine (exprStmt hr).next fun first => repeatFrom (fit c K) id id fun e => ?_
  refine after Quiet.peek fun k => ?_
  split
  case h_6 => exact pure id id
  all_goals refine after Quiet.advance fun _ => (exprStmt hr).bind fun e' => ?_
  case h_1 => exact madeOf (.ifElse e' [e] []) (by simp +contextual)
  case h_2 => exact madeOf (.ifElse e' [] [e]) (by simp +contextual)
  case h_3 | h_4 => exact pure (fun he' he => fits_modifierLoop he he' _) bound_modifierLoop
  case h_5 =>
    refine pure (fun he' he => fits_begin he.list ⟨by simp, ?_⟩ allIn_none allIn_none) fun h => ?_
    · exact Fits.list (allIn_rescue.mpr ⟨allIn_nil, he'.list⟩)
    · simpa [clauses] using (bound_begin (c := c)).mp h

theorem stmts : Reads c K True (stmts r) (fit c K) := by
  refine repeatWith (fit c K) allIn_nil fun body => after Quiet.skipTerminators fun _ => ?_
  refine after Quiet.peek fun k => ite (pure allIn_reverse.mpr allIn_reverse.mp) ?_
  refine (stmt hr).bind fun e => after Quiet.peek fun k => after Quiet.peek fun k' => ?_
  exact ite unexpected (done (by simp +contextual))

end Rules

end Reads

/-! ## All levels -/

/-- That a setting lets all names of a unit get lost that are, and stands nowhere else than in it. -/
inductive Setting.Of (file text : String) (c : Setting) : Prop where
  | free (lost : ∀ x, c.lost x)
  | cut {range : Span} {l : Lexed} (cut : Lexed.Cut text range l)
      (stands : ∀ b, c.stands b → (Stream.ofLexed l).Later b) (lost : ∀ x, Lost file text x → c.lost x)

theorem Setting.Of.loses {file text : String} {c : Setting} (hc : c.Of file text) {n : Nat}
    {place : Stream} {x : String} (hplace : c.stands place)
    (h : Loses (Rules.level file text n) place x) : c.lost x := by
  cases hc with
  | free hlost => exact hlost x
  | cut hcut hstands hlost => exact hlost x ⟨_, _, place, n, hcut, hstands place hplace, h⟩

theorem Setting.Of.inside {file text : String} {c : Setting} (hc : c.Of file text) {kind : TokenKind}
    {span : Span} {l : Lexed} (h : lexRange text span = .ok l) (hkind : c.Meets kind)
    (hcode : .code span ∈ kind.segments) : (c.inside h).Of file text := by
  cases hc with
  | free hlost => exact .free hlost
  | cut hcut hstands hlost =>
      obtain ⟨b, hb, rfl⟩ := hkind
      have hmem := (hstands b hb).mem
      rw [Stream.left_ofLexed] at hmem
      exact .cut (.code (hcut.codeSpan hmem hcode) h) (fun _ => id) hlost

/-- At every level, what is read fits. -/
theorem fit_level {file text : String} (n : Nat) {c : Setting} (hc : c.Of file text) :
    (Rules.level file text n).Fit c := by
  induction n generalizing c with
  | zero =>
      exact ⟨.faultHere _, .faultHere _, .faultHere _, .faultHere _, .faultHere _,
        fun _ => .faultHere _, .faultHere _, fun _ _ _ => .faultHere _, hc.loses⟩
  | succ n ih =>
      have hr := ih hc
      exact ⟨.stmts hr, .exprStmt hr, .notExpr hr, .expression hr, .ternary hr, .binary hr, .unary hr,
        fun h hkind hcode => .stmts (ih (hc.inside h hkind hcode)), hc.loses⟩

/-! ## Units -/

theorem readBody_eq_ok {file text : String} {l : Lexed} {body : List Expr}
    (h : readBody file text l = .ok body) :
    ∃ s₁, Grammar.stmts (Rules.level file text (text.utf8ByteSize + 1))
      ⟨Stream.ofLexed l, [⟨[], false⟩], 0⟩ = .ok (body, s₁) := by
  obtain ⟨⟨_, t⟩, hwhole, hresult⟩ := bind_eq_ok h
  obtain rfl := Except.ok.inj hresult
  obtain ⟨body, s₁, hstmts, hrest⟩ := run_bind_eq_ok hwhole
  obtain ⟨_, _, -, hrest⟩ := run_bind_eq_ok hrest
  obtain ⟨rfl, -⟩ := run_ok_inj hrest
  exact ⟨s₁, hstmts⟩

theorem parse_eq_ok {file text : String} {program : Program}
    (h : parse file text = .ok program) :
    ∃ l, lex text = .ok l ∧ readBody file text l = .ok program.body := by
  unfold parse at h
  split at h
  · cases h
  · rename_i l hlex
    split at h
    · cases h
    · rename_i body hbody
      obtain rfl := Except.ok.inj h
      exact ⟨l, hlex, hbody⟩

/-- In a unit, with its tokens. -/
def Setting.ofUnit (file : String) {text : String} {l : Lexed} (h : lex text = .ok l) : Setting :=
  among l True (fun _ => worded_of_lexed (.inl h)) (Lost file text)

/-- That a program assigns to `x`, a variable of the outermost scope. -/
def Program.Assigned (program : Program) (x : String) : Prop := ∃ e ∈ program.body, e.Assigned x

/-- What is read as a unit fits the names that it binds and those that it loses. -/
theorem fits_of_parse {file text : String} {program : Program} (h : parse file text = .ok program) :
    ∃ c : Setting, c.words ∧ c.lost = Lost file text ∧
      Fits c (fun x => program.Assigned x ∨ Lost file text x) program.body := by
  obtain ⟨l, hlex, hbody⟩ := parse_eq_ok h
  obtain ⟨t, hread⟩ := readBody_eq_ok hbody
  refine ⟨.ofUnit file hlex, trivial, rfl, ?_⟩
  have hr : (Rules.level file text (text.utf8ByteSize + 1)).Fit (.ofUnit file hlex) :=
    fit_level _ (.cut (.unit hlex) (fun _ => id) fun _ => id)
  have hend := Reads.stmts (K := fun x => program.Assigned x ∨ Lost file text x) hr
    ⟨Stream.ofLexed l, [⟨[], false⟩], 0⟩ (List.cons_ne_nil _ _) (.refl _) _ t hread
  refine hend.fits (hend.known ?_ ?_)
  · exact fun x hx => .inr (hx.resolve_left (by simp [isLocalIn]))
  · intro e he x hx
    obtain ⟨e', hmem, he⟩ := List.mem_flatMap.mp he
    obtain rfl := List.mem_singleton.mp he
    exact .inl ⟨e, hmem, hx⟩

end RubyJs
