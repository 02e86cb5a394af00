import RubyJs.Proofs.Syntax.Mentions
import RubyJs.Proofs.Syntax.Scopes
import RubyJs.Syntax.Parser

set_option autoImplicit false

/-! # Regular and scoped trees

A tree that was read is more regular than trees are in general. Its names and integers were tokens,
so they are words and have digits, classes have capital letters, and every `case` has a clause.
`Regular` says so of all that holds expressions, and of the expressions inside of them.

And a name is read as a local variable only where it is known, and something has to bind it. `Scoped`
says that all variables are bound where they stand: by an assignment in the same scope, by a
parameter, or, in a block, by something around it.

    x = 1; f { |y| x + y }        x and y are bound in the block
    x = 1; def m(y) y end         only y is bound in the method

`Fits c K` has both for variables in `K`, but `Regular` only if the tokens carried words. `Bound K`
says the reverse: that only names in `K` are assigned to.
-/

namespace RubyJs

open Grammar
open Holder (exprs)

variable {lost : String → Prop} {x : String}

/-! ## Trees -/

/-- That `P` holds of an expression and of those inside of it. -/
inductive Expr.All (P : Expr → Prop) : Expr → Prop where
  | intro {e : Expr} (here : P e) (inside : ∀ s ∈ e.parts, All P s.expr) : All P e

theorem Expr.All.here {P : Expr → Prop} {e : Expr} : e.All P → P e
  | .intro here _ => here

theorem Expr.All.inside {P : Expr → Prop} {e : Expr} (h : e.All P) : ∀ s ∈ e.parts, s.expr.All P :=
  match h with
  | .intro _ inside => inside

/-- The names of the parameters of a block, if there is one. -/
def blockNames (block : Option (Block Expr)) : List String :=
  block.toList.flatMap (·.params.names)

/-- The names of variables, parameters and classes that an expression itself is written with, and
that of a call without a receiver. -/
def Expr.written : Expr → List String
  | lvar x | ivar x => [x]
  | assign (.lvar x) _ | assign (.ivar x) _ => [x]
  | opAssign (.lvar x) _ _ | opAssign (.ivar x) _ _ => [x]
  | call ⟨none, name, _, block, _⟩ => name :: blockNames block
  | call ⟨some _, _, _, block, _⟩ => blockNames block
  | super _ block _ => blockNames block
  | define _ _ params _ => params.names
  | classDef _ name _ _ => [name]
  | .begin _ rescues _ _ => rescues.filterMap Rescue.var
  | _ => []

/-- Whether an expression is a `case` without clauses, an integer without digits or a class without
a capital letter. -/
def Expr.isHollow : Expr → Bool
  | caseOf _ [] _ => true
  | int text => !Numbers.isInteger text
  | classDef _ name _ _ => !isConstant name.toList
  | _ => false

/-- That the names of an expression are words, and that it has the clauses, digits or capital letter
it needs. -/
structure Expr.Regular (e : Expr) : Prop where
  written : ∀ x ∈ e.written, IsWord x
  filled : e.isHollow = false

/-- That an expression is regular whatever its parts are, as it has no names. -/
def Expr.Unnamed (e : Expr) : Prop :=
  (∀ x, x ∉ e.written) ∧ (∀ x, x ∉ e.binds) ∧ ¬ e.isHollow = true

/-- That the expressions that `a` holds, and those inside of them, are regular. -/
def Regular {α : Type} [Holder α] (a : α) : Prop := ∀ e ∈ exprs a, e.All Expr.Regular

/-! ## Scopes -/

/-- The parameters of the block or method that an expression holds. -/
def Expr.parameters : Expr → List String
  | call c => blockNames c.block
  | super _ block _ => blockNames block
  | define _ _ params _ => params.names
  | _ => []

/-- The names that an expression binds in the scope that it opens. -/
def Expr.Introduces (e : Expr) (x : String) : Prop :=
  x ∈ e.parameters ∨ ∃ s ∈ e.parts, s.nesting.isOwn = false ∧ s.expr.Assigned x

/-- The names that are bound in a part of an expression, if those in `K` are bound around it. In all
scopes but the outermost, lost names count as bound. -/
def Expr.scope (lost K : String → Prop) (e : Expr) : Nesting → String → Prop
  | .here | .loop => K
  | .block => fun x => K x ∨ e.Introduces x ∨ lost x
  | .method | .classBody => fun x => e.Introduces x ∨ lost x

/-- That all variables in an expression are bound where they stand, if those in `K` are bound where
the expression stands. -/
inductive Expr.Scoped (lost : String → Prop) : (String → Prop) → Expr → Prop where
  | intro {K : String → Prop} {e : Expr} (here : ∀ x ∈ e.variables, K x)
      (inside : ∀ s ∈ e.parts, Scoped lost (e.scope lost K s.nesting) s.expr) : Scoped lost K e

theorem Expr.Scoped.of_uses {K : String → Prop} {e : Expr} (h : e.Scoped lost K) (hx : e.Uses x) :
    K x := by
  induction h with
  | intro here _ ih =>
      rcases Expr.has_iff.mp hx with hx | ⟨⟨e', n, fate⟩, hs, hown, hx⟩
      · exact here x hx
      · cases n with
        | here | loop => exact ih _ hs hx
        | _ => cases hown

/-! ## Trees that fit -/

/-- That an expression has the variables in `K` around it, and is regular with all inside of it if
the tokens carried words. -/
def Expr.Fits (c : Setting) (K : String → Prop) (e : Expr) : Prop :=
  (c.words → e.All Expr.Regular) ∧ e.Scoped c.lost K

/-- That all the expressions that `a` holds do so. -/
abbrev Fits {α : Type} [Holder α] (c : Setting) (K : String → Prop) (a : α) : Prop :=
  AllIn (Expr.Fits c K) a

/-- That the parts of `e` do so. -/
def PartsFit (c : Setting) (K : String → Prop) (e : Expr) (ss : List Site) : Prop :=
  ∀ s ∈ ss, s.expr.Fits c (e.scope c.lost K s.nesting)

/-- That an expression assigns to names in `K` only. -/
def Expr.Within (K : String → Prop) (e : Expr) : Prop := ∀ x, e.Assigned x → K x

/-- That all the expressions that `a` holds do so. -/
abbrev Bound {α : Type} [Holder α] (K : String → Prop) (a : α) : Prop := AllIn (Expr.Within K) a

/-- That the parts that share the variables of the whole do so. -/
def PartsBound (K : String → Prop) (ss : List Site) : Prop :=
  ∀ s ∈ ss, s.nesting.isOwn = true → s.expr.Within K

/-- What is read as an expression, or as something that holds some. -/
def fit {α : Type} [Holder α] (c : Setting) (K : String → Prop) : Spec α := ⟨Fits c K, Bound K⟩

section Bound

variable {α : Type} [Holder α] {K : String → Prop} {a : α} {e : Expr}

theorem within_iff : e.Within K ↔ (∀ x ∈ e.binds, K x) ∧ PartsBound K e.parts := by
  simp only [Expr.Within, Expr.has_iff (e := e), PartsBound]
  grind

theorem partsBound_append {ss ss' : List Site} :
    PartsBound K (ss ++ ss') ↔ PartsBound K ss ∧ PartsBound K ss' := List.forall_mem_append

theorem partsBound_held {fate : Fate} {n : Nesting} :
    PartsBound K (heldAs fate n a) ↔ (n.isOwn = true → Bound K a) := by
  simp only [PartsBound, heldAs, List.forall_mem_map, AllIn]
  grind

theorem bound_iff : Bound K e ↔ (∀ x ∈ e.binds, K x) ∧ PartsBound K e.parts :=
  allIn_expr.trans within_iff

theorem partsBound (h : Bound K e) : PartsBound K e.parts := (bound_iff.mp h).2

theorem bound_of_leaf (hbinds : e.binds = []) (hparts : e.parts = []) : Bound K e := by
  rw [bound_iff, hbinds, hparts]
  exact ⟨List.forall_mem_nil _, List.forall_mem_nil _⟩

theorem allIn_reverse {R : Expr → Prop} {es : List Expr} : AllIn R es.reverse ↔ AllIn R es := by
  simp only [AllIn, exprs, List.mem_flatMap, List.mem_reverse]

theorem within_parts (hbinds : ∀ x, x ∉ e.binds) : e.Within K ↔ PartsBound K e.parts :=
  within_iff.trans (and_iff_right fun x hx => absurd hx (hbinds x))

theorem bound_of_all (hK : ∀ x, K x) : Bound K a := fun _ _ x _ => hK x

end Bound

section Fits

variable {α : Type} [Holder α] {c : Setting} {K : String → Prop} {a : α} {e : Expr}
variable {fate : Fate}

theorem Fits.list (h : Fits c K a) : Fits c K [a] := allIn_cons.mpr ⟨h, allIn_nil⟩

theorem Fits.concat {as : List α} (h : Fits c K as) (ha : Fits c K a) : Fits c K (as ++ [a]) :=
  allIn_append.mpr ⟨h, ha.list⟩

theorem fits_body {es : List Expr} (h : ∀ e ∈ es, Fits c K e) : Fits c K es := by
  intro e he
  obtain ⟨e', hmem, he⟩ := List.mem_flatMap.mp he
  exact h e' hmem e he

theorem Fits.regular (h : Fits c K a) (hwords : c.words) : Regular a := fun e he => (h e he).1 hwords

/-- What an expression holds in a scope of its own has other variables. -/
theorem Fits.inner {n : Nesting} (h : Fits c (e.scope c.lost K n) a) :
    PartsFit c K e (heldAs fate n a) := by
  intro s hs
  obtain ⟨e', he, rfl⟩ := List.mem_map.mp hs
  exact h e' he

theorem Fits.parts (h : Fits c K a) : PartsFit c K e (heldAs fate .here a) := inner h

theorem partsFit_held {n : Nesting} :
    PartsFit c K e (heldAs fate n a) ↔ Fits c (e.scope c.lost K n) a :=
  ⟨fun h e' he => h ⟨e', n, fate⟩ (List.mem_map_of_mem he), Fits.inner⟩

theorem PartsFit.nil : PartsFit c K e [] := fun _ hs => absurd hs List.not_mem_nil

theorem partsFit_append {ss ss' : List Site} :
    PartsFit c K e (ss ++ ss') ↔ PartsFit c K e ss ∧ PartsFit c K e ss' := List.forall_mem_append

theorem PartsFit.append {ss ss' : List Site} (h : PartsFit c K e ss) (h' : PartsFit c K e ss') :
    PartsFit c K e (ss ++ ss') := partsFit_append.mpr ⟨h, h'⟩

theorem fits_expr_iff : Fits c K e ↔
    (c.words → e.Regular) ∧ (∀ x ∈ e.variables, K x) ∧ PartsFit c K e e.parts := by
  rw [Fits, allIn_expr]
  constructor
  · rintro ⟨hregular, ⟨hhere, hinside⟩⟩
    refine ⟨fun hwords => ?_, hhere, fun s hs => ⟨fun hwords => ?_, hinside s hs⟩⟩
    · obtain ⟨hhere, -⟩ := hregular hwords
      exact hhere
    · obtain ⟨-, hinside⟩ := hregular hwords
      exact hinside s hs
  · rintro ⟨hregular, hvariables, hparts⟩
    exact ⟨fun hwords => ⟨hregular hwords, fun s hs => (hparts s hs).1 hwords⟩,
      hvariables, fun s hs => (hparts s hs).2⟩

/-- An expression fits if its parts do. -/
theorem Fits.expr (hparts : PartsFit c K e e.parts) (hwritten : ∀ x ∈ e.written, c.words → IsWord x)
    (hknown : ∀ x ∈ e.variables, K x) (hfilled : e.isHollow = false) : Fits c K e :=
  fits_expr_iff.mpr ⟨fun hW => ⟨fun x hx => hwritten x hx hW, hfilled⟩, hknown, hparts⟩

/-- The variables of an expression are among the names that it is written with. -/
theorem Expr.mem_written (hx : x ∈ e.variables) : x ∈ e.written := by
  cases e with
  | assign t v | opAssign t op v => cases t <;> first | exact hx | exact absurd hx List.not_mem_nil
  | lvar | «begin» => exact hx
  | _ => exact absurd hx List.not_mem_nil

/-- An expression without names fits if its parts do. -/
theorem Fits.unnamed (hparts : PartsFit c K e e.parts) (hnone : e.written = [])
    (hfilled : e.isHollow = false) : Fits c K e := by
  have hnot : ∀ x, x ∉ e.written := hnone ▸ fun _ => List.not_mem_nil
  exact expr hparts (fun x hx => absurd hx (hnot x))
    (fun x hx => absurd (Expr.mem_written hx) (hnot x)) hfilled

theorem fits_parts (hnone : ∀ x, x ∉ e.written) (hfilled : ¬ e.isHollow = true) :
    e.Fits c K ↔ PartsFit c K e e.parts := by
  rw [← allIn_expr (R := Expr.Fits c K)]
  refine ⟨fun h => (fits_expr_iff.mp h).2.2, fun h => Fits.unnamed h ?_ ?_⟩
  · exact List.eq_nil_iff_forall_not_mem.mpr hnone
  · exact Bool.eq_false_iff.mpr hfilled

end Fits

/-! ## What expressions are made of -/

section Made

variable {c : Setting} {K : String → Prop}
variable {body args : List Expr} {a : Arguments} {name : String}

attribute [local simp] Expr.parts Expr.binds Expr.written Expr.isHollow Expr.scope
  within_parts fits_parts partsBound_append partsBound_held PartsFit.nil partsFit_append partsFit_held Nesting.isOwn
  heldArgument

instance : Holder Arguments where
  exprs a := exprs a.values ++ exprs a.pairs ++ exprs a.blockArg

theorem allIn_arguments {R : Expr → Prop} :
    AllIn R a ↔ (AllIn R a.values ∧ AllIn R a.pairs) ∧ AllIn R a.blockArg := by
  simp only [AllIn, exprs, List.forall_mem_append]

theorem Fits.arguments (h : Fits c K a) : Fits c K a.list := by
  obtain ⟨⟨hvalues, hpairs⟩, -⟩ := allIn_arguments.mp h
  unfold Arguments.list
  split
  · exact hvalues
  · simp [hvalues, hpairs]

theorem bound_list : Bound K a.list ↔ Bound K a.values ∧ Bound K a.pairs := by
  unfold Arguments.list
  split
  · rename_i hempty
    simp [List.isEmpty_iff.mp hempty]
  · simp

/-- That parameters have known words for names, and defaults that fit. -/
structure ParamsFit (c : Setting) (K : String → Prop) (p : Params Expr) : Prop where
  names : ∀ x ∈ p.names, (c.words → IsWord x) ∧ K x
  defaults : Fits c K p.optional

theorem ParamsFit.empty : ParamsFit c K {} := by
  constructor <;> simp [Params.names, Params.positional]

/-- Parameters fit with one more name. -/
theorem ParamsFit.add {p p' : Params Expr} (h : ParamsFit c K p) (hx : (c.words → IsWord x) ∧ K x)
    (hnames : ∀ y ∈ p'.names, y = x ∨ y ∈ p.names) (hdefaults : Fits c K p'.optional) :
    ParamsFit c K p' := by
  refine ⟨fun y hy => ?_, hdefaults⟩
  rcases hnames y hy with rfl | hy
  · exact hx
  · exact h.names y hy

/-- What is read in a scope of its own, with the names in `K` known. -/
def contents (c : Setting) (K : String → Prop) : Spec (Params Expr × List Expr) where
  fits m := ParamsFit c K m.1 ∧ Fits c K m.2
  binds m := (∀ x ∈ m.1.names, K x) ∧ Bound K m

section Inner

variable {α : Type} [Holder α] {e : Expr} {n : Nesting} {fate : Fate}

theorem scope_of_introduces (hn : n.isOwn = false) (hx : e.Introduces x) : e.scope lost K n x := by
  cases n with
  | here | loop => cases hn
  | block => exact .inr (.inl hx)
  | method | classBody => exact .inl hx

/-- The names that are assigned to in a scope of its own are bound there. -/
theorem bound_scope {a : α} (hn : n.isOwn = false) (h : heldAs fate n a ⊆ e.parts) :
    Bound (e.scope lost K n) a := fun e' he _ hx =>
  scope_of_introduces hn (.inr ⟨⟨e', n, fate⟩, h (List.mem_map_of_mem he), hn, hx⟩)

/-- A body in a scope of its own fits where it stands. -/
theorem fits_classBody (h : (Spec.inner c.lost K false (fit c)).fits body)
    (hparts : held .classBody body ⊆ e.parts) : PartsFit c K e (held .classBody body) :=
  Fits.inner (h _ (fun _ hx => .inr (hx.resolve_left fun h => Bool.false_ne_true h.1))
    (bound_scope rfl hparts))

/-- What has parameters fits where it stands in a scope of its own, and these are words. -/
theorem fits_contents {inherits : Bool} {m : Params Expr × List Expr}
    (h : (Spec.inner c.lost K inherits (contents c)).fits m) (hn : n.isOwn = false)
    (hsees : ∀ x, inherits = true ∧ K x ∨ c.lost x → e.scope c.lost K n x)
    (hnames : e.parameters = m.1.names) (hparts : held n m ⊆ e.parts) :
    PartsFit c K e (held n m) ∧ ∀ x ∈ m.1.names, c.words → IsWord x := by
  obtain ⟨hparams, hbody⟩ := h (e.scope c.lost K n) hsees
    ⟨fun x hx => scope_of_introduces hn (.inl (hnames ▸ hx)), bound_scope hn hparts⟩
  exact ⟨Fits.inner (allIn_pair.mpr ⟨hparams.defaults, hbody⟩), fun x hx => (hparams.names x hx).1⟩

end Inner

/-- What is read as a block, seen from the scope around it. -/
def blockFit (c : Setting) (K : String → Prop) : Spec (Block Expr) where
  fits b := (Spec.inner c.lost K true (contents c)).fits (b.params, b.body)
  binds _ := True

theorem fits_block {e : Expr} {b : Option (Block Expr)} (h : (blockFit c K).option.fits b)
    (hnames : e.parameters = blockNames b) (hparts : held .block b ⊆ e.parts) :
    PartsFit c K e (held .block b) ∧ ∀ x ∈ blockNames b, c.words → IsWord x := by
  cases b with
  | none => exact ⟨.nil, fun _ hx => absurd hx List.not_mem_nil⟩
  | some b =>
      have hheld : held .block (some b) = held .block (b.params, b.body) := by
        simp [heldAs, exprs]
      have hblock : blockNames (some b) = b.params.names := by simp [blockNames]
      rw [hheld] at hparts ⊢
      rw [hblock] at hnames ⊢
      exact fits_contents (h b rfl) rfl (fun x hx => hx.imp And.right .inr) hnames hparts

/-- What is read as clauses: their variables are known words. -/
def clauses (c : Setting) (K : String → Prop) : Spec (List (Rescue Expr)) where
  fits rs := (∀ x ∈ rs.filterMap Rescue.var, (c.words → IsWord x) ∧ K x) ∧ Fits c K rs
  binds rs := (∀ x ∈ rs.filterMap Rescue.var, K x) ∧ Bound K rs

/-- That a target has a known word for a local variable, a word for a variable, and fits. -/
structure TargetFit (c : Setting) (K : String → Prop) (t : Target Expr) : Prop where
  lvar : ∀ x, t = .lvar x → (c.words → IsWord x) ∧ K x
  ivar : ∀ x, t = .ivar x → c.words → IsWord x
  parts : Fits c K t

/-- What is read as a target. -/
def targets (c : Setting) (K : String → Prop) : Spec (Target Expr) where
  fits := TargetFit c K
  binds t := (∀ x, t = .lvar x → K x) ∧ Bound K t

theorem TargetFit.assign {t : Target Expr} {v : Expr} (ht : TargetFit c K t) (hv : Fits c K v) :
    Fits c K (Expr.assign t v) ∧ ∀ op, Fits c K (Expr.opAssign t op v) := by
  have hparts : ∀ e, PartsFit c K e (held .here t ++ held .here v) :=
    fun _ => ht.parts.parts.append hv.parts
  cases t with
  | lvar x =>
      obtain ⟨hx, hknown⟩ := ht.lvar x rfl
      have hword : ∀ y ∈ [x], c.words → IsWord y := List.forall_mem_singleton.mpr hx
      have hknown : ∀ y ∈ [x], K y := List.forall_mem_singleton.mpr hknown
      exact ⟨.expr (hparts _) hword hknown rfl, fun _ => .expr (hparts _) hword hknown rfl⟩
  | ivar x =>
      have hword : ∀ y ∈ [x], c.words → IsWord y := List.forall_mem_singleton.mpr (ht.ivar x rfl)
      exact ⟨.expr (hparts _) hword nofun rfl, fun _ => .expr (hparts _) hword nofun rfl⟩
  | _ => simp [ht.parts, allIn_expr.mp hv]

theorem bound_assign {t : Target Expr} {v : Expr} :
    (Bound K (Expr.assign t v) → (targets c K).binds t ∧ Bound K v) ∧
      ∀ op, Bound K (Expr.opAssign t op v) → (targets c K).binds t ∧ Bound K v := by
  simp only [bound_iff (e := .assign t v), bound_iff (e := .opAssign ..), targets]
  cases t <;> simp; tauto

/-! ## Expressions -/

/-- A call fits if its parts do. Without a receiver its name is a word. -/
theorem fits_call {recv : Option Expr} {block : Option (Block Expr)} {arg : Option Expr}
    (hname : recv = none → c.words → IsWord name) (hrecv : Fits c K recv) (hargs : Fits c K args)
    (hblock : (blockFit c K).option.fits block) (harg : Fits c K arg) :
    Fits c K (Expr.call ⟨recv, name, args, block, arg⟩) := by
  obtain ⟨hblock, hwords⟩ := fits_block (e := .call ⟨recv, name, args, block, arg⟩) hblock rfl
    fun s hs => by simp [Expr.parts, hs]
  refine .expr (((hrecv.parts.append hargs.parts).append hblock).append harg.parts) ?_ nofun rfl
  cases recv with
  | none => exact List.forall_mem_cons.mpr ⟨hname rfl, hwords⟩
  | some e => exact hwords

theorem fits_send {recv : Expr} (hrecv : Fits c K recv) (hargs : Fits c K args) :
    Fits c K (send recv name args) :=
  fits_call nofun (allIn_some.mpr hrecv) hargs nofun allIn_none

theorem fits_combine {op : String} {left right : Expr} (hleft : Fits c K left)
    (hright : Fits c K right) : Fits c K (combine op left right) := by
  have hsend : ∀ name, Fits c K (send left name [right]) := fun name => fits_send hleft hright.list
  unfold combine
  split
  case h_4 => exact hsend _
  all_goals simp_all

theorem bound_send {recv : Expr} : Bound K (send recv name args) ↔ Bound K recv ∧ Bound K args := by
  simp [send]

theorem bound_combine {op : String} {left right : Expr} (h : Bound K (combine op left right)) :
    Bound K left ∧ Bound K right := by
  unfold combine at h
  split at h <;> simpa [send] using h

theorem fits_int {text : String} (h : c.words → Numbers.isInteger text = true) :
    Fits c K (Expr.int text) := by
  refine fits_expr_iff.mpr ⟨fun hW => ⟨nofun, ?_⟩, nofun, .nil⟩
  rw [Expr.isHollow, h hW]
  rfl

theorem fits_signedLiteral {folds : Bool} {kind : TokenKind} {e : Expr} (hkind : c.words → kind.Worded)
    (h : signedLiteral? (if folds then "-" else "") kind = some e) : Fits c K e := by
  unfold signedLiteral? at h
  split at h
  · obtain rfl := Option.some.inj h
    refine fits_int fun hW => ?_
    cases folds with
    | true => exact Numbers.isInteger_minus (hkind hW)
    | false =>
        rw [if_neg Bool.false_ne_true, String.empty_append]
        exact Numbers.isInteger_of_isNumeral (hkind hW)
  · obtain rfl := Option.some.inj h
    simp
  · cases h

theorem fits_foldl_ifElse {branches : List (Expr × List Expr)} {last : List Expr}
    (hbranches : Fits c K branches) (hlast : Fits c K last) :
    Fits c K (branches.foldl (fun rest b => [.ifElse b.1 b.2 rest]) last) := by
  induction branches generalizing last with
  | nil => exact hlast
  | cons b bs ih =>
      obtain ⟨hb, hbs⟩ := allIn_cons.mp hbranches
      obtain ⟨hcond, hbody⟩ := allIn_pair.mp hb
      exact ih hbs (by simp_all)

theorem bound_foldl_ifElse {branches : List (Expr × List Expr)} {last : List Expr}
    (h : Bound K (branches.foldl (fun rest b => [.ifElse b.1 b.2 rest]) last)) :
    Bound K branches ∧ Bound K last := by
  induction branches generalizing last with
  | nil => exact ⟨allIn_nil, h⟩
  | cons b bs ih =>
      obtain ⟨cond, body⟩ := b
      obtain ⟨hbs, hlast⟩ := ih h
      simpa [hbs, and_assoc] using hlast

theorem bound_of_plainText {ps : List (Part Expr)} {t : String} (h : plainText? ps = some t) :
    Bound K ps := by
  induction ps generalizing t with
  | nil => exact allIn_nil
  | cons p ps ih =>
      cases p with
      | lit u =>
          obtain ⟨t', ht, -⟩ := Option.map_eq_some_iff.mp h
          exact allIn_cons.mpr ⟨allIn_lit, ih ht⟩
      | code body => cases h

theorem fits_begin {rescues : List (Rescue Expr)} {elseBody ensureBody : Option (List Expr)}
    (hbody : Fits c K body) (hrescues : (clauses c K).fits rescues) (helse : Fits c K elseBody)
    (hensure : Fits c K ensureBody) : Fits c K (Expr.begin body rescues elseBody ensureBody) := by
  refine .expr ?_ (fun x hx => (hrescues.1 x hx).1) (fun x hx => (hrescues.1 x hx).2) rfl
  exact ((hbody.parts.append hrescues.2.parts).append helse.parts).append hensure.parts

theorem bound_begin {rescues : List (Rescue Expr)} {elseBody ensureBody : Option (List Expr)} :
    Bound K (Expr.begin body rescues elseBody ensureBody) ↔ Bound K body ∧
      (clauses c K).binds rescues ∧ Bound K elseBody ∧ Bound K ensureBody := by
  rw [bound_iff]
  simp [clauses]
  tauto

theorem fits_of_unguarded {e : Expr} (h : unguarded? e = some body) (he : Fits c K e) :
    Fits c K body := by
  unfold unguarded? at h
  split at h
  · obtain rfl := Option.some.inj h
    obtain ⟨-, -, hparts⟩ := fits_expr_iff.mp he
    simp_all
  · cases h

theorem bound_of_unguarded {e : Expr} (h : unguarded? e = some body) (hbody : Bound K body) :
    Bound K e := by
  unfold unguarded? at h
  split at h
  · obtain rfl := Option.some.inj h
    exact (bound_begin (c := .anywhere)).mpr ⟨hbody, ⟨by simp, allIn_nil⟩, allIn_none, allIn_none⟩
  · cases h

theorem fits_modifierLoop {e cond : Expr} (he : Fits c K e) (hcond : Fits c K cond)
    (isUntil : Bool) : Fits c K (modifierLoop e cond isUntil) := by
  unfold modifierLoop
  split
  · rename_i body hplain
    have := fits_of_unguarded hplain he
    simp_all
  · simp_all

theorem bound_modifierLoop {e cond : Expr} {isUntil : Bool}
    (h : Bound K (modifierLoop e cond isUntil)) : Bound K e ∧ Bound K cond := by
  unfold modifierLoop at h
  split at h
  · rename_i body hplain
    obtain ⟨hcond, hbody⟩ : Bound K cond ∧ Bound K body := by simpa using h
    exact ⟨bound_of_unguarded hplain hbody, hcond⟩
  · simpa [and_comm] using h

/-- Reading ends with something made of an expression without names, which fits if its parts do, and
binds what they do. -/
theorem Reads.madeOf {α : Type} {a : α} {S : Spec α} {owed : Prop} (e : Expr)
    (h : e.Unnamed ∧ ((e.Fits c K ↔ PartsFit c K e e.parts) → (e.Within K ↔ PartsBound K e.parts) →
      S.fits a ∧ (S.binds a → owed))) : Reads c K owed (Pure.pure a) S := by
  obtain ⟨⟨hnone, hbinds, hfilled⟩, h⟩ := h
  exact done (h (fits_parts hnone hfilled) (within_parts hbinds))

theorem Reads.made {e : Expr} {S : Spec Expr} {owed : Prop}
    (h : e.Unnamed ∧ ((e.Fits c K ↔ PartsFit c K e e.parts) → (e.Within K ↔ PartsBound K e.parts) →
      S.fits e ∧ (S.binds e → owed))) : Reads c K owed (Pure.pure e) S :=
  madeOf e h

end Made

end RubyJs
