import RubyJs.Emission.Tree
import RubyJs.Proofs.Syntax.Regular

set_option autoImplicit false

/-! # What holds of the emissions in a construct

The emissions of the parts of a tree stand in targets, parameters, blocks and clauses. What is
proved about a tree by induction is known of the emissions of its parts (`Emits`), and here it is
handed on to the constructs that are made of them: `P` is what holds of emissions, and `N` what
holds of the names of variables.
-/

namespace RubyJs

open Holder (exprs)

/-! ## Constructs -/

namespace Emission

variable (N : String → Prop) (P : Emission → Prop)

/-- What holds of a target. -/
def TargetOf : Target Emission → Prop
  | .lvar x | .ivar x => N x
  | .gvar _ => True
  | .const base _ => ∀ e, base = .within e → P e
  | .attr recv _ => P recv
  | .index recv args => P recv ∧ ∀ e ∈ args, P e

/-- What holds of a clause of a handler. -/
structure RescueOf (r : Rescue Emission) : Prop where
  classes : ∀ e ∈ r.classes, P e
  var : ∀ x ∈ r.var, N x
  body : ∀ e ∈ r.body, P e

/-- What holds of parameters. -/
structure ParamsOf (p : Params Emission) : Prop where
  required : ∀ x ∈ p.required, N x
  optional : ∀ d ∈ p.optional, N d.1 ∧ P d.2
  rest : ∀ x ∈ p.rest, N x
  block : ∀ x ∈ p.block, N x

/-- What holds of a block. -/
structure BlockOf (b : Block Emission) : Prop where
  params : ParamsOf N P b.params
  body : ∀ e ∈ b.body, P e

/-- What holds of a call. -/
structure CallOf (c : Call Emission) : Prop where
  recv : ∀ e ∈ c.recv, P e
  args : ∀ e ∈ c.args, P e
  block : ∀ b ∈ c.block, BlockOf N P b
  blockArg : ∀ e ∈ c.blockArg, P e

variable {N P}

theorem ParamsOf.positional {p : Params Emission} (h : ParamsOf N P p) : ∀ x ∈ positional p, N x :=
  List.forall_mem_append.mpr ⟨h.required, List.forall_mem_map.mpr fun d hd => (h.optional d hd).1⟩

end Emission

/-! ## Trees -/

open Emission

variable {N : String → Prop} {P : Emission → Prop} {u : UnitInfo}
variable {α : Type}

/-- That `P` holds of the emissions of the expressions that `a` holds. -/
def Emits {α : Type} [Holder α] (P : Emission → Prop) (u : UnitInfo) (a : α) : Prop :=
  ∀ e ∈ exprs a, P (emit u e)

theorem emits_of_held [Holder α] {fate : Fate} {n : Nesting} {a : α}
    (h : ∀ s ∈ heldAs fate n a, P (emit u s.expr)) : Emits P u a :=
  fun e he => h ⟨e, n, fate⟩ (List.mem_map_of_mem he)

namespace Emits

theorem expr {e : Expr} (h : Emits P u e) : P (emit u e) :=
  h e (List.mem_singleton_self e)

theorem head [Holder α] {a : α} {as : List α} (h : Emits P u (a :: as)) :
    Emits P u a := fun e he => h e (List.mem_append_left _ he)

theorem tail [Holder α] {a : α} {as : List α} (h : Emits P u (a :: as)) :
    Emits P u as := fun e he => h e (List.mem_append_right _ he)

theorem some [Holder α] {a : α} (h : Emits P u (some a)) : Emits P u a :=
  fun e he => h e (List.mem_append_left _ he)

theorem all {es : List Expr} (h : Emits P u es) : ∀ e ∈ emitAll u es, P e := by
  induction es with
  | nil => exact fun _ he => absurd he List.not_mem_nil
  | cons e es ih => exact List.forall_mem_cons.mpr ⟨h.head.expr, ih h.tail⟩

theorem option {o : Option Expr} (h : Emits P u o) : ∀ e ∈ emitOption u o, P e := by
  cases o with
  | none => exact fun _ he => nomatch he
  | some e =>
      rintro _ ⟨⟩
      exact h.some.expr

theorem body? {o : Option (List Expr)} (h : Emits P u o) : ∀ es ∈ emitBody? u o, ∀ e ∈ es, P e := by
  cases o with
  | none => exact fun _ he => nomatch he
  | some es =>
      rintro _ ⟨⟩
      exact h.some.all

theorem parts {ps : List (Part Expr)} (h : Emits P u ps) :
    ∀ p ∈ emitParts u ps, ∀ es, p = .code es → ∀ e ∈ es, P e := by
  induction ps with
  | nil => exact fun _ hp => absurd hp List.not_mem_nil
  | cons p ps ih =>
      cases p with
      | lit t => exact List.forall_mem_cons.mpr ⟨nofun, ih h.tail⟩
      | code es =>
          have hcode : Emits P u es := h.head
          refine List.forall_mem_cons.mpr ⟨?_, ih h.tail⟩
          rintro _ ⟨⟩
          exact hcode.all

theorem pairs {ps : List (Expr × Expr)} (h : Emits P u ps) :
    ∀ p ∈ emitPairs u ps, P p.1 ∧ P p.2 := by
  induction ps with
  | nil => exact fun _ hp => absurd hp List.not_mem_nil
  | cons p ps ih =>
      have hkey : Emits P u p.1 := fun e he => h.head e (List.mem_append_left _ he)
      have hvalue : Emits P u p.2 := fun e he => h.head e (List.mem_append_right _ he)
      exact List.forall_mem_cons.mpr ⟨⟨hkey.expr, hvalue.expr⟩, ih h.tail⟩

theorem base {base : Base Expr} (h : Emits P u base) : ∀ e, emitBase u base = .within e → P e := by
  cases base with
  | within scope =>
      rintro _ ⟨⟩
      exact h scope (List.mem_singleton_self _)
  | _ => exact fun _ heq => nomatch heq

theorem target {t : Target Expr} (h : Emits P u t)
    (hname : ∀ x, t = .lvar x ∨ t = .ivar x → N x) : TargetOf N P (emitTarget u t) := by
  cases t with
  | lvar x => exact hname x (Or.inl rfl)
  | ivar x => exact hname x (Or.inr rfl)
  | gvar x => trivial
  | const base x =>
      have hbase : Emits P u base := h
      exact hbase.base
  | attr recv x => exact h recv (List.mem_singleton_self _)
  | index recv args =>
      have hargs : Emits P u args := fun e he => h e (List.mem_cons_of_mem _ he)
      exact ⟨h recv List.mem_cons_self, hargs.all⟩

theorem named {ds : List (String × Expr)} (h : Emits P u ds) (hnames : ∀ d ∈ ds, N d.1) :
    ∀ d ∈ emitNamed u ds, N d.1 ∧ P d.2 := by
  induction ds with
  | nil => exact fun _ hd => absurd hd List.not_mem_nil
  | cons d ds ih =>
      obtain ⟨hd, hds⟩ := List.forall_mem_cons.mp hnames
      have hvalue : Emits P u d.2 := fun e he => h.head e he
      exact List.forall_mem_cons.mpr ⟨⟨hd, hvalue.expr⟩, ih h.tail hds⟩

theorem params {p : Params Expr} (h : Emits P u p) (hnames : ∀ x ∈ p.names, N x) :
    ParamsOf N P (emitParams u p) := by
  obtain ⟨required, optional, rest, block⟩ := p
  have hdefaults : Emits P u optional := h
  simp only [Params.names, Params.positional, List.forall_mem_append, List.forall_mem_map] at hnames
  obtain ⟨⟨⟨hrequired, hoptional⟩, hrest⟩, hblock⟩ := hnames
  refine ⟨hrequired, hdefaults.named hoptional, fun x hx => ?_, fun x hx => ?_⟩
  · exact hrest x (Option.mem_toList.mpr hx)
  · exact hblock x (Option.mem_toList.mpr hx)

theorem block? {b : Option (Block Expr)} (h : Emits P u b)
    (hnames : ∀ x ∈ blockNames b, N x) : ∀ b' ∈ emitBlock? u b, BlockOf N P b' := by
  cases b with
  | none => exact fun _ hb => nomatch hb
  | some b =>
      obtain ⟨params, body⟩ := b
      have hparams : Emits P u params := fun e he => h.some e (List.mem_append_left _ he)
      have hbody : Emits P u body := fun e he => h.some e (List.mem_append_right _ he)
      rintro _ ⟨⟩
      exact ⟨hparams.params (by simpa [blockNames] using hnames), hbody.all⟩

theorem whens {ws : List (When Expr)} (h : Emits P u ws) :
    ∀ w ∈ emitWhens u ws, (∀ e ∈ w.values, P e) ∧ ∀ e ∈ w.body, P e := by
  induction ws with
  | nil => exact fun _ hw => absurd hw List.not_mem_nil
  | cons w ws ih =>
      obtain ⟨values, body⟩ := w
      have hvalues : Emits P u values := fun e he => h.head e (List.mem_append_left _ he)
      have hbody : Emits P u body := fun e he => h.head e (List.mem_append_right _ he)
      exact List.forall_mem_cons.mpr ⟨⟨hvalues.all, hbody.all⟩, ih h.tail⟩

theorem rescues {rs : List (Rescue Expr)} (h : Emits P u rs)
    (hnames : ∀ x ∈ rs.filterMap Rescue.var, N x) :
    ∀ r ∈ emitRescues u rs, RescueOf N P r := by
  induction rs with
  | nil => exact fun _ hr => absurd hr List.not_mem_nil
  | cons r rs ih =>
      obtain ⟨classes, var, body⟩ := r
      have hclasses : Emits P u classes := fun e he => h.head e (List.mem_append_left _ he)
      have hbody : Emits P u body := fun e he => h.head e (List.mem_append_right _ he)
      simp only [List.mem_filterMap, List.mem_cons, forall_exists_index, and_imp] at hnames
      refine List.forall_mem_cons.mpr ⟨⟨hclasses.all, fun x hx => ?_, hbody.all⟩, ih h.tail ?_⟩
      · exact hnames x _ (Or.inl rfl) hx
      · intro x hx
        obtain ⟨r, hr, hvar⟩ := List.mem_filterMap.mp hx
        exact hnames x r (Or.inr hr) hvar

end Emits

end RubyJs
