import RubyJs.Proofs.Emission.Constructs
import RubyJs.Proofs.Emission.Guards

set_option autoImplicit false

/-! # What can be generated

For every construct there is a lemma that says when it can be generated: if its parts can, each at its
spot, apart from the few constructs that refuse by themselves.

The same lemmas say what was generated. In an expression that is generated, the parts are generated that
get code, and so is the function of its block (`Block.Runs`).
-/

namespace RubyJs

open Script (Term Stmt)
open Emission
open Holder (exprs)

variable {ps : List (Part Expr)} {t : Target Expr}

/-! ## Emissions -/

/-- That all ways to generate an expression at `c` refuse only for a reason in `P`. At a spot that takes
a jump the expression is a statement. -/
structure Guarded (c : Spot) (P : Refusal → Prop) (Q : Prop) (e : Emission) : Prop where
  stmts : ∀ ret, Guards c P (fun _ => Q) (e.stmts ret)
  value : c.takesJump = false → Guards c P (fun _ => Q) e.value
  test : c.takesJump = false → Guards c P (fun _ => Q) e.test
  splat : c.takesJump = false → ∀ v t, e.splat? = some (v, t) →
    Guards c P (fun _ => Q) v ∧ Guards c P (fun _ => Q) t

namespace Guarded

variable {c : Spot} {P : Refusal → Prop} {Q Q' : Prop}
variable {e : Emission}

theorem ofTest {bare : Bool} {value test : Gen Term} (hvalue : Guards c P (fun _ => Q) value)
    (htest : Guards c P (fun _ => Q) test) : Guarded c P Q (Emission.ofTest bare value test) where
  stmts _ := hvalue.map
  value _ := hvalue
  test _ := htest
  splat _ _ _ h := nomatch h

theorem ofValue {bare : Bool} {value : Gen Term} (h : Guards c P (fun _ => Q) value) :
    Guarded c P Q (Emission.ofValue bare value) := .ofTest h h.map

/-- Statements in the place of a value get a function of their own, which no jump leaves. -/
theorem ofStmts {stmts : Bool → Gen (List Stmt)} (h : ∀ ret, Guards c P (fun _ => Q) (stmts ret)) :
    Guarded c P Q (Emission.ofStmts stmts) := by
  have hvalue : c.takesJump = false → Guards c P (fun _ => Q) (wrapped stmts) := fun hc =>
    ((h true).inFrame fun _ hs => hs.push_wrapper hc).bind fun _ hq => .pure hq
  exact ⟨h, hvalue, fun hc => (hvalue hc).map, nofun⟩

theorem imp (h : Guarded c P Q e) (hq : Q → Q') : Guarded c P Q' e where
  stmts ret := (h.stmts ret).imp fun _ => hq
  value hc := (h.value hc).imp fun _ => hq
  test hc := (h.test hc).imp fun _ => hq
  splat hc v t heq := ⟨((h.splat hc v t heq).1).imp fun _ => hq, ((h.splat hc v t heq).2).imp fun _ => hq⟩

theorem recv (h : Guarded c P Q e) (hc : c.takesJump = false) :
    Guards c P (fun _ => Q) e.recv := (h.value hc).map

theorem argument (h : Guarded c P Q e) (hc : c.takesJump = false) :
    Guards c P (fun _ => Q) (Emission.argument e) := by
  unfold Emission.argument
  split
  · rename_i v t hsplat
    exact (h.splat hc v t hsplat).1.map
  · exact (h.value hc).map

end Guarded

/-- That the expression `e` can be generated at `d` but for a reason in `P`, which makes what is
in `Q`. -/
def Sure (u : UnitInfo) (P : Refusal → Prop) (Q : Spot → Expr → Prop) (d : Spot) (e : Expr) : Prop :=
  Guarded d P (Q d e) (emit u e)

/-- Only `*e` is generated as all items of a list. -/
theorem isSplat_of_splat? {u : UnitInfo} {e : Expr} {r : Gen Term × Gen Term}
    (h : (emit u e).splat? = some r) : e.isSplat = true := by
  cases e with
  | splat e => rfl
  | call c =>
      rw [emit] at h
      unfold Emission.call at h
      split at h <;> cases h
  | _ => cases h

/-! ## Lists of parts -/

section Lists

variable {u : UnitInfo} {P : Refusal → Prop} {Q : Spot → Expr → Prop} {d : Spot}
variable {es : List Expr} {base : Base Expr}

theorem body_guards (h : AllIn (Sure u P Q d) es) (ret : Bool) :
    Guards d P (fun _ => AllIn (Q d) es) (body (emitAll u es) ret) := by
  induction es with
  | nil => exact .pure allIn_nil
  | cons e es ih =>
      obtain ⟨he, hes⟩ := allIn_cons.mp h
      have he := allIn_expr.mp he
      -- Only the last statement may be one that returns its value.
      cases es with
      | nil => exact (he.stmts ret).imp fun _ hq => by simpa using hq
      | cons e' es =>
          refine (he.stmts false).bind fun _ hq => (ih hes).bind fun _ hqs => .pure ?_
          exact allIn_cons.mpr ⟨allIn_expr.mpr hq, hqs⟩

variable (hd : d.takesJump = false)

include hd

theorem values_guards (h : AllIn (Sure u P Q d) es) :
    Guards d P (fun _ => AllIn (Q d) es) (values (emitAll u es)) := by
  induction es with
  | nil => exact .pure allIn_nil
  | cons e es ih =>
      obtain ⟨he, hes⟩ := allIn_cons.mp h
      refine ((allIn_expr.mp he).value hd).bind fun _ hq => (ih hes).bind fun _ hqs => .pure ?_
      exact allIn_cons.mpr ⟨allIn_expr.mpr hq, hqs⟩

theorem sequence_guards (h : AllIn (Sure u P Q d) es) :
    Guards d P (fun _ => AllIn (Q d) es) (sequence (emitAll u es)) := by
  match es with
  | [] => exact .pure allIn_nil
  | [e] => exact ((allIn_expr.mp (allIn_cons.mp h).1).value hd).imp fun _ hq => by simpa using hq
  | e :: e' :: es => exact (values_guards hd h).map

theorem argumentList_guards (h : AllIn (Sure u P Q d) es) :
    Guards d P (fun _ => AllIn (Q d) es) (argumentList (emitAll u es)) := by
  induction es with
  | nil => exact .pure allIn_nil
  | cons e es ih =>
      obtain ⟨he, hes⟩ := allIn_cons.mp h
      refine ((allIn_expr.mp he).argument hd).bind fun _ hq => (ih hes).bind fun _ hqs => .pure ?_
      exact allIn_cons.mpr ⟨allIn_expr.mpr hq, hqs⟩

theorem argumentArray_guards (h : AllIn (Sure u P Q d) es) :
    Guards d P (fun _ => AllIn (Q d) es) (argumentArray (emitAll u es)) := by
  refine (argumentList_guards hd h).bind fun l hq => ?_
  split <;> exact .pure hq

theorem optionalValue_guards {o : Option Expr} (h : AllIn (Sure u P Q d) o) :
    Guards d P (fun _ => AllIn (Q d) o) (optionalValue (emitOption u o)) := by
  cases o with
  | none => exact .pure allIn_none
  | some e =>
      exact ((allIn_expr.mp (allIn_some.mp h)).value hd).imp fun _ hq =>
        allIn_some.mpr (allIn_expr.mpr hq)

/-! ## Literals -/

theorem stringParts_guards (h : AllIn (Sure u P Q d) ps) :
    Guards d P (fun _ => AllIn (Q d) ps) (stringParts (emitParts u ps)) := by
  induction ps with
  | nil => exact .pure allIn_nil
  | cons part ps ih =>
      obtain ⟨hpart, hps⟩ := allIn_cons.mp h
      cases part with
      | lit t =>
          exact (ih hps).bind fun _ hqs => .pure (allIn_cons.mpr ⟨fun _ he => absurd he List.not_mem_nil, hqs⟩)
      | code es =>
          refine (sequence_guards hd hpart).bind fun _ hq => (ih hps).bind fun _ hqs => .pure ?_
          exact allIn_cons.mpr ⟨hq, hqs⟩

theorem nativePieces_guards (h : AllIn (Sure u P Q d) ps) :
    Guards d P (fun _ => AllIn (Q d) ps) (nativePieces (emitParts u ps)) := by
  induction ps with
  | nil => exact .pure allIn_nil
  | cons part ps ih =>
      obtain ⟨hpart, hps⟩ := allIn_cons.mp h
      cases part with
      | lit t =>
          exact (ih hps).bind fun _ hqs => .pure (allIn_cons.mpr ⟨fun _ he => absurd he List.not_mem_nil, hqs⟩)
      | code es =>
          refine (sequence_guards hd hpart).bind fun _ hq => (ih hps).bind fun _ hqs => .pure ?_
          exact allIn_cons.mpr ⟨hq, hqs⟩

theorem hashItems_guards {ps : List (Expr × Expr)} (h : AllIn (Sure u P Q d) ps) :
    Guards d P (fun _ => AllIn (Q d) ps) (hashItems (emitPairs u ps)) := by
  induction ps with
  | nil => exact .pure allIn_nil
  | cons pair ps ih =>
      obtain ⟨k, v⟩ := pair
      obtain ⟨hpair, hps⟩ := allIn_cons.mp h
      obtain ⟨hk, hv⟩ := allIn_pair.mp hpair
      refine ((allIn_expr.mp hk).value hd).bind fun _ hqk => ?_
      refine ((allIn_expr.mp hv).value hd).bind fun _ hqv => (ih hps).bind fun _ hqs => .pure ?_
      exact allIn_cons.mpr ⟨allIn_pair.mpr ⟨allIn_expr.mpr hqk, allIn_expr.mpr hqv⟩, hqs⟩

/-! ## Constants -/

theorem constantValue_guards (h : AllIn (Sure u P Q d) base) (hasEndData : Bool) (name : String) :
    Guards d P (fun _ => AllIn (Q d) base) (constantValue hasEndData (emitBase u base) name) := by
  cases base with
  | lexical =>
      rw [emitBase, constantValue]
      split <;> exact .pure fun _ he => absurd he List.not_mem_nil
  | top => exact .pure fun _ he => absurd he List.not_mem_nil
  | within e => exact ((allIn_expr.mp h).value hd).bind fun _ hq => .pure (allIn_expr.mpr hq)

theorem constantScope_guards (h : AllIn (Sure u P Q d) base) :
    Guards d P (fun _ => AllIn (Q d) base) (constantScope (emitBase u base)) := by
  cases base with
  | lexical | top => exact .pure fun _ he => absurd he List.not_mem_nil
  | within e => exact ((allIn_expr.mp h).recv hd).bind fun _ hq => .pure (allIn_expr.mpr hq)

theorem constantOwner_guards (h : AllIn (Sure u P Q d) base) :
    Guards d P (fun _ => AllIn (Q d) base) (constantOwner (emitBase u base)) := by
  cases base with
  | lexical | top => exact .pure fun _ he => absurd he List.not_mem_nil
  | within e => exact ((allIn_expr.mp h).value hd).imp fun _ hq => allIn_expr.mpr hq

/-! ## Targets -/

theorem indexArguments_guards (h : AllIn (Sure u P Q d) es)
    (hsplat : es.any Expr.isSplat = true → P .splatIndex) :
    Guards d P (fun _ => AllIn (Q d) es) (indexArguments (emitAll u es)) := by
  induction es with
  | nil => exact .pure allIn_nil
  | cons e es ih =>
      obtain ⟨he, hes⟩ := allIn_cons.mp h
      have ih := ih hes fun hany => hsplat (by simp [hany])
      rw [emitAll, indexArguments]
      split
      · rename_i hsome
        exact .refuse (hsplat (by simp [isSplat_of_splat? hsome]))
      · refine ((allIn_expr.mp he).value hd).bind fun _ hq => Guards.temp.bind fun _ _ => ?_
        exact ih.bind fun _ hqs => .pure (allIn_cons.mpr ⟨allIn_expr.mpr hq, hqs⟩)

/-- Whether a target is an index with a splat among its arguments. -/
def Target.splatsIndex : Target Expr → Bool
  | .index _ args => args.any Expr.isSplat
  | _ => false

/-- A place that is found can be read. -/
theorem place_guards (h : AllIn (Sure u P Q d) t) (hsplat : t.splatsIndex = true → P .splatIndex)
    (hasEndData : Bool) :
    Guards d P (fun pl => AllIn (Q d) t ∧ Guards d P (fun _ => True) pl.read)
      (place hasEndData (emitTarget u t)) := by
  have hread : ∀ term : Term, Guards d P (fun _ => True) (pure term) := fun _ => .pure trivial
  cases t with
  | lvar x =>
      refine (Guards.declareLocal x).bind fun _ _ => .pure ⟨?_, hread _⟩
      exact fun _ he => absurd he List.not_mem_nil
  | ivar x | gvar x => exact .pure ⟨fun _ he => absurd he List.not_mem_nil, hread _⟩
  | const base x =>
      refine (constantScope_guards hd h).bind fun _ hq => .pure ⟨hq, ?_⟩
      exact (constantValue_guards hd h hasEndData x).imp fun _ _ => trivial
  | attr e x =>
      refine ((allIn_expr.mp h).recv hd).bind fun _ hq => Guards.temp.bind fun _ _ => ?_
      exact .pure ⟨allIn_expr.mpr hq, hread _⟩
  | index e es =>
      have h : AllIn (Sure u P Q d) (e :: es) := h
      obtain ⟨he, hes⟩ := allIn_cons.mp h
      refine ((allIn_expr.mp he).recv hd).bind fun _ hq => Guards.temp.bind fun _ _ => ?_
      refine (indexArguments_guards hd hes hsplat).bind fun _ hqs => .pure ⟨?_, hread _⟩
      exact show AllIn (Q d) (e :: es) from allIn_cons.mpr ⟨allIn_expr.mpr hq, hqs⟩

end Lists

/-! ## Values -/

section Values

variable {u : UnitInfo} {P : Refusal → Prop} {Q : Spot → Expr → Prop} {c : Spot}

theorem int_guarded {t : String} (h : Numbers.integerText? t = none → P (.integerRange t)) :
    Guarded c P True (Emission.int t) := by
  refine .ofValue ?_
  split
  · exact .pure trivial
  · rename_i hnone
    exact .refuse (h hnone)

theorem interpolated_guarded (h : AllIn (Sure u P Q c.apart) ps) :
    Guarded c P (AllIn (Q c.apart) ps) (interpolated (emitParts u ps)) := by
  refine .ofValue ((stringParts_guards rfl h).apart.bind fun terms hq => ?_)
  split <;> exact .pure hq

theorem native_guarded (h : AllIn (Sure u P Q c.apart) ps) :
    Guarded c P (AllIn (Q c.apart) ps) (native (emitParts u ps)) := by
  have hpieces := (nativePieces_guards rfl h).apart
  exact ⟨fun _ => hpieces.map, fun _ => hpieces.map, fun _ => hpieces.map.map, nofun⟩

theorem array_guarded {es : List Expr} (h : AllIn (Sure u P Q c.apart) es) :
    Guarded c P (AllIn (Q c.apart) es) (Emission.array (emitAll u es)) :=
  .ofValue (argumentArray_guards rfl h).apart

theorem hash_guarded {ps : List (Expr × Expr)} (h : AllIn (Sure u P Q c.apart) ps) :
    Guarded c P (AllIn (Q c.apart) ps) (Emission.hash (emitPairs u ps)) :=
  .ofValue ((hashItems_guards rfl h).apart.bind fun _ hq => .pure hq)

theorem range_guarded {a b : Expr} (ha : AllIn (Sure u P Q c.apart) a)
    (hb : AllIn (Sure u P Q c.apart) b) (exclusive : Bool) :
    Guarded c P (AllIn (Q c.apart) a ∧ AllIn (Q c.apart) b)
      (Emission.range (emit u a) (emit u b) exclusive) := by
  refine .ofValue (Guards.apart ?_)
  refine ((allIn_expr.mp ha).value rfl).bind fun _ hqa => ?_
  refine ((allIn_expr.mp hb).value rfl).bind fun _ hqb => .pure ?_
  exact ⟨allIn_expr.mpr hqa, allIn_expr.mpr hqb⟩

theorem splat_guarded {e : Expr} (h : AllIn (Sure u P Q c.apart) e) :
    Guarded c P (AllIn (Q c.apart) e) (Emission.splat (emit u e)) := by
  have he := allIn_expr.mp h
  have hvalue := ((he.value rfl).imp fun _ hq => allIn_expr.mpr hq).apart
  have htest := ((he.test rfl).imp fun _ hq => allIn_expr.mpr hq).apart
  refine ⟨fun _ => hvalue.map.map, fun _ => hvalue.map, fun _ => hvalue.map.map, fun _ v t heq => ?_⟩
  obtain ⟨rfl, rfl⟩ := Prod.mk.inj (Option.some.inj heq)
  exact ⟨hvalue, htest⟩

theorem const_guarded {base : Base Expr} (h : AllIn (Sure u P Q c.apart) base) (hasEndData : Bool)
    (name : String) :
    Guarded c P (AllIn (Q c.apart) base) (Emission.const hasEndData (emitBase u base) name) :=
  .ofValue (constantValue_guards rfl h hasEndData name).apart

theorem assign_guarded {v : Expr} (ht : AllIn (Sure u P Q c.apart) t)
    (hv : AllIn (Sure u P Q c.apart) v) (hsplat : t.splatsIndex = true → P .splatIndex)
    (hasEndData : Bool) :
    Guarded c P (AllIn (Q c.apart) t ∧ AllIn (Q c.apart) v)
      (Emission.assign hasEndData (emitTarget u t) (emit u v)) := by
  refine .ofValue (Guards.apart ?_)
  refine (place_guards rfl ht hsplat hasEndData).bind fun _ hqt => ?_
  refine ((allIn_expr.mp hv).value rfl).bind fun _ hqv => .pure ?_
  exact ⟨hqt.1, allIn_expr.mpr hqv⟩

theorem opAssign_guarded {v : Expr} (ht : AllIn (Sure u P Q c.apart) t)
    (hv : AllIn (Sure u P Q c.apart) v) (hsplat : t.splatsIndex = true → P .splatIndex)
    (hasEndData : Bool) (op : String) :
    Guarded c P (AllIn (Q c.apart) t ∧ AllIn (Q c.apart) v)
      (Emission.opAssign hasEndData (emitTarget u t) op (emit u v)) := by
  refine .ofValue (Guards.apart ?_)
  refine (place_guards rfl ht hsplat hasEndData).bind fun pl hqt => hqt.2.bind fun _ _ => ?_
  refine ((allIn_expr.mp hv).value rfl).bind fun _ hqv => .pure ?_
  exact ⟨hqt.1, allIn_expr.mpr hqv⟩

theorem not_guarded {e : Expr} (h : AllIn (Sure u P Q c.apart) e) :
    Guarded c P (AllIn (Q c.apart) e) (Emission.not (emit u e)) := by
  have htest := (((allIn_expr.mp h).test rfl).imp fun _ hq => allIn_expr.mpr hq).apart
  exact .ofTest htest.map htest.map

section Operators

variable {l r : Expr} (hl : AllIn (Sure u P Q c.apart) l) (hr : AllIn (Sure u P Q c.apart) r)

include hl hr

/-- One computation after another, for the two sides of an operator. -/
theorem sides_guards {α β γ : Type} {m : Gen α} {k : Gen β} {f : α → β → Gen γ}
    (hm : Sure u P Q c.apart l → Guards c.apart P (fun _ => Q c.apart l) m)
    (hk : Sure u P Q c.apart r → Guards c.apart P (fun _ => Q c.apart r) k)
    (hf : ∀ a b, Guards c.apart P (fun _ => True) (f a b)) :
    Guards c P (fun _ => AllIn (Q c.apart) l ∧ AllIn (Q c.apart) r)
      (m >>= fun a => k >>= fun b => f a b) := by
  refine Guards.apart ((hm (allIn_expr.mp hl)).bind fun a hql => ?_)
  refine (hk (allIn_expr.mp hr)).bind fun b hqr => (hf a b).imp fun _ _ => ?_
  exact ⟨allIn_expr.mpr hql, allIn_expr.mpr hqr⟩

/-- The two operators differ in how they join the values of their sides. -/
theorem operator_guarded :
    Guarded c P (AllIn (Q c.apart) l ∧ AllIn (Q c.apart) r) (Emission.and (emit u l) (emit u r)) ∧
      Guarded c P (AllIn (Q c.apart) l ∧ AllIn (Q c.apart) r)
        (Emission.or (emit u l) (emit u r)) := by
  have hvalue : ∀ f : Term → Term → Nat → Term,
      Guards c P (fun _ => AllIn (Q c.apart) l ∧ AllIn (Q c.apart) r)
        (do let a ← (emit u l).value; let b ← (emit u r).value; let t ← Gen.temp; pure (f a b t)) :=
    fun _ => sides_guards hl hr (·.value rfl) (·.value rfl) fun _ _ => Guards.temp.map
  constructor
  all_goals
    refine ⟨fun ret => ?_, fun _ => hvalue _, fun _ => ?_, nofun⟩
    · cases ret with
      | true => exact (hvalue _).map
      | false => exact sides_guards hl hr (·.test rfl) (·.stmts false) fun _ _ => .pure trivial
    · exact sides_guards hl hr (·.test rfl) (·.test rfl) fun _ _ => .pure trivial

end Operators

end Values

/-! ## Control flow

The statements of branches stand where the whole stands: a jump that is at home there is at home in
them. If the whole is used as a value, it takes no jump, and neither do they.
-/

section Control

variable {u : UnitInfo} {P : Refusal → Prop} {Q : Spot → Expr → Prop} {c : Spot}
variable {o : Option (List Expr)} {es b : List Expr}

theorem ifElse_guarded {cond : Expr} {t e : List Expr} (hcond : AllIn (Sure u P Q c.apart) cond)
    (ht : AllIn (Sure u P Q c) t) (he : AllIn (Sure u P Q c) e) :
    Guarded c P (AllIn (Q c.apart) cond ∧ AllIn (Q c) t ∧ AllIn (Q c) e)
      (Emission.ifElse (emit u cond) (emitAll u t) (emitAll u e)) := by
  have htest : Guards c P (fun _ => AllIn (Q c.apart) cond) (emit u cond).test :=
    (((allIn_expr.mp hcond).test rfl).imp fun _ hq => allIn_expr.mpr hq).apart
  have hvalue : c.takesJump = false →
      Guards c P (fun _ => AllIn (Q c.apart) cond ∧ AllIn (Q c) t ∧ AllIn (Q c) e)
        (Emission.ifElse (emit u cond) (emitAll u t) (emitAll u e)).value := by
    intro hc
    refine htest.bind fun _ hqc => (sequence_guards hc ht).bind fun _ hqt => ?_
    exact (sequence_guards hc he).bind fun _ hqe => .pure ⟨hqc, hqt, hqe⟩
  refine ⟨fun ret => ?_, hvalue, fun hc => (hvalue hc).map, nofun⟩
  refine htest.bind fun _ hqc => (body_guards ht ret).bind fun _ hqt => ?_
  split
  · exact (body_guards he ret).bind fun _ hqe => .pure ⟨hqc, hqt, hqe⟩
  · -- Without a value to return, an empty `else` gets no code.
    rename_i hnone
    cases e with
    | nil => exact .pure ⟨hqc, hqt, allIn_nil⟩
    | cons e es => simp [emitAll] at hnone

theorem whenTest_guards {d : Spot} (hd : d.takesJump = false) {e : Expr} (h : Sure u P Q d e)
    (subject : Option Term) : Guards d P (fun _ => Q d e) (whenTest subject (emit u e)) := by
  unfold whenTest
  split
  · rename_i hsplat
    exact (h.splat hd _ _ hsplat).1.map
  · exact (h.recv hd).map
  · rename_i hsplat
    exact (h.splat hd _ _ hsplat).2
  · exact h.test hd

theorem whenTests_guards {d : Spot} (hd : d.takesJump = false) (h : AllIn (Sure u P Q d) es)
    (subject : Option Term) :
    Guards d P (fun _ => AllIn (Q d) es) (whenTests subject (emitAll u es)) := by
  induction es with
  | nil => exact .pure allIn_nil
  | cons e es ih =>
      obtain ⟨he, hes⟩ := allIn_cons.mp h
      refine (whenTest_guards hd (allIn_expr.mp he) subject).bind fun _ hq => ?_
      exact (ih hes).bind fun _ hqs => .pure (allIn_cons.mpr ⟨allIn_expr.mpr hq, hqs⟩)

theorem whenClauses_guards {ws : List (When Expr)}
    (hvalues : AllIn (Sure u P Q c.apart) (ws.map When.values))
    (hbodies : AllIn (Sure u P Q c) (ws.map When.body)) (subject : Option Term) (ret : Bool) :
    Guards c P (fun _ => AllIn (Q c.apart) (ws.map When.values) ∧ AllIn (Q c) (ws.map When.body))
      (whenClauses subject ret (emitWhens u ws)) := by
  induction ws with
  | nil => exact .pure ⟨allIn_nil, allIn_nil⟩
  | cons w ws ih =>
      obtain ⟨values, main⟩ := w
      obtain ⟨hv, hvs⟩ := allIn_cons.mp hvalues
      obtain ⟨hb, hbs⟩ := allIn_cons.mp hbodies
      refine (whenTests_guards rfl hv subject).apart.bind fun _ hqv => ?_
      refine (body_guards hb ret).bind fun _ hqb => (ih hvs hbs).bind fun _ hqs => .pure ?_
      exact ⟨allIn_cons.mpr ⟨hqv, hqs.1⟩, allIn_cons.mpr ⟨hqb, hqs.2⟩⟩

theorem elseClause_guards (h : AllIn (Sure u P Q c) o) (ret : Bool) :
    Guards c P (fun _ => AllIn (Q c) o) (elseClause (emitBody? u o) ret) := by
  cases o with
  | none => exact .pure allIn_none
  | some es =>
      exact (body_guards (allIn_some.mp h) ret).bind fun _ hq => .pure (allIn_some.mpr hq)

theorem caseOf_guarded {subject : Option Expr} {ws : List (When Expr)}
    (hs : AllIn (Sure u P Q c.apart) subject)
    (hvalues : AllIn (Sure u P Q c.apart) (ws.map When.values))
    (hbodies : AllIn (Sure u P Q c) (ws.map When.body)) (ho : AllIn (Sure u P Q c) o) :
    Guarded c P (AllIn (Q c.apart) subject ∧
        (AllIn (Q c.apart) (ws.map When.values) ∧ AllIn (Q c) (ws.map When.body)) ∧ AllIn (Q c) o)
      (caseOf (emitOption u subject) (emitWhens u ws) (emitBody? u o)) := by
  have hclauses := fun term ret => whenClauses_guards hvalues hbodies term ret
  refine .ofStmts fun ret => ?_
  cases subject with
  | none =>
      refine (hclauses none ret).bind fun _ hqw => ?_
      exact (elseClause_guards ho ret).bind fun _ hqo => .pure ⟨allIn_none, hqw, hqo⟩
  | some s =>
      refine ((allIn_expr.mp (allIn_some.mp hs)).value rfl).apart.bind fun _ hq => ?_
      refine Guards.temp.bind fun t _ => (hclauses _ ret).bind fun _ hqw => ?_
      refine (elseClause_guards ho ret).bind fun _ hqo => .pure ⟨?_, hqw, hqo⟩
      exact allIn_some.mpr (allIn_expr.mpr hq)

theorem loop_guarded {cond : Expr} (hcond : AllIn (Sure u P Q c.apart) cond)
    (hb : AllIn (Sure u P Q (c.within .loop true)) b) (isUntil bodyFirst : Bool) :
    Guarded c P (AllIn (Q c.apart) cond ∧ AllIn (Q (c.within .loop true)) b)
      (Emission.loop (emit u cond) (emitAll u b) isUntil bodyFirst) := by
  refine .ofStmts fun ret => ((allIn_expr.mp hcond).test rfl).apart.bind fun _ hqc => ?_
  exact (body_guards hb false).inLoop.bind fun _ hqb => .pure ⟨allIn_expr.mpr hqc, hqb⟩

/-! ### Handlers -/

theorem rescueClasses_guards {d : Spot} (hd : d.takesJump = false) (h : AllIn (Sure u P Q d) es) :
    Guards d P (fun _ => AllIn (Q d) es) (rescueClasses (emitAll u es)) := by
  rw [rescueClasses]
  split
  · rename_i hnone
    cases es with
    | nil => exact .pure allIn_nil
    | cons e es => simp [emitAll] at hnone
  · exact values_guards hd h

theorem rescueClauses_guards {rs : List (Rescue Expr)}
    (hclasses : AllIn (Sure u P Q c.apart) (rs.map Rescue.classes))
    (hbodies : AllIn (Sure u P Q c) (rs.map Rescue.body)) (ret : Bool) :
    Guards c P
      (fun _ => AllIn (Q c.apart) (rs.map Rescue.classes) ∧ AllIn (Q c) (rs.map Rescue.body))
      (rescueClauses ret (emitRescues u rs)) := by
  induction rs with
  | nil => exact .pure ⟨allIn_nil, allIn_nil⟩
  | cons r rs ih =>
      obtain ⟨classes, var, main⟩ := r
      obtain ⟨hc, hcs⟩ := allIn_cons.mp hclasses
      obtain ⟨hb, hbs⟩ := allIn_cons.mp hbodies
      have hrest : ∀ f : List Stmt → List (Term × List Stmt) → List (Term × List Stmt),
          AllIn (Q c.apart) classes → Guards c P (fun _ =>
            AllIn (Q c.apart) (classes :: rs.map Rescue.classes) ∧
              AllIn (Q c) (main :: rs.map Rescue.body)) (do
            let b ← body (emitAll u main) ret
            let rest ← rescueClauses ret (emitRescues u rs)
            pure (f b rest)) := by
        intro f hqc
        refine (body_guards hb ret).bind fun _ hqb => (ih hcs hbs).bind fun _ hqs => .pure ?_
        exact ⟨allIn_cons.mpr ⟨hqc, hqs.1⟩, allIn_cons.mpr ⟨hqb, hqs.2⟩⟩
      refine (rescueClasses_guards rfl hc).apart.bind fun _ hqc => ?_
      cases var with
      | none => exact .pure_bind (hrest _ hqc)
      | some x => exact (Guards.declareLocal x).bind fun _ _ => .pure_bind (hrest _ hqc)

theorem guardedBody_guards (hb : AllIn (Sure u P Q c) b) (ho : AllIn (Sure u P Q c) o)
    (ret : Bool) : Guards c P (fun _ => AllIn (Q c) b ∧ AllIn (Q c) o)
      (guardedBody (emitAll u b) (emitBody? u o) ret) := by
  cases o with
  | none => exact (body_guards hb ret).imp fun _ hq => ⟨hq, allIn_none⟩
  | some es =>
      refine (body_guards hb false).bind fun _ hqb => ?_
      refine (body_guards (allIn_some.mp ho) ret).bind fun _ hqo => .pure ?_
      exact ⟨hqb, allIn_some.mpr hqo⟩

theorem begin_guarded {rs : List (Rescue Expr)} {f : Option (List Expr)}
    (hb : AllIn (Sure u P Q c) b) (hclasses : AllIn (Sure u P Q c.apart) (rs.map Rescue.classes))
    (hbodies : AllIn (Sure u P Q c) (rs.map Rescue.body)) (ho : AllIn (Sure u P Q c) o)
    (hf : AllIn (Sure u P Q c) f) :
    Guarded c P (AllIn (Q c) b ∧
        (AllIn (Q c.apart) (rs.map Rescue.classes) ∧ AllIn (Q c) (rs.map Rescue.body)) ∧
        AllIn (Q c) o ∧ AllIn (Q c) f)
      (Emission.begin (emitAll u b) (emitRescues u rs) (emitBody? u o) (emitBody? u f)) := by
  -- Whatever comes before it, the `ensure` is generated last.
  have hfinal : ∀ (R : Prop) (b : List Stmt) (handler : Option (List Stmt)), R →
      Guards c P (fun _ => R ∧ AllIn (Q c) f)
        ((emitBody? u f).elim (pure [Stmt.guarded b handler none]) fun e => do
          let stmts ← body e false
          pure [Stmt.guarded b handler (some stmts)]) := by
    intro R b handler hR
    cases f with
    | none => exact .pure ⟨hR, allIn_none⟩
    | some es =>
        refine (body_guards (allIn_some.mp hf) false).bind fun _ hq => .pure ?_
        exact ⟨hR, allIn_some.mpr hq⟩
  refine .ofStmts fun ret => ?_
  have hmain := guardedBody_guards hb ho ret
  cases rs with
  | nil =>
      cases f with
      | none =>
          refine hmain.imp fun _ hq => ?_
          exact ⟨hq.1, ⟨allIn_nil, allIn_nil⟩, hq.2, allIn_none⟩
      | some es =>
          refine hmain.bind fun _ hq => .pure_bind ?_
          refine (hfinal _ _ none hq).imp fun _ hall => ?_
          exact ⟨hall.1.1, ⟨allIn_nil, allIn_nil⟩, hall.1.2, hall.2⟩
  | cons r rs =>
      refine hmain.bind fun stmts hq => ?_
      refine (rescueClauses_guards hclasses hbodies ret).bind fun clauses hqr => .pure_bind ?_
      have hall := hfinal _ stmts (some [.branches clauses (some [.rethrow])]) (And.intro hq hqr)
      cases f with
      | none | some _ => exact hall.imp fun _ hall => ⟨hall.1.1.1, hall.1.2, hall.1.1.2, hall.2⟩

theorem seq_guarded (h : AllIn (Sure u P Q c) es) :
    Guarded c P (AllIn (Q c) es) (seq (emitAll u es)) where
  stmts ret := body_guards h ret
  value hc := sequence_guards hc h
  test hc := (sequence_guards hc h).map
  splat _ := nofun

/-! ### Jumps -/

theorem ret_guarded {o : Option Expr} (h : AllIn (Sure u P Q c.apart) o) :
    Guarded c P (AllIn (Q c.apart) o) (Emission.ret (emitOption u o)) := by
  have hvalue : Guards c P (fun _ => AllIn (Q c.apart) o) (Emission.ret (emitOption u o)).value :=
    (optionalValue_guards rfl h).apart.bind fun _ hq =>
      Guards.markReturn.bind fun _ _ => .pure hq
  refine ⟨fun ret => ?_, fun _ => hvalue, fun _ => hvalue.map, nofun⟩
  refine (optionalValue_guards rfl h).apart.bind fun _ hq => Guards.get fun s _ => ?_
  split
  · exact Guards.markReturn.bind fun _ _ => .pure hq
  · exact .pure hq

/-- A jump at home in a loop or block is generated. In a loop its value is not. -/
theorem jump_guards {o : Option Expr} (h : AllIn (Sure u P Q c.apart) o) {isBreak : Bool}
    (hstray : c.takesJump = false → P (.strayJump (if isBreak then "break" else "next"))) :
    Guards c P (fun _ => c.inLoop = false → AllIn (Q c.apart) o)
      (jump isBreak (emitOption u o)) := by
  refine Guards.get fun s hs => ?_
  split
  · rename_i hloops
    refine .pure fun houtside => ?_
    have := hs.outsideLoops houtside
    omega
  · rename_i hloops
    split
    · rename_i hkind
      refine .refuse (hstray ?_)
      cases htakes : c.takesJump with
      | false => rfl
      | true =>
          rcases hs.jump htakes with hloop | hblock
          · omega
          · simp [hblock] at hkind
    · exact (optionalValue_guards rfl h).apart.bind fun _ hq => .pure fun _ => hq

theorem brk_guarded {o : Option Expr} (h : AllIn (Sure u P Q c.apart) o)
    (hstray : c.takesJump = false → P (.strayJump "break"))
    (hvalue : c.takesJump = false → P .jumpValue) :
    Guarded c P (c.inLoop = false → AllIn (Q c.apart) o) (brk (emitOption u o)) := by
  have hbrk : c.takesJump = false →
      Guards c P (fun _ => c.inLoop = false → AllIn (Q c.apart) o) (brk (emitOption u o)).value := by
    intro hc
    refine Guards.get fun s _ => ?_
    split
    · exact (optionalValue_guards rfl h).apart.bind fun _ hq => .pure fun _ => hq
    · exact .refuse (hvalue hc)
  exact ⟨fun _ => jump_guards h hstray, hbrk, fun hc => (hbrk hc).map, nofun⟩

theorem nxt_guarded {o : Option Expr} (h : AllIn (Sure u P Q c.apart) o)
    (hstray : c.takesJump = false → P (.strayJump "next"))
    (hvalue : c.takesJump = false → P .jumpValue) :
    Guarded c P (c.inLoop = false → AllIn (Q c.apart) o) (nxt (emitOption u o)) := by
  have hnxt : c.takesJump = false →
      Guards c P (fun _ => c.inLoop = false → AllIn (Q c.apart) o) (nxt (emitOption u o)).value :=
    fun hc => .refuse (hvalue hc)
  exact ⟨fun _ => jump_guards h hstray, hnxt, fun hc => (hnxt hc).map, nofun⟩

end Control

/-! ## Calls -/

/-- That the function of a block was generated, in a state at the spot `c`. -/
def Block.Runs (u : UnitInfo) (c : Spot) (b : Block Expr) : Prop :=
  ∃ s t s', c.Fits s ∧
    Emission.block ⟨emitParams u b.params, emitAll u b.body⟩ s = .ok (t, s')

/-- What was generated for the block that a call at `c` is given. An argument `&e` beside a block gets
no code. -/
structure GivesBlock (u : UnitInfo) (Q : Spot → Expr → Prop) (c : Spot) (b : Option (Block Expr))
    (arg : Option Expr) : Prop where
  params : AllIn (Q (c.within .block false)) (b.map Block.params)
  body : AllIn (Q (c.within .block true)) (b.map Block.body)
  runs : ∀ block, b = some block → block.Runs u c
  argument : b = none → AllIn (Q c.apart) arg

/-- What was generated for a call at `c`. -/
structure Called (u : UnitInfo) (Q : Spot → Expr → Prop) (c : Spot) (call : Call Expr) : Prop where
  recv : AllIn (Q c.apart) call.recv
  args : AllIn (Q c.apart) call.args
  given : GivesBlock u Q c call.block call.blockArg

section Calls

variable {u : UnitInfo} {P : Refusal → Prop} {Q : Spot → Expr → Prop} {c : Spot}
variable {call : Call Expr}

theorem defaults_guards {d : Spot} (hd : d.takesJump = false) {ps : List (String × Expr)}
    (h : AllIn (Sure u P Q d) ps) :
    Guards d P (fun _ => AllIn (Q d) ps) (defaults (emitNamed u ps)) := by
  induction ps with
  | nil => exact .pure allIn_nil
  | cons param ps ih =>
      obtain ⟨x, e⟩ := param
      obtain ⟨hparam, hps⟩ := allIn_cons.mp h
      have he : Sure u P Q d e := allIn_expr.mp (allIn_pair.mp hparam).2
      refine (he.value hd).bind fun _ hq => (ih hps).bind fun _ hqs => .pure ?_
      exact allIn_cons.mpr ⟨allIn_pair.mpr ⟨allIn_string, allIn_expr.mpr hq⟩, hqs⟩

theorem paramSetup_guards {d : Spot} (hd : d.takesJump = false) {params : Params Expr}
    (h : AllIn (Sure u P Q d) params) :
    Guards d P (fun _ => AllIn (Q d) params) (paramSetup (emitParams u params)) := by
  obtain ⟨required, optional, rest, block⟩ := params
  have hdefaults : AllIn (Sure u P Q d) optional := h
  refine (defaults_guards hd hdefaults).bind fun _ hq => ?_
  cases rest with
  | none => exact .pure hq
  | some x => exact (Guards.declareLocal x).bind fun _ _ => .pure hq

theorem blockBody_guards {params : Params Expr} {main : List Expr}
    (hparams : AllIn (Sure u P Q c.apart) params) (hmain : AllIn (Sure u P Q c) main) :
    Guards c P (fun _ => AllIn (Q c.apart) params ∧ AllIn (Q c) main)
      (blockBody ⟨emitParams u params, emitAll u main⟩) := by
  refine (paramSetup_guards rfl hparams).apart.bind fun _ hqp => ?_
  have hbody := body_guards hmain true
  obtain ⟨required, optional, rest, block⟩ := params
  cases block with
  | none => exact hbody.bind fun _ hqm => .pure ⟨hqp, hqm⟩
  | some x =>
      refine (Guards.declareLocal x).bind fun _ _ => ?_
      exact hbody.bind fun _ hqm => .pure ⟨hqp, hqm⟩

theorem block_guards {b : Block Expr} (hparams : AllIn (Sure u P Q (c.within .block false)) b.params)
    (hbody : AllIn (Sure u P Q (c.within .block true)) b.body) :
    Guards c P (fun _ => (AllIn (Q (c.within .block false)) b.params ∧
        AllIn (Q (c.within .block true)) b.body) ∧ b.Runs u c)
      (block ⟨emitParams u b.params, emitAll u b.body⟩) := by
  have hblock : Guards c P (fun _ => AllIn (Q (c.within .block false)) b.params ∧
      AllIn (Q (c.within .block true)) b.body) (block ⟨emitParams u b.params, emitAll u b.body⟩) :=
    ((blockBody_guards hparams hbody).inFrame fun s hs => hs.push_block _).bind fun _ hq => .pure hq
  refine hblock.ran.imp fun t hq => ⟨hq.1, ?_⟩
  obtain ⟨s, s', hs, hrun⟩ := hq.2
  exact ⟨s, t, s', hs, hrun⟩

theorem givenBlock_guards {b : Option (Block Expr)} {arg : Option Expr}
    (hparams : AllIn (Sure u P Q (c.within .block false)) (b.map Block.params))
    (hbody : AllIn (Sure u P Q (c.within .block true)) (b.map Block.body))
    (harg : AllIn (Sure u P Q c.apart) arg) :
    Guards c P (fun _ => GivesBlock u Q c b arg)
      (givenBlock (emitBlock? u b) (emitOption u arg)) := by
  cases b with
  | some b =>
      refine (block_guards (allIn_some.mp hparams) (allIn_some.mp hbody)).bind fun _ hq => .pure ?_
      refine ⟨allIn_some.mpr hq.1.1, allIn_some.mpr hq.1.2, ?_, nofun⟩
      rintro block ⟨⟩
      exact hq.2
  | none =>
      cases arg with
      | none => exact .pure ⟨allIn_none, allIn_none, nofun, fun _ => allIn_none⟩
      | some e =>
          have he : Sure u P Q c.apart e := allIn_expr.mp (allIn_some.mp harg)
          refine (he.value rfl).apart.bind fun _ hq => .pure ?_
          exact ⟨allIn_none, allIn_none, nofun, fun _ => allIn_some.mpr (allIn_expr.mpr hq)⟩

theorem send_guards {d : Spot} (hd : d.takesJump = false) {es : List Expr}
    (h : AllIn (Sure u P Q d) es) (recv : Term) (name : String) (b : Option Term) :
    Guards d P (fun _ => AllIn (Q d) es) (send recv name (emitAll u es) b) := by
  rw [send]
  split
  · exact (argumentArray_guards hd h).map
  · exact (values_guards hd h).map

theorem ordinaryCall_guards (hrecv : AllIn (Sure u P Q c.apart) call.recv)
    (hargs : AllIn (Sure u P Q c.apart) call.args)
    (hparams : AllIn (Sure u P Q (c.within .block false)) (call.block.map Block.params))
    (hbody : AllIn (Sure u P Q (c.within .block true)) (call.block.map Block.body))
    (harg : AllIn (Sure u P Q c.apart) call.blockArg) :
    Guards c P (fun _ => Called u Q c call) (ordinaryCall (emitCall u call)) := by
  obtain ⟨recv, name, args, block, arg⟩ := call
  have hrest : ∀ r, AllIn (Q c.apart) recv →
      Guards c P (fun _ => Called u Q c ⟨recv, name, args, block, arg⟩) (do
        let b ← givenBlock (emitBlock? u block) (emitOption u arg)
        send r name (emitAll u args) b) := by
    intro r hqr
    refine (givenBlock_guards hparams hbody harg).bind fun b hqb => ?_
    exact (send_guards rfl hargs r name b).apart.imp fun _ hqa => ⟨hqr, hqa, hqb⟩
  cases recv with
  | none => exact .pure_bind (hrest _ allIn_none)
  | some e =>
      have he : Sure u P Q c.apart e := allIn_expr.mp (allIn_some.mp hrecv)
      refine (he.recv rfl).apart.bind fun r hq => hrest r ?_
      exact allIn_some.mpr (allIn_expr.mpr hq)

theorem iter_guards : Guards c P (fun _ => True) iter :=
  Guards.useIter.bind fun _ _ => by split <;> exact .pure trivial

theorem blockGiven_guards : Guards c P (fun _ => True) blockGiven :=
  Guards.useIter.bind fun _ _ => by split <;> exact .pure trivial

theorem yield_guarded {es : List Expr} (h : AllIn (Sure u P Q c.apart) es) :
    Guarded c P (AllIn (Q c.apart) es) (Emission.yield (emitAll u es)) :=
  .ofValue (iter_guards.bind fun _ _ => (argumentArray_guards rfl h).apart.map)

theorem super_guarded {args : Option (List Expr)} {b : Option (Block Expr)} {arg : Option Expr}
    (hargs : AllIn (Sure u P Q c.apart) args)
    (hparams : AllIn (Sure u P Q (c.within .block false)) (b.map Block.params))
    (hbody : AllIn (Sure u P Q (c.within .block true)) (b.map Block.body))
    (harg : AllIn (Sure u P Q c.apart) arg) (hstray : c.inMethod = false → P .straySuper) :
    Guarded c P (AllIn (Q c.apart) args ∧ GivesBlock u Q c b arg)
      (super (emitBody? u args) (emitBlock? u b) (emitOption u arg)) := by
  refine .ofValue (Guards.get fun s hs => ?_)
  split
  · rename_i hnone
    refine .refuse (hstray ?_)
    cases hmethod : c.inMethod with
    | false => rfl
    | true =>
        have := hs.method hmethod
        rw [hnone] at this
        cases this
  · rename_i m _
    cases args
    case' none =>
      have hqa : AllIn (Q c.apart) (none : Option (List Expr)) := allIn_none
      refine .pure_bind ?_
    case' some es =>
      refine (argumentArray_guards rfl (allIn_some.mp hargs)).apart.bind fun _ hq => ?_
      have hqa : AllIn (Q c.apart) (some es) := allIn_some.mpr hq
    all_goals
      refine (givenBlock_guards hparams hbody harg).bind fun given hqb => ?_
      -- Without a block of its own, a `super` passes on the one that the method was given.
      cases given with
      | none => exact iter_guards.bind fun _ _ => .pure ⟨hqa, hqb⟩
      | some t => exact .pure_bind (.pure ⟨hqa, hqb⟩)

/-! ### Calls that mean something to the compiler -/

/-- A call with a meaning of its own has no parts but its arguments. -/
theorem Called.of_builtin {b : Builtin} (h : call.builtin? = some b)
    (hargs : AllIn (Q c.apart) call.args) : Called u Q c call := by
  obtain ⟨hrecv, hblock, harg, -⟩ := builtin_bare h
  obtain ⟨recv, name, args, block, arg⟩ := call
  obtain rfl : recv = none := hrecv
  obtain rfl : block = none := hblock
  obtain rfl : arg = none := harg
  exact ⟨allIn_none, hargs, allIn_none, allIn_none, nofun, fun _ => allIn_none⟩

theorem Called.of_quiet {b : Builtin} (h : call.builtin? = some b) (hquiet : b.declares = false) :
    Called u Q c call := by
  obtain ⟨-, -, -, harity⟩ := builtin_bare h
  have hzero : b.arity = 0 := by cases b <;> first | rfl | cases hquiet
  have hargs : call.args = [] := List.eq_nil_of_length_eq_zero (harity.symm.trans hzero)
  exact .of_builtin h (hargs ▸ allIn_nil)

theorem callValue_guards
    (hcall : Guards c P (fun _ => Called u Q c call) (ordinaryCall (emitCall u call)))
    (hliteral : ∀ a t, Expr.literal? a = some t → Q c.apart a) :
    Guards c P (fun _ => Called u Q c call)
      (callValue call.builtin? (call.declaration? u.file) (emitCall u call)) := by
  unfold callValue
  split
  · rename_i hb
    exact .pure (.of_quiet hb rfl)
  · rename_i hb
    exact blockGiven_guards.imp fun _ _ => .of_quiet hb rfl
  · refine Guards.get fun s _ => ?_
    split
    · exact hcall
    · rename_i d hd
      refine (Guards.record d).bind fun _ _ => ?_
      split
      · -- The declaration takes the place of the call, whose only argument is a literal.
        rename_i ht
        obtain ⟨b, hb, -⟩ := declaration_builtin hd
        obtain ⟨a, text, hargs, htext⟩ := declaration_literal hd ht
        refine .pure (.of_builtin hb ?_)
        rw [hargs]
        exact allIn_cons.mpr ⟨allIn_expr.mpr (hliteral a text htext), allIn_nil⟩
      · exact hcall

theorem call_guarded
    (hcall : Guards c P (fun _ => Called u Q c call) (ordinaryCall (emitCall u call)))
    (hliteral : ∀ a t, Expr.literal? a = some t → Q c.apart a) :
    Guarded c P (Called u Q c call)
      (Emission.call call.builtin? (call.declaration? u.file) (emitCall u call)) := by
  have hvalue := callValue_guards hcall hliteral
  unfold Emission.call
  split
  · rename_i hb
    exact ⟨fun _ => .pure (.of_quiet hb rfl), fun _ => hvalue, fun _ => hvalue.map, nofun⟩
  · rename_i hb
    have htest : Guards c P (fun _ => Called u Q c call) blockGiven :=
      blockGiven_guards.imp fun _ _ => .of_quiet hb rfl
    exact ⟨fun _ => hvalue.map, fun _ => hvalue, fun _ => htest, nofun⟩
  · exact .ofValue hvalue

end Calls

/-! ## Definitions -/

section Definitions

variable {u : UnitInfo} {P : Refusal → Prop} {Q : Spot → Expr → Prop} {c : Spot}
variable {main : List Expr} {params : Params Expr}

theorem methodBody_guards (hparams : AllIn (Sure u P Q c.apart) params)
    (hmain : AllIn (Sure u P Q c) main) :
    Guards c P (fun _ => AllIn (Q c.apart) params ∧ AllIn (Q c) main)
      (methodBody (emitParams u params) (emitAll u main)) := by
  refine (paramSetup_guards rfl hparams).apart.bind fun _ hqp => ?_
  have hbody := body_guards hmain true
  obtain ⟨required, optional, rest, block⟩ := params
  cases block with
  | none => exact .pure_bind (hbody.bind fun _ hqm => .pure ⟨hqp, hqm⟩)
  | some x =>
      refine (Guards.declareLocal x).bind fun _ _ => .pure_bind ?_
      exact hbody.bind fun _ hqm => .pure ⟨hqp, hqm⟩

theorem methodFunction_guards (hparams : AllIn (Sure u P Q (c.within .method false)) params)
    (hmain : AllIn (Sure u P Q (c.within .method true)) main) (name : String) :
    Guards c P (fun _ => AllIn (Q (c.within .method false)) params ∧
        AllIn (Q (c.within .method true)) main)
      (methodFunction name (emitParams u params) (emitAll u main)) :=
  ((methodBody_guards hparams hmain).inFrame fun s _ => Spot.fits_method s _ _ true c).bind
    fun _ hq => .pure hq

theorem define_guarded {target : Option Expr} (htarget : AllIn (Sure u P Q c.apart) target)
    (hparams : AllIn (Sure u P Q (c.within .method false)) params)
    (hmain : AllIn (Sure u P Q (c.within .method true)) main) (name : String) :
    Guarded c P (AllIn (Q c.apart) target ∧ AllIn (Q (c.within .method false)) params ∧
        AllIn (Q (c.within .method true)) main)
      (define (emitOption u target) name (emitParams u params) (emitAll u main)) := by
  have hmethod := methodFunction_guards hparams hmain name
  refine .ofValue ?_
  cases target with
  | none => exact hmethod.bind fun _ hq => .pure ⟨allIn_none, hq⟩
  | some e =>
      have he : Sure u P Q c.apart e := allIn_expr.mp (allIn_some.mp htarget)
      refine (he.value rfl).apart.bind fun _ hqe => hmethod.bind fun _ hq => .pure ⟨?_, hq⟩
      exact allIn_some.mpr (allIn_expr.mpr hqe)

/-- The body of a class or module takes no jump and has no method around it. -/
theorem classBody_guards (h : AllIn (Sure u P Q (c.within .classBody true)) main)
    (kind : FrameKind) : Guards c P (fun _ => AllIn (Q (c.within .classBody true)) main)
      (Gen.inFrame { kind } (body (emitAll u main) true)) :=
  (body_guards h true).inFrame fun s _ => Spot.fits_anywhere (s.push { kind }) rfl

theorem classDef_guarded {base : Base Expr} {superclass : Option Expr}
    (hbase : AllIn (Sure u P Q c.apart) base) (hsuper : AllIn (Sure u P Q c.apart) superclass)
    (hmain : AllIn (Sure u P Q (c.within .classBody true)) main) (name : String) :
    Guarded c P (AllIn (Q c.apart) base ∧ AllIn (Q c.apart) superclass ∧
        AllIn (Q (c.within .classBody true)) main)
      (classDef (emitBase u base) name (emitOption u superclass) (emitAll u main)) := by
  refine .ofValue ((constantOwner_guards rfl hbase).apart.bind fun _ hqb => ?_)
  have hclass := classBody_guards hmain .classBody
  cases superclass with
  | none => exact .pure_bind (hclass.bind fun _ hq => .pure ⟨hqb, allIn_none, hq⟩)
  | some e =>
      have he : Sure u P Q c.apart e := allIn_expr.mp (allIn_some.mp hsuper)
      refine (he.value rfl).apart.bind fun _ hqe => hclass.bind fun _ hq => .pure ⟨hqb, ?_, hq⟩
      exact allIn_some.mpr (allIn_expr.mpr hqe)

theorem moduleDef_guarded {base : Base Expr} (hbase : AllIn (Sure u P Q c.apart) base)
    (hmain : AllIn (Sure u P Q (c.within .classBody true)) main) (name : String) :
    Guarded c P (AllIn (Q c.apart) base ∧ AllIn (Q (c.within .classBody true)) main)
      (moduleDef (emitBase u base) name (emitAll u main)) := by
  refine .ofValue ((constantOwner_guards rfl hbase).apart.bind fun _ hqb => ?_)
  exact (classBody_guards hmain .moduleBody).bind fun _ hq => .pure ⟨hqb, hq⟩

theorem singletonDef_guarded {target : Expr} (htarget : AllIn (Sure u P Q c.apart) target)
    (hmain : AllIn (Sure u P Q (c.within .classBody true)) main) :
    Guarded c P (AllIn (Q c.apart) target ∧ AllIn (Q (c.within .classBody true)) main)
      (singletonDef (emit u target) (emitAll u main)) := by
  refine .ofValue (((allIn_expr.mp htarget).value rfl).apart.bind fun _ hqt => ?_)
  refine (classBody_guards hmain .singletonBody).bind fun _ hq => .pure ⟨?_, hq⟩
  exact allIn_expr.mpr hqt

end Definitions

end RubyJs
