import RubyJs.Proofs.Emission.Traces

set_option autoImplicit false

/-! # The traces of emissions

An emission can be generated in several ways, of which one is chosen by where the expression stands.
Whichever it is, it leaves the same behind (`Traced`). Here is what every construct leaves if its
parts do so; it is the list of its parts, apart from what the construct does itself.
-/

namespace RubyJs

open Script (Term Stmt)
open Emission

variable {e : Expr}

/-- That all ways to generate an expression leave the same deeds behind. -/
structure Traced (file : String) (p : Place) (deeds : List Deed) (e : Emission) : Prop where
  value : Traces file p deeds e.value
  test : Traces file p deeds e.test
  stmts : ∀ ret, Traces file p deeds (e.stmts ret)
  splat : ∀ v t, e.splat? = some (v, t) → Traces file p deeds v ∧ Traces file p deeds t

namespace Traced

variable {file : String} {p : Place} {deeds deeds' : List Deed}

theorem ofTest {bare : Bool} {value test : Gen Term} (hvalue : Traces file p deeds value)
    (htest : Traces file p deeds test) : Traced file p deeds (Emission.ofTest bare value test) where
  value := hvalue
  test := htest
  stmts _ := hvalue.map _
  splat _ _ h := nomatch h

theorem ofValue {bare : Bool} {value : Gen Term} (h : Traces file p deeds value) :
    Traced file p deeds (Emission.ofValue bare value) :=
  .ofTest h (h.map _)

/-- The function around statements that are used as a value leaves what they do. -/
theorem wrapped {stmts : Bool → Gen (List Stmt)} (h : Traces file p deeds (stmts true)) :
    Traces file p deeds (Emission.wrapped stmts) := by
  refine h.inWrapper.before fun r => ?_
  exact Traces.pure _

theorem ofStmts {stmts : Bool → Gen (List Stmt)} (h : ∀ ret, Traces file p deeds (stmts ret)) :
    Traced file p deeds (Emission.ofStmts stmts) where
  value := wrapped (h true)
  test := (wrapped (h true)).map _
  stmts := h
  splat _ _ h := nomatch h

theorem recv {e : Emission} (h : Traced file p deeds e) : Traces file p deeds e.recv :=
  h.value.map _

theorem argument {e : Emission} (h : Traced file p deeds e) :
    Traces file p deeds (Emission.argument e) := by
  rw [Emission.argument]
  split
  · rename_i v t hsplat
    exact (h.splat v t hsplat).1.map _
  · exact h.value.map _

end Traced

/-! ## Lists of parts -/

/-- That the expressions that `a` holds are generated with the traces they should have. -/
def Sound {α : Type} [Holder α] (u : UnitInfo) (p : Place) (a : α) : Prop :=
  ∀ e ∈ Holder.exprs a, Traced u.file p (Deed.all .here e) (emit u e)

section Lists

variable {u : UnitInfo} {p : Place}
variable {es : List Expr} {α : Type}

theorem Sound.expr (h : Sound u p e) : Traced u.file p (Deed.all .here e) (emit u e) :=
  h e (List.mem_singleton_self e)

theorem Sound.head [Holder α] {a : α} {as : List α} (h : Sound u p (a :: as)) : Sound u p a :=
  fun e he => h e (List.mem_append_left _ he)

theorem Sound.tail [Holder α] {a : α} {as : List α} (h : Sound u p (a :: as)) : Sound u p as :=
  fun e he => h e (List.mem_append_right _ he)

theorem Sound.some [Holder α] {a : α} (h : Sound u p (Option.some a)) : Sound u p a :=
  fun e he => h e (List.mem_append_left _ he)

@[simp] theorem Deed.all_nil [Holder α] (n : Nesting) :
    Deed.all n ([] : List α) = [] := rfl

@[simp] theorem Deed.all_cons [Holder α] (n : Nesting) (a : α) (as : List α) :
    Deed.all n (a :: as) = Deed.all n a ++ Deed.all n as := by
  simp [Deed.allAs, heldAs, Holder.exprs]

@[simp] theorem Deed.all_none [Holder α] (n : Nesting) :
    Deed.all n (none : Option α) = [] := rfl

@[simp] theorem Deed.all_some [Holder α] (n : Nesting) (a : α) :
    Deed.all n (Option.some a) = Deed.all n a := by
  simp [Deed.allAs, heldAs, Holder.exprs]

/-- What holds the expressions of two others is generated as they are. -/
theorem Deed.all_append {β γ : Type} [Holder α] [Holder β] [Holder γ] {a : α} {b : β} {c : γ}
    (h : Holder.exprs a = Holder.exprs b ++ Holder.exprs c) (n : Nesting) :
    Deed.all n a = Deed.all n b ++ Deed.all n c := by
  simp [Deed.allAs, heldAs, h]

theorem values_traces (h : Sound u p es) :
    Traces u.file p (Deed.all .here es) (values (emitAll u es)) := by
  induction es with
  | nil => exact Traces.pure _
  | cons e es ih =>
      rw [emitAll, values, Deed.all_cons]
      exact h.head.expr.value.bind fun _ => (ih h.tail).map _

theorem body_traces (h : Sound u p es) (ret : Bool) :
    Traces u.file p (Deed.all .here es) (body (emitAll u es) ret) := by
  induction es with
  | nil => exact Traces.pure _
  | cons e es ih =>
      -- Only the last statement may be one that returns its value.
      cases es with
      | nil =>
          rw [Deed.all_cons, Deed.all_nil, List.append_nil]
          exact h.head.expr.stmts ret
      | cons e' es =>
          rw [Deed.all_cons]
          exact (h.head.expr.stmts false).bind fun _ => (ih h.tail).map _

theorem sequence_traces (h : Sound u p es) :
    Traces u.file p (Deed.all .here es) (sequence (emitAll u es)) := by
  match es with
  | [] => exact Traces.pure _
  | [e] =>
      rw [Deed.all_cons, Deed.all_nil, List.append_nil]
      exact h.head.expr.value
  | e :: e' :: es => exact (values_traces h).map _

theorem argumentList_traces (h : Sound u p es) :
    Traces u.file p (Deed.all .here es) (argumentList (emitAll u es)) := by
  induction es with
  | nil => exact Traces.pure _
  | cons e es ih =>
      rw [emitAll, argumentList, Deed.all_cons]
      exact h.head.expr.argument.bind fun _ => (ih h.tail).map _

theorem argumentArray_traces (h : Sound u p es) :
    Traces u.file p (Deed.all .here es) (argumentArray (emitAll u es)) := by
  refine (argumentList_traces h).before fun l => ?_
  split <;> exact Traces.pure _

theorem optionalValue_traces {o : Option Expr} (h : Sound u p o) :
    Traces u.file p (Deed.all .here o) (optionalValue (emitOption u o)) := by
  cases o with
  | none => exact Traces.pure _
  | some e =>
      rw [Deed.all_some]
      exact h.some.expr.value

end Lists

/-! ## Literals -/

section Values

variable {u : UnitInfo} {p : Place}
variable {ps : List (Part Expr)} {t : Target Expr} {base : Base Expr}

theorem int_traced {file : String} (text : String) : Traced file p [] (Emission.int text) := by
  refine .ofValue ?_
  split
  · exact Traces.pure _
  · exact Traces.refuse _

theorem stringParts_traces (h : Sound u p ps) :
    Traces u.file p (Deed.all .here ps) (stringParts (emitParts u ps)) := by
  induction ps with
  | nil => exact Traces.pure _
  | cons part ps ih =>
      rw [Deed.all_cons]
      cases part with
      | lit t => exact (ih h.tail).map _
      | code es => exact (sequence_traces h.head).bind fun _ => (ih h.tail).map _

theorem nativePieces_traces (h : Sound u p ps) :
    Traces u.file p (Deed.all .here ps) (nativePieces (emitParts u ps)) := by
  induction ps with
  | nil => exact Traces.pure _
  | cons part ps ih =>
      rw [Deed.all_cons]
      cases part with
      | lit t => exact (ih h.tail).map _
      | code es => exact (sequence_traces h.head).bind fun _ => (ih h.tail).map _

theorem interpolated_traced (h : Sound u p ps) :
    Traced u.file p (Deed.all .here ps) (interpolated (emitParts u ps)) := by
  refine .ofValue ((stringParts_traces h).before fun terms => ?_)
  split <;> exact Traces.pure _

theorem native_traced (h : Sound u p ps) :
    Traced u.file p (Deed.all .here ps) (native (emitParts u ps)) where
  value := (nativePieces_traces h).map _
  test := ((nativePieces_traces h).map _).map _
  stmts _ := (nativePieces_traces h).map _
  splat _ _ h := nomatch h

theorem hashItems_traces {ps : List (Expr × Expr)} (h : Sound u p ps) :
    Traces u.file p (Deed.all .here ps) (hashItems (emitPairs u ps)) := by
  induction ps with
  | nil => exact Traces.pure _
  | cons pair ps ih =>
      obtain ⟨k, v⟩ := pair
      have hk : Sound u p k := fun e he => h.head e (List.mem_append_left _ he)
      have hv : Sound u p v := fun e he => h.head e (List.mem_append_right _ he)
      rw [Deed.all_cons, Deed.all_append (a := (k, v)) rfl, List.append_assoc]
      refine hk.expr.value.bind fun _ => hv.expr.value.bind fun _ => ?_
      exact (ih h.tail).before fun _ => Traces.pure _

theorem range_traced {a b : Expr} (ha : Sound u p a) (hb : Sound u p b) (exclusive : Bool) :
    Traced u.file p (Deed.all .here a ++ Deed.all .here b)
      (range (emit u a) (emit u b) exclusive) :=
  .ofValue (ha.expr.value.bind fun _ => hb.expr.value.map _)

theorem splat_traced (h : Sound u p e) :
    Traced u.file p (Deed.all .here e) (splat (emit u e)) where
  value := h.expr.value.map _
  test := (h.expr.value.map _).map _
  stmts _ := (h.expr.value.map _).map _
  splat v t heq := by
    obtain ⟨rfl, rfl⟩ := Prod.mk.inj (Option.some.inj heq)
    exact ⟨h.expr.value, h.expr.test⟩

/-! ## Constants and assignment -/

theorem constantValue_traces (h : Sound u p base) (hasEndData : Bool) (name : String) :
    Traces u.file p (Deed.all .here base) (constantValue hasEndData (emitBase u base) name) := by
  cases base with
  | lexical =>
      rw [emitBase, constantValue]
      split <;> exact Traces.pure _
  | top => exact Traces.pure _
  | within e => exact (h e (List.mem_singleton_self e)).value.map _

theorem constantScope_traces (h : Sound u p base) :
    Traces u.file p (Deed.all .here base) (constantScope (emitBase u base)) := by
  cases base with
  | lexical | top => exact Traces.pure _
  | within e => exact (h e (List.mem_singleton_self e)).recv.map _

theorem constantOwner_traces (h : Sound u p base) :
    Traces u.file p (Deed.all .here base) (constantOwner (emitBase u base)) := by
  cases base with
  | lexical | top => exact Traces.pure _
  | within e => exact (h e (List.mem_singleton_self e)).value

theorem indexArguments_traces {es : List Expr} (h : Sound u p es) :
    Traces u.file p (Deed.all .here es) (indexArguments (emitAll u es)) := by
  induction es with
  | nil => exact Traces.pure _
  | cons e es ih =>
      rw [emitAll, indexArguments, Deed.all_cons]
      split
      · exact Traces.refuse _
      · exact h.head.expr.value.bind fun _ => Traces.temp.after fun _ => (ih h.tail).map _

/-- What finding the place of a target leaves behind. -/
def Deed.ofTarget (t : Target Expr) : List Deed :=
  match t with
  | .lvar x => [.binds x]
  | t => Deed.all .here t

theorem place_traces (h : Sound u p t) (hasEndData : Bool) :
    Traces u.file p (Deed.ofTarget t) (place hasEndData (emitTarget u t)) := by
  cases t with
  | lvar x => exact (Traces.declareLocal x).map _
  | ivar x | gvar x => exact Traces.pure _
  | const base x => exact (constantScope_traces h).map _
  | attr e x =>
      refine (h e (List.mem_singleton_self e)).recv.before fun _ => ?_
      exact Traces.temp.map _
  | index e es =>
      have hes : Sound u p es := fun e he => h e (List.mem_cons_of_mem _ he)
      refine (h e List.mem_cons_self).recv.bind fun _ => Traces.temp.after fun _ => ?_
      exact (indexArguments_traces hes).map _

/-- What reading the place of a target generates again: only the scope of a constant. -/
def Deed.again (t : Target Expr) : List Deed :=
  match t with
  | .const base _ => Deed.all .here base
  | _ => []

theorem Deed.again_subset (t : Target Expr) : Deed.again t ⊆ Deed.ofTarget t := by
  cases t with
  | const base x => exact List.Subset.refl _
  | _ => exact List.nil_subset _

theorem place_read (h : Sound u p t) {hasEndData : Bool} {s s' : GenState} {pl : Emission.Place}
    (hrun : place hasEndData (emitTarget u t) s = .ok (pl, s')) :
    Traces u.file p (Deed.again t) pl.read := by
  cases t with
  | ivar x | gvar x =>
      obtain ⟨rfl, -⟩ := run_ok_inj hrun
      exact Traces.pure _
  | lvar x =>
      obtain ⟨_, _, -, hrun⟩ := run_bind_eq_ok hrun
      obtain ⟨rfl, -⟩ := run_ok_inj hrun
      exact Traces.pure _
  | const base x =>
      obtain ⟨_, _, -, hrun⟩ := run_bind_eq_ok hrun
      obtain ⟨rfl, -⟩ := run_ok_inj hrun
      exact constantValue_traces h hasEndData x
  | attr e x =>
      obtain ⟨_, _, -, hrun⟩ := run_bind_eq_ok hrun
      obtain ⟨_, _, -, hrun⟩ := run_bind_eq_ok hrun
      obtain ⟨rfl, -⟩ := run_ok_inj hrun
      exact Traces.pure _
  | index e es =>
      obtain ⟨_, _, -, hrun⟩ := run_bind_eq_ok hrun
      obtain ⟨_, _, -, hrun⟩ := run_bind_eq_ok hrun
      obtain ⟨_, _, -, hrun⟩ := run_bind_eq_ok hrun
      obtain ⟨rfl, -⟩ := run_ok_inj hrun
      exact Traces.pure _

theorem assign_traced {v : Expr} (ht : Sound u p t) (hv : Sound u p v) (hasEndData : Bool) :
    Traced u.file p (Deed.ofTarget t ++ Deed.all .here v)
      (assign hasEndData (emitTarget u t) (emit u v)) :=
  .ofValue ((place_traces ht hasEndData).bind fun _ => hv.expr.value.map _)

theorem opAssign_traced {v : Expr} (ht : Sound u p t) (hv : Sound u p v) (hasEndData : Bool)
    (op : String) :
    Traced u.file p (Deed.ofTarget t ++ Deed.all .here v)
      (opAssign hasEndData (emitTarget u t) op (emit u v)) := by
  -- The place is read once more, which leaves nothing that finding it has not left.
  have hagain : ∀ a, a ∈ Deed.ofTarget t ++ (Deed.again t ++ Deed.all .here v) ↔
      a ∈ Deed.ofTarget t ++ Deed.all .here v := by
    intro a
    have := @Deed.again_subset t a
    simp only [List.mem_append]
    grind
  refine .ofValue (Traces.congr ?_ hagain)
  refine (place_traces ht hasEndData).bindWith (fun _ _ _ => place_read ht) fun pl hread => ?_
  exact hread.bind fun _ => hv.expr.value.map _

/-! ## Logical operators -/

theorem not_traced (h : Sound u p e) :
    Traced u.file p (Deed.all .here e) (Emission.not (emit u e)) :=
  .ofTest (h.expr.test.map _) (h.expr.test.map _)

theorem onlyIf_traces (h : Sound u p e) (cond : Term) :
    Traces u.file p (Deed.all .here e) (onlyIf cond (emit u e)) :=
  (h.expr.stmts false).map _

/-- The two operators differ in how they join the values of their sides. -/
theorem operator_traced {l r : Expr} (hl : Sound u p l) (hr : Sound u p r) :
    Traced u.file p (Deed.all .here l ++ Deed.all .here r) (Emission.and (emit u l) (emit u r)) ∧
      Traced u.file p (Deed.all .here l ++ Deed.all .here r) (Emission.or (emit u l) (emit u r)) := by
  have hvalue : ∀ f : Term → Term → Nat → Term, Traces u.file p
      (Deed.all .here l ++ Deed.all .here r)
      (do let a ← (emit u l).value; let b ← (emit u r).value; let t ← Gen.temp; pure (f a b t)) :=
    fun _ => hl.expr.value.bind fun _ => hr.expr.value.before fun _ => Traces.temp.map _
  constructor
  all_goals
    refine ⟨hvalue _, hl.expr.test.bind fun _ => hr.expr.test.map _, fun ret => ?_, nofun⟩
    cases ret with
    | true => exact (hvalue _).map _
    | false => exact hl.expr.test.bind fun _ => onlyIf_traces hr _

end Values

/-! ## Control flow -/

section Control

variable {u : UnitInfo} {p : Place}
variable {o : Option (List Expr)} {es b : List Expr}

theorem ifElse_traced {c : Expr} {t e : List Expr} (hc : Sound u p c) (ht : Sound u p t)
    (he : Sound u p e) :
    Traced u.file p (Deed.all .here c ++ (Deed.all .here t ++ Deed.all .here e))
      (ifElse (emit u c) (emitAll u t) (emitAll u e)) := by
  have hvalue : Traces u.file p (Deed.all .here c ++ (Deed.all .here t ++ Deed.all .here e))
      (ifElse (emit u c) (emitAll u t) (emitAll u e)).value :=
    hc.expr.test.bind fun _ => (sequence_traces ht).bind fun _ => (sequence_traces he).map _
  refine ⟨hvalue, hvalue.map _, fun ret => ?_, nofun⟩
  refine hc.expr.test.bind fun _ => (body_traces ht ret).bind fun _ => ?_
  split
  · exact (body_traces he ret).map _
  · -- Without a value to return, an empty `else` gets no code.
    rename_i hnone
    cases e with
    | nil => exact Traces.pure _
    | cons e es => simp [emitAll] at hnone

theorem whenTest_traces (h : Sound u p e) (subject : Option Term) :
    Traces u.file p (Deed.all .here e) (whenTest subject (emit u e)) := by
  unfold whenTest
  split
  · rename_i hsplat
    exact (h.expr.splat _ _ hsplat).1.map _
  · exact h.expr.recv.map _
  · rename_i hsplat
    exact (h.expr.splat _ _ hsplat).2
  · exact h.expr.test

theorem whenTests_traces (h : Sound u p es) (subject : Option Term) :
    Traces u.file p (Deed.all .here es) (whenTests subject (emitAll u es)) := by
  induction es with
  | nil => exact Traces.pure _
  | cons e es ih =>
      rw [emitAll, whenTests, Deed.all_cons]
      exact (whenTest_traces h.head subject).bind fun _ => (ih h.tail).map _

theorem whenClauses_traces {ws : List (When Expr)} (h : Sound u p ws) (subject : Option Term)
    (ret : Bool) :
    Traces u.file p (Deed.all .here ws) (whenClauses subject ret (emitWhens u ws)) := by
  induction ws with
  | nil => exact Traces.pure _
  | cons w ws ih =>
      obtain ⟨vs, b⟩ := w
      have hvs : Sound u p vs := fun e he => h.head e (List.mem_append_left _ he)
      have hb : Sound u p b := fun e he => h.head e (List.mem_append_right _ he)
      rw [Deed.all_cons, Deed.all_append (b := vs) (c := b) rfl, List.append_assoc]
      refine (whenTests_traces hvs subject).bind fun _ => (body_traces hb ret).bind fun _ => ?_
      exact (ih h.tail).map _

theorem elseClause_traces (h : Sound u p o) (ret : Bool) :
    Traces u.file p (Deed.all .here o) (elseClause (emitBody? u o) ret) := by
  cases o with
  | none => exact Traces.pure _
  | some es =>
      rw [Deed.all_some]
      exact (body_traces h.some ret).map _

theorem caseOf_traced {subject : Option Expr} {ws : List (When Expr)} (hs : Sound u p subject)
    (hws : Sound u p ws) (ho : Sound u p o) :
    Traced u.file p (Deed.all .here subject ++ (Deed.all .here ws ++ Deed.all .here o))
      (caseOf (emitOption u subject) (emitWhens u ws) (emitBody? u o)) := by
  refine .ofStmts fun ret => ?_
  cases subject with
  | none =>
      refine (whenClauses_traces hws none ret).bind fun _ => ?_
      exact (elseClause_traces ho ret).map _
  | some s =>
      refine hs.some.expr.value.bind fun _ => Traces.temp.after fun t => ?_
      refine (whenClauses_traces hws _ ret).bind fun _ => ?_
      exact (elseClause_traces ho ret).map _

theorem loop_traced {c : Expr} (hc : Sound u p c) (hb : Sound u (p.enter .loop) b)
    (isUntil bodyFirst : Bool) :
    Traced u.file p (Deed.all .here c ++ Deed.all .loop b)
      (loop (emit u c) (emitAll u b) isUntil bodyFirst) := by
  refine .ofStmts fun ret => hc.expr.test.bind fun _ => ?_
  exact (body_traces hb false).inLoop.map _

theorem rescueClasses_traces (h : Sound u p es) :
    Traces u.file p (Deed.all .here es) (rescueClasses (emitAll u es)) := by
  rw [rescueClasses]
  split
  · rename_i hnone
    cases es with
    | nil => exact Traces.pure _
    | cons e es => simp [emitAll] at hnone
  · exact values_traces h

/-- What the clauses of a handler leave behind: their parts and their variables. -/
def Deed.ofRescues (rs : List (Rescue Expr)) : List Deed :=
  (rs.filterMap Rescue.var).map .binds ++ Deed.all .here rs

theorem rescueClauses_traces {rs : List (Rescue Expr)} (h : Sound u p rs) (ret : Bool) :
    Traces u.file p (Deed.ofRescues rs) (rescueClauses ret (emitRescues u rs)) := by
  induction rs with
  | nil => exact Traces.pure _
  | cons r rs ih =>
      obtain ⟨classes, var, b⟩ := r
      have hclasses : Sound u p classes := fun e he => h.head e (List.mem_append_left _ he)
      have hb : Sound u p b := fun e he => h.head e (List.mem_append_right _ he)
      have hparts : Deed.ofRescues (⟨classes, var, b⟩ :: rs) =
          (var.toList ++ rs.filterMap Rescue.var).map .binds ++
            ((Deed.all .here classes ++ Deed.all .here b) ++ Deed.all .here rs) := by
        rw [Deed.ofRescues, Deed.all_cons, Deed.all_append (b := classes) (c := b) rfl]
        cases var <;> rfl
      rw [hparts]
      cases var with
      | none =>
          refine Traces.congr ((rescueClasses_traces hclasses).bind fun _ =>
            (Traces.pure _).after fun _ => (body_traces hb ret).bind fun _ => (ih h.tail).map _) ?_
          simp [Deed.ofRescues, or_assoc, or_comm]
      | some x =>
          refine Traces.congr ((rescueClasses_traces hclasses).bind fun _ =>
            (Traces.declareLocal x).bind fun _ => (Traces.pure _).after fun _ =>
              (body_traces hb ret).bind fun _ => (ih h.tail).map _) ?_
          simp [Deed.ofRescues, or_assoc, or_left_comm, or_comm]

theorem guardedBody_traces (hb : Sound u p b) (ho : Sound u p o) (ret : Bool) :
    Traces u.file p (Deed.all .here b ++ Deed.all .here o)
      (guardedBody (emitAll u b) (emitBody? u o) ret) := by
  cases o with
  | none =>
      rw [Deed.all_none, List.append_nil]
      exact body_traces hb ret
  | some es =>
      rw [Deed.all_some]
      exact (body_traces hb false).bind fun _ => (body_traces ho.some ret).map _

theorem begin_traced {rs : List (Rescue Expr)} {f : Option (List Expr)} (hb : Sound u p b)
    (hrs : Sound u p rs) (ho : Sound u p o) (hf : Sound u p f) :
    Traced u.file p ((Deed.all .here b ++ Deed.all .here o) ++ (Deed.ofRescues rs ++
        Deed.all .here f))
      (Emission.begin (emitAll u b) (emitRescues u rs) (emitBody? u o) (emitBody? u f)) := by
  refine .ofStmts fun ret => ?_
  cases rs with
  | nil =>
      cases f with
      | none =>
          have hnone : Deed.ofRescues [] ++ Deed.all .here (none : Option (List Expr)) = [] := rfl
          rw [hnone, List.append_nil]
          exact guardedBody_traces hb ho ret
      | some es =>
          refine (guardedBody_traces hb ho ret).bind fun _ => (Traces.pure none).after fun _ => ?_
          rw [Deed.all_some]
          exact (body_traces hf.some false).before fun _ => (Traces.pure _).map _
  | cons r rs =>
      refine (guardedBody_traces hb ho ret).bind fun _ => ?_
      refine (rescueClauses_traces hrs ret).bind fun _ => (Traces.pure _).after fun _ => ?_
      cases f with
      | none => exact (Traces.pure _).after fun _ => Traces.pure _
      | some es =>
          rw [Deed.all_some]
          exact (body_traces hf.some false).before fun _ => (Traces.pure _).map _

theorem seq_traced (h : Sound u p es) :
    Traced u.file p (Deed.all .here es) (seq (emitAll u es)) where
  value := sequence_traces h
  test := (sequence_traces h).map _
  stmts ret := body_traces h ret
  splat := nofun

theorem ret_traced {o : Option Expr} (h : Sound u p o) :
    Traced u.file p (Deed.all .here o) (Emission.ret (emitOption u o)) := by
  have hvalue : Traces u.file p (Deed.all .here o) (Emission.ret (emitOption u o)).value :=
    (optionalValue_traces h).before fun _ => Traces.markReturn.map _
  refine ⟨hvalue, hvalue.map _, fun _ => ?_, nofun⟩
  refine (optionalValue_traces h).before fun _ => Traces.get fun s _ => ?_
  split
  · exact Traces.markReturn.map _
  · exact Traces.pure _

/-- In a block outside of loops the value of a jump gets code. -/
theorem Place.Fits.jump_isGenerated {s : GenState} (hp : p.Fits s) (hloops : s.frame.loops = 0)
    (hkind : s.frame.kind = .block) : Fate.outsideLoops.isGenerated p = true := by
  rw [Fate.isGenerated]
  cases hloop : p.inLoop with
  | false => rfl
  | true =>
      rcases hp.inLoop hloop with h | h
      · omega
      · exact absurd hkind h

theorem jump_traces {o : Option Expr} (h : Sound u p o) (isBreak : Bool) :
    Traces u.file p (Deed.allAs .outsideLoops .here o) (jump isBreak (emitOption u o)) := by
  refine Traces.get fun s hp => ?_
  split
  · -- In a loop the jump is one of the script, which has no value.
    rename_i hloops
    cases hloop : p.inLoop with
    | true => exact (Traces.pure _).ofDropped (by rw [Fate.isGenerated, hloop]; rfl)
    | false =>
        have := hp.outsideLoops hloop
        omega
  · rename_i hloops
    split
    · exact Traces.refuse _
    · rename_i hkind
      have hfate := hp.jump_isGenerated (by omega) (by simpa using hkind)
      exact ((optionalValue_traces h).map _).ofFate hfate

theorem brk_traced {o : Option Expr} (h : Sound u p o) :
    Traced u.file p (Deed.allAs .outsideLoops .here o) (brk (emitOption u o)) := by
  have hvalue :
      Traces u.file p (Deed.allAs .outsideLoops .here o) (brk (emitOption u o)).value := by
    refine Traces.get fun s hp => ?_
    split
    · rename_i hblock
      simp only [Bool.and_eq_true, beq_iff_eq] at hblock
      have hfate := hp.jump_isGenerated hblock.2 hblock.1
      exact ((optionalValue_traces h).map _).ofFate hfate
    · exact Traces.refuse _
  exact ⟨hvalue, hvalue.map _, fun _ => jump_traces h true, nofun⟩

theorem nxt_traced {o : Option Expr} (h : Sound u p o) :
    Traced u.file p (Deed.allAs .outsideLoops .here o) (nxt (emitOption u o)) := by
  have hvalue : Traces u.file p (Deed.allAs .outsideLoops .here o) (nxt (emitOption u o)).value :=
    Traces.refuse _
  exact ⟨hvalue, hvalue.map _, fun _ => jump_traces h false, nofun⟩

end Control

/-! ## Calls -/

section Calls

variable {u : UnitInfo} {p : Place}
variable {c : Call Expr} {params : Params Expr} {d : Declaration} {inClass : Bool}

theorem defaults_traces {ps : List (String × Expr)} (h : Sound u p ps) :
    Traces u.file p (Deed.all .here ps) (defaults (emitNamed u ps)) := by
  induction ps with
  | nil => exact Traces.pure _
  | cons param ps ih =>
      obtain ⟨x, e⟩ := param
      have he : Sound u p e := fun e' he' => h.head e' he'
      rw [Deed.all_cons]
      exact he.expr.value.bind fun _ => (ih h.tail).map _

theorem paramSetup_traces (h : Sound u p params) :
    Traces u.file p (Deed.all .here params ++ params.rest.toList.map .binds)
      (paramSetup (emitParams u params)) := by
  obtain ⟨required, optional, rest, block⟩ := params
  have hdefaults : Sound u p optional := h
  cases rest with
  | none => exact (defaults_traces hdefaults).bind fun _ => Traces.pure _
  | some x => exact (defaults_traces hdefaults).bind fun _ => (Traces.declareLocal x).map _

/-- The deeds of a function with parameters and a body. -/
def Deed.ofFunction (params : Params Expr) (main : List Expr) : List Deed :=
  (Deed.all .here params ++ params.rest.toList.map .binds) ++
    (params.block.toList.map .binds ++ Deed.all .here main)

/-- They are its parts, apart from variables for parameters that it does not take by position. -/
theorem Deed.mem_ofFunction {main : List Expr} {a : Deed} (h : a ∈ Deed.ofFunction params main) :
    a ∈ Deed.all .here (params, main) ∨ ∃ x, a = .binds x := by
  rw [Deed.all_append (b := params) (c := main) rfl]
  simp only [Deed.ofFunction, List.mem_append, List.mem_map] at h ⊢
  rcases h with (h | ⟨x, -, rfl⟩) | (⟨x, -, rfl⟩ | h)
  · exact Or.inl (Or.inl h)
  · exact Or.inr ⟨x, rfl⟩
  · exact Or.inr ⟨x, rfl⟩
  · exact Or.inl (Or.inr h)

theorem Deed.subset_ofFunction (params : Params Expr) (main : List Expr) :
    Deed.all .here (params, main) ⊆ Deed.ofFunction params main := by
  intro a h
  rw [Deed.all_append (b := params) (c := main) rfl] at h
  simp only [Deed.ofFunction, List.mem_append] at h ⊢
  exact h.imp Or.inl Or.inr

theorem blockBody_traces {main : List Expr} (hparams : Sound u p params) (hmain : Sound u p main) :
    Traces u.file p (Deed.ofFunction params main)
      (blockBody ⟨emitParams u params, emitAll u main⟩) := by
  refine (paramSetup_traces hparams).bind fun _ => ?_
  obtain ⟨required, optional, rest, block⟩ := params
  cases block with
  | none => exact (body_traces hmain true).map _
  | some x => exact (Traces.declareLocal x).bind fun _ => (body_traces hmain true).map _

theorem block_traces {b : Block Expr} (h : Sound u (p.enter .block) b) :
    Traces u.file p (Deed.all .block b) (block ⟨emitParams u b.params, emitAll u b.body⟩) := by
  have hparams : Sound u (p.enter .block) b.params := fun e he => h e (List.mem_append_left _ he)
  have hmain : Sound u (p.enter .block) b.body := fun e he => h e (List.mem_append_right _ he)
  refine Traces.before ?_ fun _ => Traces.pure _
  refine Traces.inFunctionOf ?_ rfl (blockBody_traces hparams hmain)
    (Deed.subset_ofFunction _ _) fun _ => Deed.mem_ofFunction
  rfl

/-- What a call leaves behind for the block it is given. -/
def Deed.ofBlock (b : Option (Block Expr)) (arg : Option Expr) : List Deed :=
  Deed.all .block b ++ (heldArgument b arg).map .part

theorem givenBlock_traces {b : Option (Block Expr)} {arg : Option Expr}
    (hb : Sound u (p.enter .block) b) (harg : Sound u p arg) :
    Traces u.file p (Deed.ofBlock b arg) (givenBlock (emitBlock? u b) (emitOption u arg)) := by
  cases b with
  | some b =>
      rw [Deed.ofBlock, Deed.all_some]
      have hdropped : Fate.isGenerated p .never = false := rfl
      exact (block_traces hb.some).bind fun _ => (Traces.pure _).ofDropped hdropped
  | none =>
      cases arg with
      | none => exact Traces.pure _
      | some e =>
          have hargument : Deed.ofBlock none (some e) = Deed.all .here e := Deed.all_some .here e
          rw [hargument]
          exact harg.some.expr.value.map _

theorem send_traces {es : List Expr} (h : Sound u p es) (recv : Term) (name : String)
    (b : Option Term) : Traces u.file p (Deed.all .here es) (send recv name (emitAll u es) b) := by
  rw [send]
  split
  · exact (argumentArray_traces h).map _
  · exact (values_traces h).map _

/-- The parts of a call, in the order in which they are generated. -/
def Deed.ofCall (c : Call Expr) : List Deed :=
  Deed.all .here c.recv ++ (Deed.ofBlock c.block c.blockArg ++ Deed.all .here c.args)

theorem ordinaryCall_traces (hrecv : Sound u p c.recv) (hblock : Sound u (p.enter .block) c.block)
    (harg : Sound u p c.blockArg) (hargs : Sound u p c.args) :
    Traces u.file p (Deed.ofCall c) (ordinaryCall (emitCall u c)) := by
  obtain ⟨recv, name, args, block, arg⟩ := c
  have hrest : ∀ r, Traces u.file p (Deed.ofBlock block arg ++ Deed.all .here args) (do
      let b ← givenBlock (emitBlock? u block) (emitOption u arg)
      send r name (emitAll u args) b) :=
    fun r => (givenBlock_traces hblock harg).bind fun b => send_traces hargs r name b
  cases recv with
  | none => exact (Traces.pure _).after hrest
  | some e =>
      rw [Deed.ofCall, Deed.all_some]
      exact hrecv.some.expr.recv.bind hrest

theorem iter_traces : Traces u.file p [] iter :=
  Traces.useIter.after fun _ => by split <;> exact Traces.pure _

theorem blockGiven_traces : Traces u.file p [] blockGiven :=
  Traces.useIter.after fun _ => by split <;> exact Traces.pure _

theorem yield_traced {es : List Expr} (h : Sound u p es) :
    Traced u.file p (Deed.all .here es) (Emission.yield (emitAll u es)) :=
  .ofValue (iter_traces.after fun _ => (argumentArray_traces h).map _)

theorem super_traced {args : Option (List Expr)} {b : Option (Block Expr)} {arg : Option Expr}
    (hargs : Sound u p args) (hb : Sound u (p.enter .block) b) (harg : Sound u p arg) :
    Traced u.file p (Deed.all .here args ++ Deed.ofBlock b arg)
      (super (emitBody? u args) (emitBlock? u b) (emitOption u arg)) := by
  refine .ofValue (Traces.get fun s _ => ?_)
  split
  · exact Traces.refuse _
  · rename_i m _
    cases args
    case' none => refine (Traces.pure _).after fun list => ?_
    case' some es =>
      rw [Deed.all_some]
      refine (argumentArray_traces hargs.some).bind fun list => ?_
    -- Without a block of its own, a `super` passes on the one that the method was given.
    all_goals
      refine (givenBlock_traces hb harg).before fun given => ?_
      cases given with
      | none => exact iter_traces.map _
      | some t => exact (Traces.pure _).map _

/-! ## Calls that mean something to the compiler -/

/-- A call with a meaning of its own has no receiver and no block. -/
theorem builtin_bare {b : Builtin} (h : c.builtin? = some b) :
    c.recv = none ∧ c.block = none ∧ c.blockArg = none ∧ b.arity = c.args.length := by
  rw [Call.builtin?] at h
  split at h
  · cases h
  · rename_i hnone
    obtain ⟨-, harity⟩ := Option.filter_eq_some_iff.mp h
    simp only [Bool.or_eq_true, not_or, Option.not_isSome_iff_eq_none] at hnone
    exact ⟨hnone.1.1, hnone.1.2, hnone.2, by simpa using harity⟩

/-- A literal declares and assigns nothing. -/
theorem literal_quiet {a : Expr} {t : String} (h : a.literal? = some t) :
    (∀ d, ¬ a.Declares u.file generated p d) ∧ ∀ x, ¬ a.Assigns generated p x := by
  refine ⟨fun d => ?_, fun x => ?_⟩
  · rw [Expr.declares_iff]
    cases a <;> simp_all [Expr.literal?, Expr.parts]
  · rw [Expr.assigns_iff]
    cases a <;> simp_all [Expr.literal?, Expr.parts, Expr.binds]

/-- A declaration that takes the place of its call names what it needs by a literal, the call's only
part. -/
theorem declaration_literal {file : String} (h : c.declaration? file inClass = some d) {t : Term}
    (ht : declarationTerm d = some t) : ∃ a text, c.args = [a] ∧ a.literal? = some text := by
  rw [Call.declaration?] at h
  split at h
  -- `require`, `require_relative` and `require_tree` are given the literal alone.
  iterate 3
    rename_i hargs
    obtain ⟨text, htext, -⟩ := Option.map_eq_some_iff.mp h
    exact ⟨_, text, hargs, htext⟩
  · split at h
    · obtain ⟨text, -, rfl⟩ := Option.map_eq_some_iff.mp h
      cases ht
    · cases h
  · cases h

theorem declaration_builtin {file : String} (h : c.declaration? file inClass = some d) :
    ∃ b, c.builtin? = some b ∧ b.declares = true := by
  rw [Call.declaration?] at h
  split at h
  all_goals first
    | cases h
    | exact ⟨_, by assumption, rfl⟩

/-- What a call declares at a place. -/
def Deed.ofDeclaration (file : String) (p : Place) (c : Call Expr) : List Deed :=
  (c.declaration? file p.inClass).toList.map .declares

/-- A call with a meaning of its own that declares nothing has no parts. -/
theorem Deed.ofCall_eq_nil {b : Builtin} (h : c.builtin? = some b) (hquiet : b.declares = false)
    (file : String) : Deed.ofDeclaration file p c ++ Deed.ofCall c = [] := by
  obtain ⟨hrecv, hblock, harg, harity⟩ := builtin_bare h
  have hzero : b.arity = 0 := by cases b <;> first | rfl | cases hquiet
  have hargs : c.args = [] := List.eq_nil_of_length_eq_zero (harity.symm.trans hzero)
  have hnone : c.declaration? file p.inClass = none := by
    cases hd : c.declaration? file p.inClass with
    | none => rfl
    | some d =>
        obtain ⟨b', hb', hdeclares⟩ := declaration_builtin hd
        rw [h] at hb'
        obtain rfl := Option.some.inj hb'
        rw [hquiet] at hdeclares
        cases hdeclares
  rw [Deed.ofDeclaration, hnone, Deed.ofCall, hrecv, hblock, harg, hargs]
  rfl

/-- The parts of a call that its declaration takes the place of leave nothing behind. -/
theorem Deed.ofCall_quiet (h : c.declaration? u.file inClass = some d) {t : Term}
    (ht : declarationTerm d = some t) {α : Type} {g : Gen α} (hg : Traces u.file p [] g) :
    Traces u.file p (Deed.ofCall c) g := by
  obtain ⟨b, hb, -⟩ := declaration_builtin h
  obtain ⟨hrecv, hblock, harg, -⟩ := builtin_bare hb
  obtain ⟨a, text, hargs, hliteral⟩ := declaration_literal h ht
  obtain ⟨hdeclares, hassigns⟩ := literal_quiet (u := u) (p := p) hliteral
  have hparts : Deed.ofCall c = Deed.all .here a := by
    rw [Deed.ofCall, hrecv, hblock, harg, hargs, Deed.all_cons]
    exact List.append_nil _
  rw [hparts]
  refine hg.equiv (fun d => ?_) fun x => ?_
  · rw [Deed.allAs_notes]
    have : ¬ ∃ e ∈ Holder.exprs a, e.Declares u.file generated (p.enter .here) d := by
      rintro ⟨e, he, hd⟩
      obtain rfl := List.mem_singleton.mp he
      exact hdeclares d hd
    simp [this]
  · rw [Deed.allAs_binds]
    have : ¬ ∃ e ∈ Holder.exprs a, e.Assigns generated (p.enter .here) x := by
      rintro ⟨e, he, hx⟩
      obtain rfl := List.mem_singleton.mp he
      exact hassigns x hx
    simp [this]

theorem callValue_traces (hcall : Traces u.file p (Deed.ofCall c) (ordinaryCall (emitCall u c))) :
    Traces u.file p (Deed.ofDeclaration u.file p c ++ Deed.ofCall c)
      (callValue c.builtin? (c.declaration? u.file) (emitCall u c)) := by
  unfold callValue
  split
  · rename_i hb
    rw [Deed.ofCall_eq_nil hb rfl]
    exact Traces.pure _
  · rename_i hb
    rw [Deed.ofCall_eq_nil hb rfl]
    exact blockGiven_traces
  · refine Traces.get fun s hp => ?_
    rw [hp.inClass, Deed.ofDeclaration]
    cases hd : c.declaration? u.file p.inClass with
    | none => exact hcall
    | some d =>
        refine (Traces.record d).bind fun _ => ?_
        split
        · -- The declaration takes the place of the call, whose only argument is a literal.
          rename_i ht
          exact Deed.ofCall_quiet hd ht (Traces.pure _)
        · exact hcall

theorem call_traced (hcall : Traces u.file p (Deed.ofCall c) (ordinaryCall (emitCall u c))) :
    Traced u.file p (Deed.ofDeclaration u.file p c ++ Deed.ofCall c)
      (call c.builtin? (c.declaration? u.file) (emitCall u c)) := by
  have hvalue := callValue_traces hcall
  unfold call
  split
  · rename_i hb
    refine ⟨hvalue, hvalue.map _, fun _ => ?_, nofun⟩
    rw [Deed.ofCall_eq_nil hb rfl]
    exact Traces.pure _
  · rename_i hb
    refine ⟨hvalue, ?_, fun _ => hvalue.map _, nofun⟩
    rw [Deed.ofCall_eq_nil hb rfl]
    exact blockGiven_traces
  · exact .ofValue hvalue

end Calls

/-! ## Definitions -/

section Definitions

variable {u : UnitInfo} {p : Place}
variable {main : List Expr} {params : Params Expr}

theorem methodBody_traces (hparams : Sound u p params) (hmain : Sound u p main) :
    Traces u.file p (Deed.ofFunction params main)
      (methodBody (emitParams u params) (emitAll u main)) := by
  refine (paramSetup_traces hparams).bind fun _ => ?_
  obtain ⟨required, optional, rest, block⟩ := params
  cases block with
  | none => exact (Traces.pure _).after fun _ => (body_traces hmain true).map _
  | some x =>
      refine (Traces.declareLocal x).bind fun _ => (Traces.pure _).after fun _ => ?_
      exact (body_traces hmain true).map _

theorem methodFunction_traces (hparams : Sound u (p.enter .method) params)
    (hmain : Sound u (p.enter .method) main) (name : String) :
    Traces u.file p (Deed.all .method (params, main))
      (methodFunction name (emitParams u params) (emitAll u main)) := by
  refine Traces.before ?_ fun _ => Traces.pure _
  refine Traces.inFunctionOf ?_ rfl (methodBody_traces hparams hmain)
    (Deed.subset_ofFunction _ _) fun _ => Deed.mem_ofFunction
  rfl

theorem define_traced {target : Option Expr} (htarget : Sound u p target)
    (hparams : Sound u (p.enter .method) params) (hmain : Sound u (p.enter .method) main)
    (name : String) :
    Traced u.file p (Deed.all .here target ++ Deed.all .method (params, main))
      (define (emitOption u target) name (emitParams u params) (emitAll u main)) := by
  have hmethod := methodFunction_traces hparams hmain name
  refine .ofValue ?_
  cases target with
  | none => exact hmethod.map _
  | some e =>
      rw [Deed.all_some]
      exact htarget.some.expr.value.bind fun _ => hmethod.map _

/-- The body of a class or module in its function. -/
theorem classBody_traces (h : Sound u (p.enter .classBody) main) {kind : FrameKind}
    (hkind : kind.isClassLike = true) :
    Traces u.file p (Deed.all .classBody main)
      (Gen.inFrame { kind } (body (emitAll u main) true)) := by
  refine Traces.inFunctionOf ?_ rfl (body_traces h true) (List.Subset.refl _) fun _ => Or.inl
  exact hkind

theorem classDef_traced {base : Base Expr} {superclass : Option Expr} (hbase : Sound u p base)
    (hsuper : Sound u p superclass) (hmain : Sound u (p.enter .classBody) main) (name : String) :
    Traced u.file p (Deed.all .here base ++ (Deed.all .here superclass ++ Deed.all .classBody main))
      (classDef (emitBase u base) name (emitOption u superclass) (emitAll u main)) := by
  refine .ofValue ((constantOwner_traces hbase).bind fun _ => ?_)
  have hclass := classBody_traces hmain (show FrameKind.classBody.isClassLike = true from rfl)
  cases superclass with
  | none => exact (Traces.pure _).after fun _ => hclass.before fun _ => Traces.pure _
  | some e =>
      rw [Deed.all_some]
      exact hsuper.some.expr.value.bind fun _ => hclass.before fun _ => Traces.pure _

theorem moduleDef_traced {base : Base Expr} (hbase : Sound u p base)
    (hmain : Sound u (p.enter .classBody) main) (name : String) :
    Traced u.file p (Deed.all .here base ++ Deed.all .classBody main)
      (moduleDef (emitBase u base) name (emitAll u main)) := by
  refine .ofValue ((constantOwner_traces hbase).bind fun _ => ?_)
  exact (classBody_traces hmain rfl).before fun _ => Traces.pure _

theorem singletonDef_traced {target : Expr} (htarget : Sound u p target)
    (hmain : Sound u (p.enter .classBody) main) :
    Traced u.file p (Deed.all .here target ++ Deed.all .classBody main)
      (singletonDef (emit u target) (emitAll u main)) := by
  refine .ofValue (htarget.expr.value.bind fun _ => ?_)
  exact (classBody_traces hmain rfl).before fun _ => Traces.pure _

end Definitions

end RubyJs
