import RubyJs.Proofs.Emission.Traces
import RubyJs.Proofs.Exceptions.Execution

set_option autoImplicit false

/-! # Emissions of handlers

The script of an expression ends as the expression does, with the same calls before. `Follows` says
this of an evaluation, and `Simulates` of an emission: its value and its statements, returning the
value or not, do what the expression means. The meaning is the one in which clauses that handle
errors cover the `else` body, since both stand in one `try`.
-/

namespace RubyJs.Exceptions

open Meaning Eval
open Script (Name Term Stmt Func)

variable {ν ε α β : Type} {w : World ν ε}

/-! ## Evaluations that do what is meant -/

/-- The variables that all code uses. -/
def known (w : World ν ε) : List (Name × Value ν ε) :=
  [(.own "Opal", .runtime), (.own "self", .top), (.own "$scope", .runtime),
    (.own "nil", .object w.nil)]

/-- That these variables have their values. -/
def Ready (w : World ν ε) (s : State ν ε) : Prop := ∀ p ∈ known w, s.vars p.1 = p.2

namespace Ready

variable {s t : State ν ε}

theorem opal (h : Ready w s) : s.vars (.own "Opal") = .runtime := h (.own "Opal", _) (by simp [known])

theorem self (h : Ready w s) : s.vars (.own "self") = .top := h (.own "self", _) (by simp [known])

theorem scope (h : Ready w s) : s.vars (.own "$scope") = .runtime :=
  h (.own "$scope", _) (by simp [known])

theorem nil (h : Ready w s) : s.vars (.own "nil") = .object w.nil :=
  h (.own "nil", _) (by simp [known])

/-- Other variables may change. -/
theorem set {x : Name} (h : Ready w s) (hx : ∀ p ∈ known w, p.1 ≠ x) (v : Value ν ε) :
    Ready w (s.set x v) := by
  intro p hp
  exact (if_neg (hx p hp)).trans (h p hp)

theorem set_user (h : Ready w s) (x : String) (v : Value ν ε) : Ready w (s.set (.user x) v) :=
  h.set (by simp [known]) v

theorem set_error (h : Ready w s) (v : Value ν ε) : Ready w (s.set errorName v) :=
  h.set (by simp [known, errorName]) v

theorem restore (ht : Ready w t) (hs : Ready w s) (names : List Name) :
    Ready w (t.restore s names) := by
  intro p hp
  show (if p.1 ∈ names then s.vars p.1 else t.vars p.1) = p.2
  split
  · exact hs p hp
  · exact ht p hp

end Ready

/-- That an evaluation ends as `m` does, with the calls of `m`. Its result is given by `f`. -/
def Follows (w : World ν ε) (x : Eval ν ε α) (m : Meaning ν ε) (f : ν → α) : Prop :=
  ∀ s, Ready w s →
    ∃ t, x s = some ((m s.calls).1.map f, t) ∧ t.calls = (m s.calls).2 ∧ Ready w t

namespace Follows

variable {m m' : Meaning ν ε} {x : Eval ν ε α} {f : ν → α}
variable {k : α → Eval ν ε β} {g : ν → β}

theorem pure (v : ν) : Follows w (Pure.pure (f v)) (constant v) f :=
  fun s hs => ⟨s, rfl, rfl, hs⟩

/-- One evaluation after the other. -/
theorem bind (hx : Follows w x m f) (hk : ∀ v, Follows w (k (f v)) m' g) :
    Follows w (x >>= k) (follow m m') g := by
  intro s hs
  obtain ⟨t, hrun, hcalls, ht⟩ := hx s hs
  cases hm : m s.calls with
  | mk r calls =>
  rw [hm] at hrun hcalls
  cases r with
  | error e =>
      refine ⟨t, ?_, ?_, ht⟩
      · rw [bind_of_error hrun, follow, hm]
        rfl
      · rw [hcalls, follow, hm]
  | ok v =>
      obtain ⟨u, hrun', hcalls', hu⟩ := hk v t ht
      have hcalled : t.calls = calls := hcalls
      rw [hcalled] at hrun' hcalls'
      refine ⟨u, ?_, ?_, hu⟩
      · rw [bind_of_ok hrun, hrun', follow, hm]
      · rw [hcalls', follow, hm]

/-- Work on the result alone. -/
theorem map (hx : Follows w x m f) (hk : ∀ v, k (f v) = Pure.pure (g v)) :
    Follows w (x >>= k) m g := by
  intro s hs
  obtain ⟨t, hrun, hcalls, ht⟩ := hx s hs
  refine ⟨t, ?_, hcalls, ht⟩
  cases hm : (m s.calls).1 with
  | error e =>
      rw [hm] at hrun
      exact bind_of_error hrun
  | ok v =>
      rw [hm] at hrun
      rw [bind_of_ok hrun, hk]
      rfl

/-- Work before it that makes no calls. -/
theorem after {v : ν} (hx : Follows w x (constant v) f) (hk : Follows w (k (f v)) m g) :
    Follows w (x >>= k) m g := by
  intro s hs
  obtain ⟨t, hrun, hcalls, ht⟩ := hx s hs
  obtain ⟨u, hrun', hcalls', hu⟩ := hk t ht
  have hcalled : t.calls = s.calls := hcalls
  rw [hcalled] at hrun' hcalls'
  exact ⟨u, (bind_of_ok hrun).trans hrun', hcalls', hu⟩

theorem within (hx : Follows w x m f) (names : List Name) : Follows w (within names x) m f := by
  intro s hs
  obtain ⟨t, hrun, hcalls, ht⟩ := hx s hs
  refine ⟨t.restore s names, ?_, hcalls, ht.restore hs names⟩
  rw [Eval.within, hrun]

/-- An error of the body goes to the handler, which finds it in its variable. -/
theorem catching {handler : Eval ν ε α} (hx : Follows w x m f)
    (hhandler : ∀ e, Follows w (store errorName (.error e) >>= fun _ => handler) m' f) :
    Follows w (catching x (some handler)) (rescued m m') f := by
  intro s hs
  obtain ⟨t, hrun, hcalls, ht⟩ := hx s hs
  cases hm : m s.calls with
  | mk r calls =>
  rw [hm] at hrun hcalls
  have hcalled : t.calls = calls := hcalls
  cases r with
  | ok v =>
      refine ⟨t, ?_, ?_, ht⟩
      · simp only [Exceptions.catching, hrun, rescued, hm]
        rfl
      · rw [hcalled, rescued, hm]
  | error e =>
      obtain ⟨u, hrun', hcalls', hu⟩ := (hhandler e).within [errorName] t ht
      rw [hcalled] at hrun' hcalls'
      refine ⟨u, ?_, ?_, hu⟩
      · simp only [Exceptions.catching, hrun, rescued, hm]
        exact hrun'
      · rw [hcalls', rescued, hm]

/-- The end of the body counts unless the finalizer throws. -/
theorem finalizing {x y : Eval ν ε (Completion ν ε)} {f : ν → Completion ν ε}
    (hx : Follows w x m f) (hy : Follows w y m' fun _ => .normal) :
    Follows w (finalizing x (some y)) (ensured m m') f := by
  intro s hs
  obtain ⟨t, hrun, hcalls, ht⟩ := hx s hs
  obtain ⟨u, hrun', hcalls', hu⟩ := hy t ht
  cases hm : m s.calls with
  | mk r calls =>
  rw [hm] at hrun hcalls
  have hcalled : t.calls = calls := hcalls
  rw [hcalled] at hrun' hcalls'
  cases hm' : m' calls with
  | mk r' calls' =>
  rw [hm'] at hrun' hcalls'
  cases r' with
  | ok v =>
      refine ⟨u, ?_, ?_, hu⟩
      · simp only [Exceptions.finalizing, hrun, hrun', ensured, hm, hm']
        rfl
      · simp only [hcalls', ensured, hm, hm']
  | error e =>
      refine ⟨u, ?_, ?_, hu⟩
      · simp only [Exceptions.finalizing, hrun, hrun', ensured, hm, hm']
        rfl
      · simp only [hcalls', ensured, hm, hm']

end Follows

/-! ## Terms and statements -/

/-- How statements end that return the value if `ret` says so. -/
def completion (ret : Bool) (v : ν) : Completion ν ε :=
  if ret then .returned (.object v) else .normal

section Statements

variable {m m' : Meaning ν ε} {ss ss' : List Stmt} {ret : Bool}

theorem follows_nil : Follows w (eval w .nil) (constant w.nil) .object := by
  intro s hs
  have hload : eval w .nil s = some (.ok (s.vars (.own "nil")), s) := rfl
  rw [hs.nil] at hload
  exact ⟨s, hload, rfl, hs⟩

theorem follows_call (name : String) :
    Follows w (eval w (.call (.method .self name) [])) (perform w name) .object := by
  intro s hs
  refine ⟨{ s with calls := s.calls ++ [name] }, ?_, rfl, hs⟩
  have hcallee : evalCallee w (.method .self name) s =
      some (.ok (callMethod w (s.vars (.own "self")) name), s) := rfl
  rw [hs.self] at hcallee
  rw [eval, bind_of_ok hcallee]
  rfl

/-- A term as a statement. -/
theorem Follows.valueStmt {t : Term} (h : Follows w (eval w t) m .object) :
    Follows w (exec w (Emission.valueStmt t ret)) m (completion ret) := by
  cases ret with
  | true => exact h.map fun _ => rfl
  | false => exact h.map fun _ => rfl

theorem execAll_singleton (st : Stmt) : execAll w [st] = exec w st := by
  funext s
  rw [execAll]
  cases h : exec w st s with
  | none => simp [bind, h]
  | some r =>
      obtain ⟨r, t⟩ := r
      cases r with
      | error e => exact bind_of_error h
      | ok c =>
          rw [bind_of_ok h]
          cases c with
          | normal => rfl
          | returned v => rfl

theorem Follows.single {st : Stmt} (h : Follows w (exec w st) m (completion ret)) :
    Follows w (execAll w [st]) m (completion ret) := by
  rwa [execAll_singleton]

theorem execAll_append (ss ss' : List Stmt) :
    execAll w (ss ++ ss') = execAll w ss >>= fun
      | .normal => execAll w ss'
      | .returned v => Pure.pure (.returned v) := by
  induction ss with
  | nil => rfl
  | cons st ss ih =>
      funext s
      rw [List.cons_append, execAll, execAll]
      cases h : exec w st s with
      | none => simp [bind, h]
      | some r =>
          obtain ⟨r, t⟩ := r
          cases r with
          | error e => rw [bind_of_error h, bind_of_error (bind_of_error h)]
          | ok c =>
              rw [bind_of_ok h]
              cases c with
              | normal =>
                  rw [ih]
                  simp [bind, h]
              | returned v => simp [bind, h, Pure.pure]

/-- Statements whose value is dropped, and others after them. -/
theorem Follows.append (h : Follows w (execAll w ss) m (completion false))
    (h' : Follows w (execAll w ss') m' (completion ret)) :
    Follows w (execAll w (ss ++ ss')) (follow m m') (completion ret) := by
  rw [execAll_append]
  exact h.bind fun _ => h'

/-- The statements of a body that is empty. -/
theorem follows_returnNil : Follows w (execAll w (Emission.returnNil ret)) (constant w.nil)
    (completion ret) := by
  cases ret with
  | true =>
      have hreturn : Follows w (exec w (Emission.valueStmt .nil true)) (constant w.nil)
          (completion true) := follows_nil.valueStmt
      exact hreturn.single
  | false => exact Follows.pure (f := completion false) w.nil

/-- The test of a clause without classes holds of every error. -/
theorem eval_rescue {s : State ν ε} (hs : Ready w s) {e : ε} (herror : s.vars errorName = .error e) :
    eval w (.runtime "rescue" [.own "$err",
      .array [.call (.member .scope "get") [.str "StandardError"]]]) s =
        some (.ok (.bool true), s) := by
  have hscope := hs.scope
  have hopal := hs.opal
  simp only [errorName] at herror
  simp [Term.runtime, Term.own, Term.opal, Term.scope, eval, evalAll, evalCallee, bind, Pure.pure,
    load, hscope, hopal, herror, callProperty, Value.isStandardError]

/-- The statement that binds the error in a clause. -/
theorem follows_bound (var : Option String) :
    Follows w (execAll w (var.toList.map fun x => .term (.assign (.user x) (.own "$err"))))
      (constant w.nil) fun _ => .normal := by
  intro s hs
  cases var with
  | none => exact ⟨s, rfl, rfl, hs⟩
  | some x => exact ⟨_, rfl, rfl, hs.set_user x (s.vars errorName)⟩

/-- An error goes to the first clause. -/
theorem follows_tests {test : Term} {bound : List Stmt} {rest : List (Term × List Stmt)}
    {otherwise : Eval ν ε (Completion ν ε)}
    (htest : test = .runtime "rescue" [.own "$err",
      .array [.call (.member .scope "get") [.str "StandardError"]]])
    (hbound : Follows w (execAll w bound) (constant w.nil) fun _ => .normal)
    (h : Follows w (execAll w ss) m (completion ret)) (e : ε) :
    Follows w (store errorName (.error e) >>= fun _ =>
      execTests w ((test, bound ++ ss) :: rest) otherwise) m (completion ret) := by
  intro s hs
  have hs' : Ready w (s.set errorName (.error e)) := hs.set_error _
  have herror : (s.set errorName (.error e)).vars errorName = .error e := by simp [State.set]
  have hstore : store errorName (.error e) s = some (.ok (), s.set errorName (.error e)) := rfl
  rw [bind_of_ok hstore, htest, execTests, bind_of_ok (eval_rescue hs' herror)]
  rw [execAll_append]
  exact (hbound.after h) _ hs'

end Statements

/-! ## Generation -/

/-- Which of the functions being generated have a handler for returns, from the inside out. -/
def returnHandlers (s : GenState) : List Bool := (s.frame :: s.outer).map (·.catchesReturn)

/-- That something of which `P` holds is generated in every state, with no new handler for
returns. -/
def Generates (g : Gen α) (P : α → Prop) : Prop :=
  ∀ s, ∃ a s', g s = .ok (a, s') ∧ returnHandlers s' = returnHandlers s ∧ P a

namespace Generates

variable {P : α → Prop} {Q : β → Prop}
variable {g : Gen α}

theorem pure {a : α} (h : P a) : Generates (Pure.pure a) P := fun s => ⟨a, s, rfl, rfl, h⟩

theorem bind {k : α → Gen β} (hg : Generates g P) (hk : ∀ a, P a → Generates (k a) Q) :
    Generates (g >>= k) Q := by
  intro s
  obtain ⟨a, s₁, hrun, hsame, ha⟩ := hg s
  obtain ⟨b, s₂, hrun', hsame', hb⟩ := hk a ha s₁
  refine ⟨b, s₂, ?_, hsame'.trans hsame, hb⟩
  show (g s >>= fun r => k r.1 r.2) = _
  rw [hrun]
  exact hrun'

theorem map {f : α → β} (hg : Generates g P) (hf : ∀ a, P a → Q (f a)) :
    Generates (g >>= fun a => Pure.pure (f a)) Q :=
  hg.bind fun a ha => pure (hf a ha)

theorem declareLocal (x : String) : Generates (Gen.declareLocal x) fun _ => True := by
  intro s
  refine ⟨(), s.declareLocal x, rfl, ?_, trivial⟩
  unfold GenState.declareLocal
  split
  · rfl
  · show List.map _ (_ :: _) = _
    rw [changeNearest_frames]
    refine map_changeFirst ?_ _
    exact fun _ => rfl

theorem inFrame (hg : Generates g P) (f : Frame) :
    Generates (Gen.inFrame f g) fun r => P r.1 ∧ r.2.catchesReturn = f.catchesReturn := by
  intro s
  obtain ⟨a, t, hrun, hsame, ha⟩ := hg { s with frame := f, outer := s.frame :: s.outer }
  obtain ⟨hframe, houter⟩ := List.cons.inj hsame
  simp only [Gen.inFrame, hrun]
  cases h : t.outer with
  | nil =>
      rw [h] at houter
      cases houter
  | cons o os =>
      rw [h] at houter
      exact ⟨_, _, rfl, houter, ha, hframe⟩

end Generates

/-- That an emission does what `m` means. -/
structure Simulates (w : World ν ε) (e : Emission) (m : Meaning ν ε) : Prop where
  value : Generates e.value fun t => Follows w (eval w t) m .object
  stmts ret : Generates (e.stmts ret) fun ss => Follows w (execAll w ss) m (completion ret)

section Emissions

variable {m : Meaning ν ε} {u : UnitInfo}

theorem simulates_ofValue {g : Gen Term} (bare : Bool)
    (h : Generates g fun t => Follows w (eval w t) m .object) :
    Simulates w (Emission.ofValue bare g) m where
  value := h
  stmts _ := h.map fun _ ht => ht.valueStmt.single

theorem follows_startLocals (xs : List String) :
    Follows w (startLocals xs) (constant w.nil) fun _ => () := by
  induction xs with
  | nil => exact Follows.pure (f := fun _ => ()) w.nil
  | cons x xs ih =>
      intro s hs
      obtain ⟨t, hrun, hcalls, ht⟩ := ih _ (hs.set_user x (s.vars (.own "nil")))
      exact ⟨t, hrun, hcalls, ht⟩

/-- A function around statements does what they do. -/
theorem follows_function {ss : List Stmt} (h : Follows w (execAll w ss) m (completion true))
    {f : Frame} (hcatches : f.catchesReturn = false) :
    Follows w (callFunc w (f.function [] [] ss)) m .object := by
  unfold Frame.function
  rw [hcatches, callFunc]
  refine Follows.within ?_ _
  refine (Follows.pure (f := fun _ => ()) w.nil).after ?_
  refine (follows_startLocals f.locals).after ?_
  refine (Follows.pure (f := fun _ => Completion.normal) w.nil).after ?_
  exact h.map fun _ => rfl

theorem simulates_ofStmts {stmts : Bool → Gen (List Stmt)}
    (h : ∀ ret, Generates (stmts ret) fun ss => Follows w (execAll w ss) m (completion ret)) :
    Simulates w (Emission.ofStmts stmts) m where
  value := by
    refine ((h true).inFrame { kind := .wrapper }).map fun r hr => ?_
    intro s hs
    exact follows_function hr.1 hr.2 s hs
  stmts := h

theorem simulates_call {name : String}
    (h : (Call.mk none name [] none none : Call Expr).builtin? = none) :
    Simulates w (emit u (.call ⟨none, name, [], none, none⟩)) (perform w name) := by
  have hdeclared : ∀ inClass,
      (Call.mk none name [] none none : Call Expr).declaration? u.file inClass = none := by
    intro inClass
    simp only [Call.declaration?, h]
  have hvalue : Generates (Emission.callValue none
      ((Call.mk none name [] none none : Call Expr).declaration? u.file)
      ⟨none, name, [], none, none⟩) fun t => Follows w (eval w t) (perform w name) .object := by
    intro s
    refine ⟨.call (.method .self name) [], s, ?_, rfl, follows_call name⟩
    simp only [Emission.callValue, hdeclared]
    rfl
  have hemit : emit u (.call ⟨none, name, [], none, none⟩) =
      Emission.ofValue true (Emission.callValue none
        ((Call.mk none name [] none none : Call Expr).declaration? u.file)
        ⟨none, name, [], none, none⟩) := by
    simp only [emit, h]
    rfl
  rw [hemit]
  exact simulates_ofValue true hvalue

/-- That the emission of an expression does what it means when `else` bodies are covered. -/
def Emitted (w : World ν ε) (u : UnitInfo) (e : Expr) : Prop :=
  Simulates w (emit u e) (evaluate w (coverElse e))

variable {b : List Expr} {rs : List (Rescue Expr)} {e f : Option (List Expr)}

theorem generates_body (h : ∀ a ∈ b, Emitted w u a) (ret : Bool) :
    Generates (Emission.body (emitAll u b) ret) fun ss =>
      Follows w (execAll w ss) (evaluateAll w (coverAll b)) (completion ret) := by
  induction b with
  | nil => exact Generates.pure follows_returnNil
  | cons a b ih =>
      obtain ⟨ha, hb⟩ := List.forall_mem_cons.mp h
      cases b with
      | nil => exact ha.stmts ret
      | cons a' b =>
          refine (ha.stmts false).bind fun first hfirst => ?_
          exact (ih hb).map fun rest hrest => hfirst.append hrest

/-- The body and the `else` body, one after the other. -/
theorem generates_guardedBody (hb : ∀ a ∈ b, Emitted w u a)
    (he : ∀ es ∈ e, ∀ a ∈ es, Emitted w u a) (ret : Bool) :
    Generates (Emission.guardedBody (emitAll u b) (emitBody? u e) ret) fun ss =>
      Follows w (execAll w ss)
        (guarded (evaluateAll w (coverAll b)) none (evaluateBody? w (coverBody? e)))
        (completion ret) := by
  cases e with
  | none => exact generates_body hb ret
  | some es =>
      refine (generates_body hb false).bind fun first hfirst => ?_
      exact (generates_body (he es rfl) ret).map fun second hsecond => hfirst.append hsecond

/-- The clauses send every error to the first of them. -/
theorem generates_rescueClauses (hclasses : ∀ r ∈ rs, r.classes = [])
    (hrs : ∀ r ∈ rs, ∀ a ∈ r.body, Emitted w u a) (ret : Bool) :
    Generates (Emission.rescueClauses ret (emitRescues u rs)) fun clauses =>
      ∀ m, evaluateRescues w (coverRescues rs) = some m → ∀ otherwise x,
        Follows w (store errorName (.error x) >>= fun _ => execTests w clauses otherwise) m
          (completion ret) := by
  induction rs with
  | nil => exact Generates.pure nofun
  | cons r rs ih =>
      obtain ⟨classes, var, body⟩ := r
      obtain ⟨hclass, hothers⟩ := List.forall_mem_cons.mp hclasses
      obtain ⟨hbody, hbodies⟩ := List.forall_mem_cons.mp hrs
      obtain rfl : classes = [] := hclass
      -- Once the variable is bound, only the body of the clause counts.
      have hrest : ∀ bound, (Follows w (execAll w bound) (constant w.nil) fun _ => .normal) →
          Generates (do
            let b ← Emission.body (emitAll u body) ret
            let rest ← Emission.rescueClauses ret (emitRescues u rs)
            Pure.pure ((Term.runtime "rescue" [.own "$err",
              .array [.call (.member .scope "get") [.str "StandardError"]]], bound ++ b) :: rest))
          fun clauses => ∀ m, some (evaluateAll w (coverAll body)) = some m → ∀ otherwise x,
            Follows w (store errorName (.error x) >>= fun _ => execTests w clauses otherwise) m
              (completion ret) := by
        intro bound hbound
        refine (generates_body hbody ret).bind fun b hb => ?_
        refine (ih hothers hbodies).map fun rest _ m hm otherwise x => ?_
        obtain rfl := Option.some.inj hm
        exact follows_tests rfl hbound hb x
      cases var with
      | none => exact hrest [] (follows_bound none)
      | some x => exact (Generates.declareLocal x).bind fun _ _ => hrest _ (follows_bound (some x))

/-- The statement of a `begin` whose body and handler are there already. -/
theorem generates_finalizer {m : Meaning ν ε} {ss : List Stmt} {handler : Option (List Stmt)}
    {ret : Bool} (hf : ∀ es ∈ f, ∀ a ∈ es, Emitted w u a)
    (h : Follows w (catching (execAll w ss) (execBlock? w handler)) m (completion ret)) :
    Generates (do
      let finalizer ← match emitBody? u f with
        | some es => do Pure.pure (some (← Emission.body es false))
        | none => Pure.pure none
      Pure.pure [Stmt.guarded ss handler finalizer]) fun ss =>
        Follows w (execAll w ss) (finished m (evaluateBody? w (coverBody? f)))
          (completion ret) := by
  cases f with
  | none => exact Generates.pure (Follows.single h)
  | some es =>
      refine (generates_body (hf es rfl) false).map fun last hlast => ?_
      exact Follows.single (h.finalizing hlast)

theorem simulates_begin (hb : ∀ a ∈ b, Emitted w u a) (hclasses : ∀ r ∈ rs, r.classes = [])
    (hrs : ∀ r ∈ rs, ∀ a ∈ r.body, Emitted w u a) (he : ∀ es ∈ e, ∀ a ∈ es, Emitted w u a)
    (hf : ∀ es ∈ f, ∀ a ∈ es, Emitted w u a) : Emitted w u (.begin b rs e f) := by
  rw [Emitted, emit, evaluate_coverElse_begin]
  refine simulates_ofStmts fun ret => ?_
  have hguarded := generates_guardedBody hb he ret
  cases rs with
  | nil =>
      cases f with
      | none => exact hguarded
      | some es => exact hguarded.bind fun ss hss => generates_finalizer hf hss
  | cons r rs =>
      refine hguarded.bind fun ss hss => ?_
      refine (generates_rescueClauses hclasses hrs ret).bind fun clauses hclauses => ?_
      refine generates_finalizer hf (hss.catching fun e => ?_)
      rw [execAll_singleton]
      exact hclauses _ rfl _ e

end Emissions

/-- The script of an expression does what it means when `else` bodies are covered. -/
theorem Handling.emitted (w : World ν ε) (u : UnitInfo) {e : Expr} (h : Handling e) :
    Emitted w u e := by
  induction h with
  | call h => exact simulates_call h
  | begin hb hclasses hrs he hf ihb ihrs ihe ihf => exact simulates_begin ihb hclasses ihrs ihe ihf

end RubyJs.Exceptions
