import RubyJs.Emission.Tree
import RubyJs.Proofs.Logic.Environments

set_option autoImplicit false

/-! # Emissions of logical expressions

An expression is generated in three ways: as a value, as a test and as statements. `Simulates` says
of an emission that all three are read as they are meant, and do what the expression means:

* the value is a term with the value of the expression,
* the test is a term that is `true` or `false`, as the value counts as true or not,
* the statements return the value, if it is wanted.

The variables of the program have the same values afterwards in each case. There is a lemma for each
construct, which puts the simulations of its parts together.
-/

namespace RubyJs.Logic

open JavaScript (Letters Env Printed PrintedStmts)
open Script (Term Stmt Name localName)

variable {L : Letters} {vars : List String} {n : Nat}
variable {x : String} {i : Nat}

/-! ## Generation -/

/-- That something is generated in every state, with no new handler for returns, and that `P` holds
of it when there are `n` temporaries, if these are all that were taken. -/
def Generates {α : Type} (m : Gen α) (P : Nat → α → Prop) : Prop :=
  ∀ s, ∃ a s', m s = .ok (a, s') ∧ s.frame.temps ≤ s'.frame.temps ∧
    s'.frame.catchesReturn = s.frame.catchesReturn ∧ ∀ n, s'.frame.temps ≤ n → P n a

namespace Generates

variable {α β : Type}
variable {P : Nat → α → Prop} {m : Gen α}

theorem pure {a : α} (h : ∀ n, P n a) : Generates (Pure.pure a) P :=
  fun s => ⟨a, s, rfl, Nat.le_refl _, rfl, fun n _ => h n⟩

theorem bind {f : α → Gen β} {Q : Nat → β → Prop} (hm : Generates m P)
    (hf : ∀ a, Generates (f a) fun n b => P n a → Q n b) : Generates (m >>= f) Q := by
  intro s
  obtain ⟨a, s₁, hrun, htemps, hcatches, ha⟩ := hm s
  obtain ⟨b, s₂, hrun', htemps', hcatches', hb⟩ := hf a s₁
  -- The temporaries that `f` takes are there for `a`, too.
  refine ⟨b, s₂, ?_, by omega, hcatches'.trans hcatches, fun n hn => hb n hn (ha n (by omega))⟩
  show (m s >>= fun r => f r.1 r.2) = _
  rw [hrun]
  exact hrun'

theorem map {f : α → β} {Q : Nat → β → Prop} (hm : Generates m P) (hf : ∀ n a, P n a → Q n (f a)) :
    Generates (m >>= fun a => Pure.pure (f a)) Q :=
  hm.bind fun a => pure fun n => hf n a

theorem mono {Q : Nat → α → Prop} (hm : Generates m P) (h : ∀ n a, P n a → Q n a) :
    Generates m Q := by
  intro s
  obtain ⟨a, s', hrun, htemps, hcatches, ha⟩ := hm s
  exact ⟨a, s', hrun, htemps, hcatches, fun n hn => h n a (ha n hn)⟩

theorem temp : Generates Gen.temp fun n t => ∃ i, t = i + 1 ∧ i < n := by
  intro s
  refine ⟨_, _, rfl, Nat.le_succ _, rfl, fun n hn => ⟨_, rfl, hn⟩⟩

theorem declareLocal (x : String) : Generates (Gen.declareLocal x) fun _ _ => True := by
  intro s
  have hframe : (s.declareLocal x).frame.temps = s.frame.temps ∧
      (s.declareLocal x).frame.catchesReturn = s.frame.catchesReturn := by
    unfold GenState.declareLocal GenState.changeNearest
    split
    · exact ⟨rfl, rfl⟩
    · split <;> exact ⟨rfl, rfl⟩
  exact ⟨(), s.declareLocal x, rfl, Nat.le_of_eq hframe.1.symm, hframe.2, fun _ _ => trivial⟩

end Generates

/-! ## Meaning of terms and statements -/

/-- That a term has the meaning `f`. -/
def Yields (vars : List String) (n : Nat) (e : JavaScript.Term) (f : Meaning) : Prop :=
  ∀ ρ σ, Ready vars n ρ σ →
    ∃ σ', e.eval σ = some ((f ρ).1.js, σ') ∧ Ready vars n (f ρ).2 σ'

/-- That statements have the meaning `f`, and return the value if `ret` says so. -/
def Runs (vars : List String) (n : Nat) (ss : List JavaScript.Stmt) (ret : Bool) (f : Meaning) :
    Prop :=
  ∀ ρ σ, Ready vars n ρ σ →
    ∃ σ', JavaScript.execAll ss σ = some (if ret then some (f ρ).1.js else none, σ') ∧
      Ready vars n (f ρ).2 σ'

namespace Yields

open Meaning

variable {e e' e'' : JavaScript.Term} {f g h : Meaning}

theorem nil : Yields vars n (.name "nil") (constant .nil) := by
  intro ρ σ hready
  refine ⟨σ, ?_, hready⟩
  rw [JavaScript.Term.eval, hready.nil]
  rfl

theorem bool (b : Bool) : Yields vars n (.bool b) (constant (.bool b)) := fun _ σ hready =>
  ⟨σ, rfl, hready⟩

theorem load (hx : x ∈ vars) : Yields vars n (.name (localName x)) (load x) := by
  intro ρ σ hready
  refine ⟨σ, ?_, hready⟩
  rw [JavaScript.Term.eval, hready.locals x hx]
  rfl

theorem store (hvars : ∀ x ∈ vars, IsLocal L x) (hx : x ∈ vars) (hf : Yields vars n e f) :
    Yields vars n (.assign (.name (localName x)) e) (store x f) := by
  intro ρ σ hready
  obtain ⟨σ', heval, hready'⟩ := hf ρ σ hready
  refine ⟨σ'.set (localName x) (f ρ).1.js, ?_, hready'.set_local hvars hx _⟩
  simp only [JavaScript.Term.eval, heval, Env.assign?, hready'.locals x hx, Option.bind_eq_bind,
    Option.bind_some]
  rfl

theorem truth (hf : Yields vars n e f) :
    Yields vars n (.apply (.member (.name "Opal") "truthy") e) (truth f) := by
  intro ρ σ hready
  obtain ⟨σ', heval, hready'⟩ := hf ρ σ hready
  refine ⟨σ', ?_, hready'⟩
  have hcall : JavaScript.Value.truthy.call? (some (f ρ).1.js) = some (f.truth ρ).1.js := by
    rw [JavaScript.Value.call?, Value.isTruthy_js]
    rfl
  simp [JavaScript.Term.eval, hready.runtime, heval, JavaScript.Value.property?, hcall]

/-- What a test gives. -/
theorem tests (hf : Yields vars n e f.truth) {ρ : Store} {σ : Env} (hready : Ready vars n ρ σ) :
    ∃ σ', e.eval σ = some (.bool (f ρ).1.isTruthy, σ') ∧ Ready vars n (f ρ).2 σ' := hf ρ σ hready

theorem negation (hf : Yields vars n e f.truth) : Yields vars n (.not e) (negation f) := by
  intro ρ σ hready
  obtain ⟨σ', heval, hready'⟩ := hf.tests hready
  refine ⟨σ', ?_, hready'⟩
  rw [JavaScript.Term.eval, heval]
  rfl

/-- The test of two values, of which the second may not be computed. -/
theorem both (hf : Yields vars n e f.truth) (hg : Yields vars n e' g.truth) :
    Yields vars n (.and e e') (both f g).truth := by
  intro ρ σ hready
  obtain ⟨σ', heval, hready'⟩ := hf.tests hready
  rw [JavaScript.Term.eval_and heval, Meaning.truth]
  cases htest : (f ρ).1.isTruthy with
  | true =>
      rw [both_true htest]
      exact hg _ _ hready'
  | false =>
      rw [both_false htest, htest]
      exact ⟨σ', rfl, hready'⟩

theorem either (hf : Yields vars n e f.truth) (hg : Yields vars n e' g.truth) :
    Yields vars n (.or e e') (either f g).truth := by
  intro ρ σ hready
  obtain ⟨σ', heval, hready'⟩ := hf.tests hready
  rw [JavaScript.Term.eval_or heval, Meaning.truth]
  cases htest : (f ρ).1.isTruthy with
  | true =>
      rw [either_true htest, htest]
      exact ⟨σ', rfl, hready'⟩
  | false =>
      rw [either_false htest]
      exact hg _ _ hready'

theorem branch (hf : Yields vars n e f.truth) (hg : Yields vars n e' g) (hh : Yields vars n e'' h) :
    Yields vars n (.choice e e' e'') (branch f g h) := by
  intro ρ σ hready
  obtain ⟨σ', heval, hready'⟩ := hf.tests hready
  rw [JavaScript.Term.eval_choice heval]
  cases htest : (f ρ).1.isTruthy with
  | true =>
      rw [branch_true htest]
      exact hg _ _ hready'
  | false =>
      rw [branch_false htest]
      exact hh _ _ hready'

/-- The test of a value that is kept in a temporary. Nothing is computed between the test and the
place where the temporary can be read again. -/
theorem keeps (hvars : ∀ x ∈ vars, IsLocal L x) (hi : i < n) (hf : Yields vars n e f) {ρ : Store}
    {σ : Env} (hready : Ready vars n ρ σ) :
    ∃ σ', (JavaScript.Term.apply (.member (.name "Opal") "truthy")
        (.assign (.name (Name.temp (i + 1)).text) e)).eval σ = some (.bool (f ρ).1.isTruthy, σ') ∧
      σ' (Name.temp (i + 1)).text = some (f ρ).1.js ∧ Ready vars n (f ρ).2 σ' := by
  obtain ⟨σ', heval, hready'⟩ := hf ρ σ hready
  obtain ⟨old, hold⟩ := hready'.temps i hi
  refine ⟨σ'.set (Name.temp (i + 1)).text (f ρ).1.js, ?_, ?_,
    hready'.set_dollar hvars (head?_temp _) _⟩
  · simp [JavaScript.Term.eval, hready.runtime, heval, JavaScript.Value.property?, Env.assign?,
      hold, JavaScript.Value.call?, Value.isTruthy_js]
  · rw [Env.set, if_pos rfl]

/-- The first value is read again if it decides. -/
theorem bothKept (hvars : ∀ x ∈ vars, IsLocal L x) (hi : i < n) (hf : Yields vars n e f)
    (hg : Yields vars n e' g) :
    Yields vars n (.choice (.apply (.member (.name "Opal") "truthy")
      (.assign (.name (Name.temp (i + 1)).text) e)) e' (.name (Name.temp (i + 1)).text))
      (Meaning.both f g) := by
  intro ρ σ hready
  obtain ⟨σ', heval, htemp, hready'⟩ := hf.keeps hvars hi hready
  rw [JavaScript.Term.eval_choice heval, JavaScript.Term.eval, htemp]
  cases htest : (f ρ).1.isTruthy with
  | true =>
      rw [both_true htest]
      exact hg _ _ hready'
  | false =>
      rw [both_false htest]
      exact ⟨σ', rfl, hready'⟩

theorem eitherKept (hvars : ∀ x ∈ vars, IsLocal L x) (hi : i < n) (hf : Yields vars n e f)
    (hg : Yields vars n e' g) :
    Yields vars n (.choice (.apply (.member (.name "Opal") "truthy")
      (.assign (.name (Name.temp (i + 1)).text) e)) (.name (Name.temp (i + 1)).text) e')
      (Meaning.either f g) := by
  intro ρ σ hready
  obtain ⟨σ', heval, htemp, hready'⟩ := hf.keeps hvars hi hready
  rw [JavaScript.Term.eval_choice heval, JavaScript.Term.eval, htemp]
  cases htest : (f ρ).1.isTruthy with
  | true =>
      rw [either_true htest]
      exact ⟨σ', rfl, hready'⟩
  | false =>
      rw [either_false htest]
      exact hg _ _ hready'

theorem follow (hf : Yields vars n e f) (hg : Yields vars n e' g) :
    Yields vars n (.comma e e') (follow f g) := by
  intro ρ σ hready
  obtain ⟨σ', heval, hready'⟩ := hf ρ σ hready
  obtain ⟨σ'', heval', hready''⟩ := hg _ _ hready'
  refine ⟨σ'', ?_, hready''⟩
  simp only [JavaScript.Term.eval, heval]
  exact heval'

end Yields

namespace Runs

open Meaning

variable {e : JavaScript.Term} {ss ss' : List JavaScript.Stmt} {wanted : Bool} {f g h : Meaning}

theorem nil : Runs vars n [] false (constant .nil) := fun _ σ hready => ⟨σ, rfl, hready⟩

theorem term (hf : Yields vars n e f) : Runs vars n [.term e] false f := by
  intro ρ σ hready
  obtain ⟨σ', heval, hready'⟩ := hf ρ σ hready
  refine ⟨σ', ?_, hready'⟩
  rw [JavaScript.execAll, JavaScript.Stmt.exec, heval]
  rfl

theorem ret (hf : Yields vars n e f) : Runs vars n [.ret e] true f := by
  intro ρ σ hready
  obtain ⟨σ', heval, hready'⟩ := hf ρ σ hready
  refine ⟨σ', ?_, hready'⟩
  rw [JavaScript.execAll, JavaScript.Stmt.exec, heval]
  rfl

theorem branch (hf : Yields vars n e f.truth) (hg : Runs vars n ss wanted g)
    (hh : Runs vars n ss' wanted h) : Runs vars n [.ifElse e ss ss'] wanted (branch f g h) := by
  intro ρ σ hready
  obtain ⟨σ', heval, hready'⟩ := hf.tests hready
  rw [JavaScript.execAll_singleton, JavaScript.exec_ifElse heval]
  cases htest : (f ρ).1.isTruthy with
  | true =>
      rw [branch_true htest]
      exact hg _ _ hready'
  | false =>
      rw [branch_false htest]
      exact hh _ _ hready'

theorem follow (hf : Runs vars n ss false f) (hg : Runs vars n ss' wanted g) :
    Runs vars n (ss ++ ss') wanted (follow f g) := by
  intro ρ σ hready
  obtain ⟨σ', hexec, hready'⟩ := hf ρ σ hready
  rw [JavaScript.execAll_append hexec]
  exact hg _ _ hready'

/-- Without the value, only what happens to the variables counts. -/
theorem congr (hf : Runs vars n ss false f) (hfg : ∀ ρ, (f ρ).2 = (g ρ).2) :
    Runs vars n ss false g := by
  intro ρ σ hready
  rw [← hfg]
  exact hf ρ σ hready

end Runs

/-! ## Terms and statements of scripts -/

/-- That a term of a script is read at level `k` and means `f`. -/
def Expresses (L : Letters) (vars : List String) (k : Nat) (f : Meaning) (n : Nat) (t : Term) :
    Prop :=
  ∃ e, Printed L k t e ∧ Yields vars n e f

/-- That statements of a script mean `f`. -/
def Performs (L : Letters) (vars : List String) (ret : Bool) (f : Meaning) (n : Nat)
    (stmts : List Stmt) : Prop :=
  ∃ ss, PrintedStmts L stmts ss ∧ Runs vars n ss ret f

namespace Expresses

open Meaning

variable {t u v : Term} {f g h : Meaning} {k : Nat}

theorem lift (ht : Expresses L vars k f n t) (k' : Nat) (hk : k ≤ k') (hk' : k' ≤ 5) :
    Expresses L vars k' f n t := by
  obtain ⟨e, hprinted, hyields⟩ := ht
  exact ⟨e, hprinted.lift hk hk', hyields⟩

/-- What stands in parentheses is read at every level. -/
theorem paren (ht : Expresses L vars k f n t) (hk : k ≤ 5) {k' : Nat} (hk' : k' ≤ 5) :
    Expresses L vars k' f n (.paren t) := by
  obtain ⟨e, hprinted, hyields⟩ := ht.lift 5 hk (Nat.le_refl 5)
  exact ⟨e, hprinted.paren.printed hk', hyields⟩

theorem nil : Expresses L vars 0 (constant .nil) n .nil := by
  have hbare : JavaScript.Bare L .nil (.name "nil") :=
    JavaScript.bare_name (JavaScript.isVariable_ascii (by decide) (by decide))
  exact ⟨_, hbare.printed (by decide), Yields.nil⟩

theorem bool (b : Bool) : Expresses L vars 0 (constant (.bool b)) n (.bool b) :=
  ⟨_, (JavaScript.bare_bool b).printed (by decide), Yields.bool b⟩

theorem load (hx : IsLocal L x) (hmem : x ∈ vars) : Expresses L vars 0 (load x) n (.user x) := by
  have hbare : JavaScript.Bare L (.user x) (.name (localName x)) :=
    JavaScript.bare_name hx.isVariable
  exact ⟨_, hbare.printed (by decide), Yields.load hmem⟩

theorem truthy (ht : Expresses L vars 4 f n t) : Expresses L vars 0 f.truth n (.truthy t) := by
  obtain ⟨e, hprinted, hyields⟩ := ht
  exact ⟨_, (JavaScript.bare_truthy hprinted).printed (by decide), hyields.truth⟩

theorem not (ht : Expresses L vars 1 f.truth n t) : Expresses L vars 1 (negation f) n (.not t) := by
  obtain ⟨e, hprinted, hyields⟩ := ht
  exact ⟨_, hprinted.not, hyields.negation⟩

theorem and (ht : Expresses L vars 1 f.truth n t) (hu : Expresses L vars 1 g.truth n u) :
    Expresses L vars 2 (both f g).truth n (.binary "&&" t u) := by
  obtain ⟨e, hprinted, hyields⟩ := ht
  obtain ⟨e', hprinted', hyields'⟩ := hu.lift 2 (by decide) (by decide)
  exact ⟨_, hprinted.and hprinted', hyields.both hyields'⟩

theorem or (ht : Expresses L vars 1 f.truth n t) (hu : Expresses L vars 1 g.truth n u) :
    Expresses L vars 3 (either f g).truth n (.binary "||" t u) := by
  obtain ⟨e, hprinted, hyields⟩ := ht.lift 2 (by decide) (by decide)
  obtain ⟨e', hprinted', hyields'⟩ := hu.lift 3 (by decide) (by decide)
  exact ⟨_, hprinted.or hprinted', hyields.either hyields'⟩

theorem choice (ht : Expresses L vars 1 f.truth n t) (hu : Expresses L vars 4 g n u)
    (hv : Expresses L vars 4 h n v) : Expresses L vars 4 (branch f g h) n (.choice t u v) := by
  obtain ⟨e, hprinted, hyields⟩ := ht.lift 3 (by decide) (by decide)
  obtain ⟨e', hprinted', hyields'⟩ := hu
  obtain ⟨e'', hprinted'', hyields''⟩ := hv
  exact ⟨_, hprinted.choice hprinted' hprinted'', hyields.branch hyields' hyields''⟩

theorem assign (hvars : ∀ x ∈ vars, IsLocal L x) (hx : x ∈ vars) (ht : Expresses L vars 4 f n t) :
    Expresses L vars 4 (store x f) n (.assign (.user x) t) := by
  obtain ⟨e, hprinted, hyields⟩ := ht
  have hbare : JavaScript.Bare L (.user x) (.name (localName x)) :=
    JavaScript.bare_name (hvars x hx).isVariable
  exact ⟨_, JavaScript.Printed.assign hbare rfl hprinted, hyields.store hvars hx⟩

/-- The test of a value that is kept in a temporary. -/
theorem printed_keeps {e : JavaScript.Term} (h : Printed L 4 t e) (i : Nat) :
    Printed L 3 (.truthy (.assign (.temp i) t))
      (.apply (.member (.name "Opal") "truthy") (.assign (.name (Name.temp i).text) e)) := by
  have htemp : JavaScript.Bare L (.temp i) (.name (Name.temp i).text) :=
    JavaScript.bare_name (isVariable_temp i)
  exact (JavaScript.bare_truthy (JavaScript.Printed.assign htemp rfl h)).printed (by decide)

theorem printed_temp (i : Nat) : Printed L 4 (.temp i) (.name (Name.temp i).text) :=
  (JavaScript.bare_name (isVariable_temp i)).printed (by decide)

theorem bothKept (hvars : ∀ x ∈ vars, IsLocal L x) (hi : i < n) (ht : Expresses L vars 4 f n t)
    (hu : Expresses L vars 4 g n u) :
    Expresses L vars 4 (both f g) n
      (.choice (.truthy (.assign (.temp (i + 1)) t)) u (.temp (i + 1))) := by
  obtain ⟨e, hprinted, hyields⟩ := ht
  obtain ⟨e', hprinted', hyields'⟩ := hu
  exact ⟨_, (printed_keeps hprinted (i + 1)).choice hprinted' (printed_temp (i + 1)),
    hyields.bothKept hvars hi hyields'⟩

theorem eitherKept (hvars : ∀ x ∈ vars, IsLocal L x) (hi : i < n) (ht : Expresses L vars 4 f n t)
    (hu : Expresses L vars 4 g n u) :
    Expresses L vars 4 (either f g) n
      (.choice (.truthy (.assign (.temp (i + 1)) t)) (.temp (i + 1)) u) := by
  obtain ⟨e, hprinted, hyields⟩ := ht
  obtain ⟨e', hprinted', hyields'⟩ := hu
  exact ⟨_, (printed_keeps hprinted (i + 1)).choice (printed_temp (i + 1)) hprinted',
    hyields.eitherKept hvars hi hyields'⟩

theorem comma_singleton (ht : Expresses L vars 4 f n t) : Expresses L vars 5 f n (.comma [t]) := by
  obtain ⟨e, hprinted, hyields⟩ := ht
  exact ⟨e, hprinted.comma_singleton, hyields⟩

theorem comma_cons {us : List Term} (ht : Expresses L vars 4 f n t)
    (hu : Expresses L vars 5 g n (.comma (u :: us))) :
    Expresses L vars 5 (follow f g) n (.comma (t :: u :: us)) := by
  obtain ⟨e, hprinted, hyields⟩ := ht
  obtain ⟨e', hprinted', hyields'⟩ := hu
  exact ⟨_, hprinted.comma_cons hprinted', hyields.follow hyields'⟩

end Expresses

namespace Performs

open Meaning

variable {t : Term} {a b : List Stmt} {f g h : Meaning} {ret : Bool}

theorem value (ht : Expresses L vars 4 f n t) (ret : Bool) :
    Performs L vars ret f n [Emission.valueStmt t ret] := by
  obtain ⟨e, hprinted, hyields⟩ := ht.lift 5 (by decide) (by decide)
  cases ret with
  | true => exact ⟨_, PrintedStmts.ret hprinted false, Runs.ret hyields⟩
  | false => exact ⟨_, PrintedStmts.term hprinted, Runs.term hyields⟩

theorem nil : Performs L vars false (constant .nil) n [] := ⟨[], PrintedStmts.nil, Runs.nil⟩

theorem append (ha : Performs L vars false f n a) (hb : Performs L vars ret g n b) :
    Performs L vars ret (follow f g) n (a ++ b) := by
  obtain ⟨ss, hprinted, hruns⟩ := ha
  obtain ⟨ss', hprinted', hruns'⟩ := hb
  exact ⟨_, hprinted.append hprinted', hruns.follow hruns'⟩

theorem ifElse (ht : Expresses L vars 1 f.truth n t) (ha : Performs L vars ret g n a)
    (hb : Performs L vars ret h n b) :
    Performs L vars ret (branch f g h) n [.branches [(t, a)] (some b)] := by
  obtain ⟨e, hprinted, hyields⟩ := ht.lift 5 (by decide) (by decide)
  obtain ⟨ss, hprinted', hruns⟩ := ha
  obtain ⟨ss', hprinted'', hruns'⟩ := hb
  exact ⟨_, PrintedStmts.ifElse hprinted hprinted' hprinted'', Runs.branch hyields hruns hruns'⟩

theorem onlyIf (ht : Expresses L vars 1 f.truth n t) (ha : Performs L vars false g n a) :
    Performs L vars false (branch f g (constant .nil)) n [.branches [(t, a)] none] := by
  obtain ⟨e, hprinted, hyields⟩ := ht.lift 5 (by decide) (by decide)
  obtain ⟨ss, hprinted', hruns⟩ := ha
  exact ⟨_, PrintedStmts.onlyIf hprinted hprinted', Runs.branch hyields hruns Runs.nil⟩

theorem congr (ha : Performs L vars false f n a) (hfg : ∀ ρ, (f ρ).2 = (g ρ).2) :
    Performs L vars false g n a := by
  obtain ⟨ss, hprinted, hruns⟩ := ha
  exact ⟨ss, hprinted, hruns.congr hfg⟩

end Performs

/-! ## Emissions -/

/-- That an emission means `f` in all three ways. -/
structure Simulates (L : Letters) (vars : List String) (e : Emission) (f : Meaning) : Prop where
  value : Generates e.value (Expresses L vars 4 f)
  test : Generates e.test (Expresses L vars 1 f.truth)
  stmts : ∀ ret, Generates (e.stmts ret) (Performs L vars ret f)

/-- That the emissions of a body mean `f` together. -/
structure SimulatesBody (L : Letters) (vars : List String) (es : List Emission) (f : Meaning) :
    Prop where
  value : Generates (Emission.sequence es) (Expresses L vars 4 f)
  stmts : ∀ ret, Generates (Emission.body es ret) (Performs L vars ret f)
  empty : es = [] → f = Meaning.constant .nil

namespace Simulates

open Meaning

variable {e e' c : Emission} {es es' : List Emission} {f g h : Meaning}

theorem ofValue {v : Gen Term} (hv : Generates v (Expresses L vars 4 f)) (bare : Bool) :
    Simulates L vars (Emission.ofValue bare v) f where
  value := hv
  test := hv.map fun _ _ ht => ht.truthy.lift 1 (by decide) (by decide)
  stmts ret := hv.map fun _ _ ht => Performs.value ht ret

theorem ofTest {v t : Gen Term} (hv : Generates v (Expresses L vars 4 f))
    (ht : Generates t (Expresses L vars 1 f.truth)) (bare : Bool) :
    Simulates L vars (Emission.ofTest bare v t) f where
  value := hv
  test := ht
  stmts := (ofValue hv bare).stmts

theorem nil : Simulates L vars Emission.nil (constant .nil) :=
  ofTest (.pure fun _ => Expresses.nil.lift 4 (by decide) (by decide))
    (.pure fun _ => (Expresses.bool false).lift 1 (by decide) (by decide)) true

theorem bool (b : Bool) : Simulates L vars (Emission.bool b) (constant (.bool b)) :=
  ofTest (.pure fun _ => (Expresses.bool b).lift 4 (by decide) (by decide))
    (.pure fun _ => (Expresses.bool b).lift 1 (by decide) (by decide)) true

theorem lvar (hx : IsLocal L x) (hmem : x ∈ vars) : Simulates L vars (Emission.lvar x) (load x) :=
  ofValue (.pure fun _ => (Expresses.load hx hmem).lift 4 (by decide) (by decide)) true

theorem assign (hvars : ∀ x ∈ vars, IsLocal L x) (hx : x ∈ vars) (he : Simulates L vars e f)
    (hasEndData : Bool) :
    Simulates L vars (Emission.assign hasEndData (.lvar x) e) (store x f) := by
  refine ofValue ?_ false
  refine ((Generates.declareLocal x).map (Q := fun _ p => p.setup = [] ∧
    p.write = Term.assign (.user x)) fun _ _ _ => ⟨rfl, rfl⟩).bind fun p => ?_
  refine he.value.map fun n t ht hp => ?_
  rw [Emission.withSetup, hp.1, hp.2]
  exact ht.assign hvars hx

theorem not (he : Simulates L vars e f) : Simulates L vars (Emission.not e) (negation f) :=
  ofTest (he.test.map fun _ _ ht => ht.not.lift 4 (by decide) (by decide))
    (he.test.map fun _ _ ht => ht.not) false

/-- Statements that run if a test holds. -/
theorem onlyIf {t : Term} (he : Simulates L vars e g) :
    Generates (Emission.onlyIf t e) fun n b => Expresses L vars 1 f.truth n t →
      Performs L vars false (branch f g (constant .nil)) n b :=
  (he.stmts false).map fun _ _ ha ht => Performs.onlyIf ht ha

theorem and (hvars : ∀ x ∈ vars, IsLocal L x) (he : Simulates L vars e f)
    (he' : Simulates L vars e' g) : Simulates L vars (Emission.and e e') (both f g) := by
  have hvalue : Generates (Emission.and e e').value (Expresses L vars 4 (both f g)) := by
    refine he.value.bind fun l => he'.value.bind fun r => Generates.temp.map ?_
    rintro n t ⟨i, rfl, hi⟩ hr hl
    exact (Expresses.bothKept hvars hi hl hr).paren (by decide) (by decide)
  refine ⟨hvalue, ?_, fun ret => ?_⟩
  · refine he.test.bind fun l => he'.test.map fun n r hr hl => ?_
    exact (hl.and hr).paren (by decide) (by decide)
  · cases ret with
    | true => exact hvalue.map fun _ _ ht => Performs.value ht true
    | false =>
        refine he.test.bind fun t => ?_
        refine (he'.onlyIf (f := f)).mono fun n b hb ht => (hb ht).congr fun ρ => ?_
        cases htest : (f ρ).1.isTruthy with
        | true => rw [branch_true htest, both_true htest]
        | false => rw [branch_false htest, both_false htest, constant]

theorem or (hvars : ∀ x ∈ vars, IsLocal L x) (he : Simulates L vars e f)
    (he' : Simulates L vars e' g) : Simulates L vars (Emission.or e e') (either f g) := by
  have hvalue : Generates (Emission.or e e').value (Expresses L vars 4 (either f g)) := by
    refine he.value.bind fun l => he'.value.bind fun r => Generates.temp.map ?_
    rintro n t ⟨i, rfl, hi⟩ hr hl
    exact (Expresses.eitherKept hvars hi hl hr).paren (by decide) (by decide)
  refine ⟨hvalue, ?_, fun ret => ?_⟩
  · refine he.test.bind fun l => he'.test.map fun n r hr hl => ?_
    exact (hl.or hr).paren (by decide) (by decide)
  · cases ret with
    | true => exact hvalue.map fun _ _ ht => Performs.value ht true
    | false =>
        refine he.test.bind fun t => ?_
        refine (he'.onlyIf (f := negation f)).mono fun n b hb ht => (hb ht.not).congr fun ρ => ?_
        cases htest : (f ρ).1.isTruthy with
        | true =>
            have hneg : (negation f ρ).1.isTruthy = false := by rw [isTruthy_negation, htest]; rfl
            rw [branch_false hneg, either_true htest, constant]
            rfl
        | false =>
            have hneg : (negation f ρ).1.isTruthy = true := by rw [isTruthy_negation, htest]; rfl
            rw [branch_true hneg, either_false htest]
            rfl

theorem ifElse (hc : Simulates L vars c f) (ht : SimulatesBody L vars es g)
    (he : SimulatesBody L vars es' h) :
    Simulates L vars (Emission.ifElse c es es') (branch f g h) := by
  have hvalue : Generates (Emission.ifElse c es es').value
      (Expresses L vars 4 (branch f g h)) := by
    refine hc.test.bind fun _ => ht.value.bind fun _ => he.value.map fun n _ he ht hc => ?_
    exact (hc.choice ht he).paren (by decide) (by decide)
  refine ⟨hvalue, (ofValue hvalue true).test, fun ret => ?_⟩
  refine hc.test.bind fun t => (ht.stmts ret).bind fun a => ?_
  split
  · exact (he.stmts ret).map fun n b hb ha ht => Performs.ifElse ht ha hb
  · -- Without an `else` there is nothing to do where the test fails.
    rename_i hnone
    simp only [Bool.or_eq_true, not_or, Bool.not_eq_true, Bool.not_eq_false',
      List.isEmpty_iff] at hnone
    obtain ⟨rfl, hempty⟩ := hnone
    rw [he.empty hempty]
    exact .pure fun n ha ht => Performs.onlyIf ht ha

theorem seq (he : SimulatesBody L vars es f) : Simulates L vars (Emission.seq es) f where
  value := he.value
  test := (ofValue he.value false).test
  stmts := he.stmts

/-- A body of one expression. -/
theorem body (he : Simulates L vars e f) : SimulatesBody L vars [e] f where
  value := he.value
  stmts := he.stmts
  empty h := absurd h (List.cons_ne_nil _ _)

end Simulates

/-! ## Expressions -/

section Bodies

variable {u : UnitInfo} {es : List Expr}

/-- The values of a body with commas between them. -/
theorem generates_values {e : Expr}
    (h : ∀ a ∈ e :: es, Simulates L vars (emit u a) (evaluate a)) :
    Generates (Emission.values (emitAll u (e :: es))) fun n ts => ∃ t ts', ts = t :: ts' ∧
      Expresses L vars 5 (evaluateAll (e :: es)) n (.comma ts) := by
  induction es generalizing e with
  | nil =>
      refine (h e List.mem_cons_self).value.bind fun t => ?_
      exact .pure fun n ht => ⟨t, [], rfl, ht.comma_singleton⟩
  | cons e' es ih =>
      refine (h e List.mem_cons_self).value.bind fun t => ?_
      refine (ih fun a ha => h a (List.mem_cons_of_mem _ ha)).map ?_
      rintro n _ ⟨t', ts, rfl, hts⟩ ht
      exact ⟨t, _, rfl, ht.comma_cons hts⟩

theorem generates_body (h : ∀ a ∈ es, Simulates L vars (emit u a) (evaluate a)) (ret : Bool) :
    Generates (Emission.body (emitAll u es) ret) (Performs L vars ret (evaluateAll es)) := by
  induction es with
  | nil =>
      refine .pure fun n => ?_
      cases ret with
      | true => exact Performs.value (Expresses.nil.lift 4 (by decide) (by decide)) true
      | false => exact Performs.nil
  | cons e es ih =>
      have he := h e List.mem_cons_self
      cases es with
      | nil => exact he.stmts ret
      | cons e' es =>
          refine (he.stmts false).bind fun a => ?_
          refine (ih fun a ha => h a (List.mem_cons_of_mem _ ha)).map ?_
          exact fun n b hb ha => ha.append hb

theorem simulatesBody (h : ∀ a ∈ es, Simulates L vars (emit u a) (evaluate a)) :
    SimulatesBody L vars (emitAll u es) (evaluateAll es) where
  value := by
    match es with
    | [] => exact .pure fun n => Expresses.nil.lift 4 (by decide) (by decide)
    | [e] => exact (h e List.mem_cons_self).value
    | e :: e' :: es =>
        refine (generates_values h).map ?_
        rintro n _ ⟨t, ts, rfl, hts⟩
        exact hts.paren (by decide) (by decide)
  stmts := generates_body h
  empty hnil := by
    cases es with
    | nil => rfl
    | cons e es => cases hnil

end Bodies

/-- The emission of a logical expression means what the expression does. -/
theorem Logical.simulates (hvars : ∀ x ∈ vars, IsLocal L x) (u : UnitInfo) {e : Expr}
    (h : Logical vars e) : Simulates L vars (emit u e) (evaluate e) := by
  induction h with
  | nil => exact Simulates.nil
  | bool b => exact Simulates.bool b
  | lvar hx => exact Simulates.lvar (hvars _ hx) hx
  | assign hx _ ih => exact Simulates.assign hvars hx ih _
  | not _ ih => exact ih.not
  | and _ _ ihl ihr => exact ihl.and hvars ihr
  | or _ _ ihl ihr => exact ihl.or hvars ihr
  | ternary _ _ _ ihc iht ihe => exact ihc.ifElse iht.body ihe.body
  | ifElse _ _ _ ihc iht ihe => exact ihc.ifElse (simulatesBody iht) (simulatesBody ihe)
  | seq _ ih => exact Simulates.seq (simulatesBody ih)

end RubyJs.Logic
