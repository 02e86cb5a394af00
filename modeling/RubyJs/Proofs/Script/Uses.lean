import Mathlib.Data.Set.Insert
import RubyJs.Proofs.Script.Closed

set_option autoImplicit false

/-! # What a function uses

The text of a function, apart from the functions inside of it, uses names, returns, and functions.
`Func.uses` lists these. The functions of units, classes, modules and methods have a `self` of their
own; the functions of blocks and wrappers belong to the nearest of those around them (`Func.Owns`):

    function $$foo() {                     self = this
      Opal.send(xs, "$each", [], function(x) {   no self
        Opal.ret(x);                       a far return, owned by $$foo
      });
    }

What matters later are the names that are written like a temporary or like the block of a method.
`told` are the uses without all other names. `gist` are these and the flaws of the text, which may
leave a bracket open: without flaws all brackets are closed, if they are in the functions inside.
-/

namespace RubyJs.Script

variable {x : Name}

/-- What a function can use in its own text. -/
inductive Use where
  /-- A name, as a variable. -/
  | name (name : Name)
  /-- A call of the runtime that returns from the function around. -/
  | farReturn
  /-- A `return` that the program says. -/
  | nearReturn
  /-- A function inside. -/
  | function (function : Func Term Stmt)

/-! ## Terms and statements -/

/-- Whether a term is the object of the runtime. -/
def Term.isRuntime : Term → Bool
  | .name x => x == .own "Opal"
  | _ => false

/-- Whether a term is the function of the runtime that returns from the function around. -/
def Term.isFarReturn : Term → Bool
  | .member e p => p == "ret" && e.isRuntime
  | _ => false

mutual

/-- The uses of a term. -/
def Term.uses : Term → List Use
  | .name x => [.name x]
  | .word _ => []
  | .str _ => []
  | .paren e => e.uses
  | .not e => e.uses
  | .binary _ l r => l.uses ++ r.uses
  | .choice c y n => c.uses ++ y.uses ++ n.uses
  | .assign t v => t.uses ++ v.uses
  | .comma es => termUses es
  | .call f args => (if f.isFarReturn then [.farReturn] else []) ++ f.uses ++ termUses args
  | .member e _ => e.uses
  | .index e k => e.uses ++ k.uses
  | .method e _ => e.uses
  | .array es => termUses es
  | .func f => [.function f]
  | .inline body => [.function { body }]
  | .native ps => pieceUses ps

/-- The uses of terms. -/
def termUses : List Term → List Use
  | [] => []
  | e :: es => e.uses ++ termUses es

/-- The uses of the terms that are put into native text. -/
def pieceUses : List (Piece Term) → List Use
  | [] => []
  | .text _ :: ps => pieceUses ps
  | .term e :: ps => e.uses ++ pieceUses ps

/-- The uses of a statement. -/
def Stmt.uses : Stmt → List Use
  | .term e => e.uses
  | .ret e explicit => (if explicit then [.nearReturn] else []) ++ e.uses
  | .var x e => .name x :: e.uses
  | .branches tests otherwise => testUses tests ++ groupUses otherwise
  | .loop cond body _ => cond.uses ++ stmtUses body
  | .guarded body handler finalizer => stmtUses body ++ groupUses handler ++ groupUses finalizer
  | .rethrow => [.name (.own "$err")]
  | .brk => []
  | .goOn => []
  | .debugger => []
  | .orNil x => [.name x]
  | .orDefault x e => .name x :: e.uses
  | .native ps _ => pieceUses ps

/-- The uses of statements. -/
def stmtUses : List Stmt → List Use
  | [] => []
  | s :: ss => s.uses ++ stmtUses ss

/-- The uses of a group of statements, if there is one. -/
def groupUses : Option (List Stmt) → List Use
  | none => []
  | some body => stmtUses body

/-- The uses of tests and what they guard. -/
def testUses : List (Term × List Stmt) → List Use
  | [] => []
  | (c, body) :: rest => c.uses ++ stmtUses body ++ testUses rest

end

/-! ## Functions -/

namespace Func

/-- The uses of a function. The names it declares are none of them, their first values are. -/
def uses (f : Func Term Stmt) : List Use :=
  termUses (f.inits.map (·.2)) ++ stmtUses f.setup ++ stmtUses f.body

/-- Whether a function has a `self` of its own, as those of units, classes, modules and methods do,
and those of blocks and wrappers do not. -/
def bindsSelf (f : Func Term Stmt) : Bool :=
  f.params.contains (.own "self") || (f.inits.map (·.1)).contains (.own "self")

/-- The variables that a function declares, in the order of their declaration. -/
def vars (f : Func Term Stmt) : List Name :=
  f.inits.map (·.1) ++ f.locals.map Name.user ++ (List.range f.temps).map (fun i => .temp (i + 1))

/-- That a function takes its block from the property where a call leaves it, and clears it: it is
the function of a method. -/
def TakesBlock (f : Func Term Stmt) : Prop :=
  ∃ function, f.name = some function ∧
    (.own "$iter", .binary "||" (.member (.own function) "$$p") .nil) ∈ f.inits ∧
    .term (.assign (.member (.own function) "$$p") .null) ∈ f.setup

/-- That a function is `g` or stands somewhere inside of it. -/
inductive Within (f : Func Term Stmt) : Func Term Stmt → Prop where
  | refl : Within f f
  | inside {g h : Func Term Stmt} : .function h ∈ g.uses → Within f h → Within f g

/-- That a function is `f`, or belongs to it: the functions around it, up to `f`, have no `self` of
their own, nor does it. -/
inductive Owns : Func Term Stmt → Func Term Stmt → Prop where
  | refl (f : Func Term Stmt) : Owns f f
  | inside {f g h : Func Term Stmt} : .function g ∈ f.uses → g.bindsSelf = false → Owns g h →
      Owns f h

variable {f g h : Func Term Stmt}

/-- Every function belongs to one with a `self` of its own, if the outermost one has it. -/
theorem Within.owner (h : f.Within g) (hg : g.bindsSelf = true) :
    ∃ m : Func Term Stmt, m.Within g ∧ m.bindsSelf = true ∧ m.Owns f := by
  -- functions without a `self` on the way in belong to the one around them
  have howned : g.Owns f ∨ ∃ m : Func Term Stmt, m.Within g ∧ m.bindsSelf = true ∧ m.Owns f := by
    clear hg
    induction h with
    | refl => exact .inl (.refl f)
    | @inside g h hinner _ ih =>
        rcases ih with howns | ⟨m, hm, hself, howns⟩
        · cases hself : h.bindsSelf with
          | true => exact .inr ⟨h, .inside hinner .refl, hself, howns⟩
          | false => exact .inl (.inside hinner hself howns)
        · exact .inr ⟨m, .inside hinner hm, hself, howns⟩
  rcases howned with howns | howner
  · exact ⟨g, .refl, hg, howns⟩
  · exact howner

theorem temp_mem_vars {k : Nat} (hlow : 1 ≤ k) (hhigh : k ≤ f.temps) : .temp k ∈ f.vars := by
  have hrange : k - 1 ∈ List.range f.temps := List.mem_range.mpr (by omega)
  have hmem := List.mem_map_of_mem (f := fun i => Name.temp (i + 1)) hrange
  rw [Nat.sub_add_cancel hlow] at hmem
  exact List.mem_append_right _ hmem

/-- That a function or one that belongs to it has a use. -/
def Reaches (f : Func Term Stmt) (u : Use) : Prop := ∃ g, f.Owns g ∧ u ∈ g.uses

end Func

namespace Use

/-- That a use is `u`, or a function that belongs to the one around it and reaches `u`. -/
def Carries (u v : Use) : Prop :=
  v = u ∨ ∃ f : Func Term Stmt, v = .function f ∧ f.bindsSelf = false ∧ f.Reaches u

end Use

theorem Func.reaches_iff {f : Func Term Stmt} {u : Use} :
    f.Reaches u ↔ ∃ v ∈ f.uses, u.Carries v := by
  constructor
  · rintro ⟨g, howns, hu⟩
    cases howns with
    | refl => exact ⟨u, hu, .inl rfl⟩
    | @inside _ h _ hmem hself howns =>
        exact ⟨.function h, hmem, .inr ⟨h, rfl, hself, g, howns, hu⟩⟩
  · rintro ⟨v, hv, rfl | ⟨h, rfl, hself, g, howns, hu⟩⟩
    · exact ⟨f, .refl f, hv⟩
    · exact ⟨g, .inside hv hself howns, hu⟩

namespace Use

variable {u : Use}

@[simp] theorem carries_name (x : Name) : u.Carries (.name x) ↔ .name x = u := by
  simp [Carries]

@[simp] theorem carries_farReturn : u.Carries .farReturn ↔ .farReturn = u := by
  simp [Carries]

@[simp] theorem carries_nearReturn : u.Carries .nearReturn ↔ .nearReturn = u := by
  simp [Carries]

theorem carries_function {f : Func Term Stmt} (h : .function f ≠ u) :
    u.Carries (.function f) ↔ f.bindsSelf = false ∧ f.Reaches u := by
  simp [Carries, h]

end Use

/-! ## Names that tell -/

/-- Whether a name is written like a temporary or like the block of a method. -/
def Name.isTelling (x : Name) : Bool :=
  match x.text.toList with
  | '$' :: 't' :: _ => true
  | cs => cs == "$iter".toList

/-- Whether a use is no name that does not matter. -/
def Use.isTelling : Use → Bool
  | .name x => x.isTelling
  | _ => true

theorem Use.isTelling_of_carries {u v : Use} (hu : u.isTelling = true) (h : u.Carries v) :
    v.isTelling = true := by
  obtain rfl | ⟨f, rfl, -⟩ := h
  · exact hu
  · rfl

theorem Name.isTelling_of_text_temp (h : "$t".toList <+: x.text.toList) : x.isTelling = true := by
  obtain ⟨cs, hcs⟩ := h
  rw [Name.isTelling, ← hcs]
  rfl

theorem Name.isTelling_of_text_iter (h : x.text = "$iter") : x.isTelling = true := by
  rw [Name.isTelling, h]
  decide

theorem Name.text_temp (k : Nat) : "$t".toList <+: (Name.temp k).text.toList := by
  rw [Name.text, String.toList_append]
  exact List.prefix_append _ _

theorem Name.text_temp_ne_iter (k : Nat) : (Name.temp k).text ≠ "$iter" := by
  intro h
  have htext := Name.text_temp k
  rw [h] at htext
  exact absurd htext (by decide)

@[simp] theorem Name.isTelling_temp (k : Nat) : (Name.temp k).isTelling = true :=
  Name.isTelling_of_text_temp (Name.text_temp k)

theorem Name.isTelling_of_head (h : x.text.toList.head? ≠ some '$') : x.isTelling = false := by
  unfold Name.isTelling
  split
  · rename_i heq
    exact absurd (congrArg List.head? heq) h
  · refine beq_eq_false_iff_ne.mpr fun heq => h ?_
    rw [heq]
    rfl

/-- A name of the compiler does not tell if its second character is no small letter. -/
theorem Name.isTelling_of_second {n : String} {c : Char} {cs : List Char}
    (h : n.toList = '$' :: c :: cs) (hc : c.isLower = false) : (Name.own n).isTelling = false := by
  unfold Name.isTelling
  rw [Name.text, h]
  split
  · rename_i heq
    obtain rfl := (List.cons.inj (List.cons.inj heq).2).1
    exact absurd hc (by decide)
  · refine beq_eq_false_iff_ne.mpr fun heq => ?_
    obtain rfl := (List.cons.inj (List.cons.inj heq).2).1
    exact absurd hc (by decide)

/-! ## Tidy functions -/

/-- The block of a method, as a name. -/
def Use.iter : Use := .name (.own "$iter")

namespace Func

/-- That a function declares the temporaries it uses, and is ready for the returns and the block
that it and its blocks use. -/
structure Tidy (f : Func Term Stmt) : Prop where
  names : ∀ x, .name x ∈ f.uses → x.isTelling = true →
    (∃ k, x = .temp k ∧ 1 ≤ k ∧ k ≤ f.temps) ∨ x = .own "$iter"
  near : .nearReturn ∈ f.uses → f.bindsSelf = true
  far : f.catchesReturn = true ↔ f.bindsSelf = true ∧ f.Reaches .farReturn
  iter : f.bindsSelf = true → f.Reaches .iter → f.TakesBlock

/-- That a function and all functions inside of it are tidy. -/
def Sound (g : Func Term Stmt) : Prop := ∀ f : Func Term Stmt, f.Within g → f.Tidy

theorem Tidy.sound {g : Func Term Stmt} (h : g.Tidy)
    (hinside : ∀ f, .function f ∈ g.uses → f.Sound) : g.Sound := by
  intro f hf
  cases hf with
  | refl => exact h
  | inside hmem hwithin => exact hinside _ hmem f hwithin

end Func

/-! ## What is told -/

/-- The uses among these that matter. -/
def toldIn (us : List Use) : Set Use := {u | u ∈ us ∧ u.isTelling = true}

/-- What has uses. -/
class Usage (α : Type) where
  uses : α → List Use

open Usage (uses)

/-- The uses that matter. -/
def told {α : Type} [Usage α] (a : α) : Set Use := toldIn (uses a)

instance : Usage Term := ⟨Term.uses⟩

/-! ## The gist -/

/-- The flaw, `none`, of a text that is printed as it is and may have brackets. -/
def flaw (text : String) : Set (Option Use) := {m | m = none ∧ ¬ Plain text}

@[simp] theorem flaw_of_plain {text : String} (h : Plain text) : flaw text = ∅ := by
  ext m
  simp [flaw, h]

/-- That a name does not matter and has no flaw. -/
abbrev Name.Quiet (x : Name) : Prop := x.isTelling = false ∧ Plain x.text

/-- What a name tells. -/
def Name.gist (x : Name) : Set (Option Use) :=
  flaw x.text ∪ {m | m = some (.name x) ∧ x.isTelling = true}

theorem Name.gist_of_quiet (h : x.isTelling = false) : x.gist = flaw x.text := by
  ext m
  simp [Name.gist, h]

theorem Name.Quiet.gist (h : x.Quiet) : x.gist = ∅ :=
  (Name.gist_of_quiet h.1).trans (flaw_of_plain h.2)

mutual

/-- What a term tells. Native text is as closed as it was written, so it is a flaw. -/
def Term.gist : Term → Set (Option Use)
  | .name x => x.gist
  | .word w => flaw w
  | .str _ => ∅
  | .paren e => e.gist
  | .not e => e.gist
  | .binary op l r => flaw op ∪ l.gist ∪ r.gist
  | .choice c y n => c.gist ∪ y.gist ∪ n.gist
  | .assign t v => t.gist ∪ v.gist
  | .comma es => termsGist es
  | .call f args => {m | m = some .farReturn ∧ f.isFarReturn = true} ∪ f.gist ∪ termsGist args
  | .member e p => flaw p ∪ e.gist
  | .index e k => e.gist ∪ k.gist
  | .method e _ => e.gist
  | .array es => termsGist es
  | .func f => {some (.function f)}
  | .inline body => {some (.function { body })}
  | .native ps => {none} ∪ piecesGist ps

/-- What terms tell. -/
def termsGist : List Term → Set (Option Use)
  | [] => ∅
  | e :: es => e.gist ∪ termsGist es

/-- What the terms tell that are put into native text. -/
def piecesGist : List (Piece Term) → Set (Option Use)
  | [] => ∅
  | .text _ :: ps => piecesGist ps
  | .term e :: ps => e.gist ∪ piecesGist ps

/-- What a statement tells. An `if` without a test has a flaw. -/
def Stmt.gist : Stmt → Set (Option Use)
  | .term e => e.gist
  | .ret e explicit => {m | m = some .nearReturn ∧ explicit = true} ∪ e.gist
  | .var x e => x.gist ∪ e.gist
  | .branches tests otherwise =>
    {m | m = none ∧ tests = []} ∪ testsGist tests ∪ groupGist otherwise
  | .loop cond body _ => cond.gist ∪ stmtsGist body
  | .guarded body handler finalizer => stmtsGist body ∪ groupGist handler ∪ groupGist finalizer
  | .rethrow => (Name.own "$err").gist
  | .brk => ∅
  | .goOn => ∅
  | .debugger => ∅
  | .orNil x => x.gist
  | .orDefault x e => x.gist ∪ e.gist
  | .native ps _ => {none} ∪ piecesGist ps

/-- What statements tell. -/
def stmtsGist : List Stmt → Set (Option Use)
  | [] => ∅
  | s :: ss => s.gist ∪ stmtsGist ss

/-- What a group of statements tells, if there is one. -/
def groupGist : Option (List Stmt) → Set (Option Use)
  | none => ∅
  | some body => stmtsGist body

/-- What tests tell and what they guard. -/
def testsGist : List (Term × List Stmt) → Set (Option Use)
  | [] => ∅
  | (c, body) :: rest => c.gist ∪ stmtsGist body ∪ testsGist rest

end

/-! ### What can be read off -/

/-- That nothing of this is a flaw, and that the functions in it are closed. -/
def Closes (ms : Set (Option Use)) : Prop :=
  none ∉ ms ∧ ∀ f, some (.function f) ∈ ms → f.Closed

theorem closes_empty : Closes ∅ := ⟨id, fun _ h => h.elim⟩

theorem closes_union {ms ms' : Set (Option Use)} : Closes (ms ∪ ms') ↔ Closes ms ∧ Closes ms' := by
  simp only [Closes, Set.mem_union, not_or, or_imp, forall_and]
  exact and_and_and_comm

/-- That `ms` tells of the uses `us`, and closes only if `closed` holds. -/
structure Reports (ms : Set (Option Use)) (us : List Use) (closed : Prop) : Prop where
  mem_iff : ∀ u, some u ∈ ms ↔ u ∈ us ∧ u.isTelling = true
  closed : Closes ms → closed

namespace Reports

variable {ms ms' : Set (Option Use)} {us us' : List Use} {p p' : Prop}

theorem none (h : p) : Reports ∅ [] p := ⟨fun _ => by simp, fun _ => h⟩

theorem flaw (text : String) : Reports (flaw text) [] (Plain text) := by
  refine ⟨fun u => by simp [Script.flaw], fun h => ?_⟩
  by_contra hrough
  exact h.1 ⟨rfl, hrough⟩

theorem union (h : Reports ms us p) (h' : Reports ms' us' p') :
    Reports (ms ∪ ms') (us ++ us') (p ∧ p') := by
  refine ⟨fun u => ?_, fun hcloses => ?_⟩
  · rw [Set.mem_union, h.mem_iff, h'.mem_iff, List.mem_append, or_and_right]
  · exact (closes_union.mp hcloses).imp h.closed h'.closed

theorem imp (h : Reports ms us p) (hp : p → p') : Reports ms us p' :=
  ⟨h.mem_iff, fun hcloses => hp (h.closed hcloses)⟩

/-- A use that may be there or not. -/
theorem only {u : Use} {c : Bool} (h : u.isTelling = true) :
    Reports {m | m = some u ∧ c = true} (if c then [u] else []) True := by
  refine ⟨fun v => ?_, fun _ => trivial⟩
  cases c with
  | false => simp
  | true =>
      simp only [Set.mem_ofPred_eq, Option.some.injEq, and_true, if_true, List.mem_singleton]
      exact (and_iff_left_of_imp fun heq => heq ▸ h).symm

theorem name (x : Name) : Reports x.gist [.name x] x.Closed := by
  refine ⟨fun u => ?_, fun h => ((flaw x.text).closed (closes_union.mp h).1).closed⟩
  simp only [Name.gist, Script.flaw, Set.mem_union, Set.mem_ofPred_eq, reduceCtorEq, false_and,
    false_or, Option.some.injEq, List.mem_singleton]
  exact and_congr_right fun heq => heq ▸ Iff.rfl

theorem function (f : Func Term Stmt) : Reports {some (.function f)} [.function f] f.Closed := by
  refine ⟨fun u => ?_, fun h => h.2 f rfl⟩
  simp only [Set.mem_singleton_iff, Option.some.injEq, List.mem_singleton]
  exact (and_iff_left_of_imp fun heq => heq ▸ rfl).symm

/-- Nothing that has a flaw closes. -/
theorem flawed (h : Reports ms us p) : Reports ({Option.none} ∪ ms) us p' :=
  ⟨fun u => by simpa using h.mem_iff u, fun hcloses => absurd (.inl rfl) hcloses.1⟩

end Reports

mutual

theorem Term.reports : ∀ e : Term, Reports e.gist e.uses e.Closed
  | .name x => (Reports.name x).imp .name
  | .word w => (Reports.flaw w).imp .word
  | .str t => .none (.str t)
  | .paren e => e.reports.imp .paren
  | .not e => e.reports.imp .not
  | .binary op l r =>
      (((Reports.flaw op).union l.reports).union r.reports).imp fun h => .binary h.1.1 h.1.2 h.2
  | .choice c y n =>
      ((c.reports.union y.reports).union n.reports).imp fun h => .choice h.1.1 h.1.2 h.2
  | .assign t v => (t.reports.union v.reports).imp fun h => .assign h.1 h.2
  | .comma es => (reports_terms es).imp .comma
  | .call f args =>
      (((Reports.only rfl).union f.reports).union (reports_terms args)).imp fun h => .call h.1.2 h.2
  | .member e p => ((Reports.flaw p).union e.reports).imp fun h => .member h.2 h.1
  | .index e k => (e.reports.union k.reports).imp fun h => .index h.1 h.2
  | .method e name => e.reports.imp fun h => .method h name
  | .array es => (reports_terms es).imp .array
  | .func f => (Reports.function f).imp .func
  | .inline body => (Reports.function { body }).imp fun h => .inline h.body
  | .native ps => (reports_pieces ps).flawed

theorem reports_terms : ∀ es : List Term, Reports (termsGist es) (termUses es) (TermsClosed es)
  | [] => .none .nil
  | e :: es => (e.reports.union (reports_terms es)).imp fun h => .cons h.1 h.2

theorem reports_pieces : ∀ ps : List (Piece Term), Reports (piecesGist ps) (pieceUses ps) True
  | [] => .none trivial
  | .text _ :: ps => reports_pieces ps
  | .term e :: ps => (e.reports.union (reports_pieces ps)).imp fun _ => trivial

theorem Stmt.reports : ∀ s : Stmt, Reports s.gist s.uses s.Closed
  | .term e => e.reports.imp .term
  | .ret e _ => ((Reports.only rfl).union e.reports).imp fun h => .ret h.2 _
  | .var x e => ((Reports.name x).union e.reports).imp fun h => .var h.1 h.2
  | .branches tests otherwise => by
      have hempty : Reports {m | m = none ∧ tests = []} [] (tests ≠ []) :=
        ⟨fun u => by simp, fun h hnil => h.1 ⟨rfl, hnil⟩⟩
      exact ((hempty.union (reports_tests tests)).union (reports_group otherwise)).imp
        fun h => .branches h.1.1 h.1.2 h.2
  | .loop cond body _ => (cond.reports.union (reports_stmts body)).imp fun h => .loop h.1 h.2 _
  | .guarded body handler finalizer =>
      (((reports_stmts body).union (reports_group handler)).union (reports_group finalizer)).imp
        fun h => .guarded h.1.1 h.1.2 h.2
  | .rethrow => (Reports.name _).imp fun _ => .rethrow
  | .brk => .none .brk
  | .goOn => .none .goOn
  | .debugger => .none .debugger
  | .orNil x => (Reports.name x).imp .orNil
  | .orDefault x e => ((Reports.name x).union e.reports).imp fun h => .orDefault h.1 h.2
  | .native ps _ => (reports_pieces ps).flawed

theorem reports_stmts : ∀ ss : List Stmt, Reports (stmtsGist ss) (stmtUses ss) (StmtsClosed ss)
  | [] => .none .nil
  | s :: ss => (s.reports.union (reports_stmts ss)).imp fun h => .cons h.1 h.2

theorem reports_group : ∀ group : Option (List Stmt),
    Reports (groupGist group) (groupUses group) (GroupClosed group)
  | none => .none .none
  | some body => (reports_stmts body).imp .some

theorem reports_tests : ∀ tests : List (Term × List Stmt),
    Reports (testsGist tests) (testUses tests) (∀ t ∈ tests, t.1.Closed ∧ StmtsClosed t.2)
  | [] => .none (fun _ h => absurd h List.not_mem_nil)
  | (c, body) :: rest =>
      ((c.reports.union (reports_stmts body)).union (reports_tests rest)).imp
        fun h => List.forall_mem_cons.mpr h

end

/-! ### Gists of others -/

/-- What has a gist. -/
class Gist (α : Type) where
  of : α → Set (Option Use)

/-- The uses that matter, and the flaws. -/
def gist {α : Type} [Gist α] (a : α) : Set (Option Use) := Gist.of a

instance : Gist Term := ⟨Term.gist⟩

instance : Gist Stmt := ⟨Stmt.gist⟩

instance : Gist (Piece Term) where
  of
    | .text _ => ∅
    | .term e => e.gist

section Collections

variable {α β : Type} [Gist α] [Gist β]

instance : Gist (List α) := ⟨List.foldr (fun a ms => gist a ∪ ms) ∅⟩

instance : Gist (Option α) := ⟨fun o => o.elim ∅ gist⟩

instance : Gist (α × β) := ⟨fun p => gist p.1 ∪ gist p.2⟩

instance : Gist Bool := ⟨fun _ => ∅⟩

@[simp] theorem gist_nil : gist ([] : List α) = ∅ := rfl

@[simp] theorem gist_cons (a : α) (as : List α) : gist (a :: as) = gist a ∪ gist as := rfl

@[simp] theorem gist_append (as as' : List α) : gist (as ++ as') = gist as ∪ gist as' := by
  induction as with
  | nil => simp
  | cons a as ih => simp [ih, Set.union_assoc]

theorem gist_eq_empty {as : List α} (h : ∀ a ∈ as, gist a = ∅) : gist as = ∅ := by
  induction as with
  | nil => exact gist_nil
  | cons a as ih =>
      obtain ⟨ha, has⟩ := List.forall_mem_cons.mp h
      rw [gist_cons, ha, ih has, Set.union_empty]

@[simp] theorem gist_none : gist (none : Option α) = ∅ := rfl

@[simp] theorem gist_some (a : α) : gist (some a) = gist a := rfl

@[simp] theorem gist_pair (p : α × β) : gist p = gist p.1 ∪ gist p.2 := rfl

@[simp] theorem gist_bool (b : Bool) : gist b = ∅ := rfl

end Collections

instance : Gist (Func Term Stmt) where
  of f := gist (f.inits.map (·.2)) ∪ gist f.setup ∪ gist f.body

theorem termsGist_eq (es : List Term) : termsGist es = gist es := by
  induction es with
  | nil => rfl
  | cons e es ih => exact congrArg (e.gist ∪ ·) ih

theorem stmtsGist_eq (ss : List Stmt) : stmtsGist ss = gist ss := by
  induction ss with
  | nil => rfl
  | cons s ss ih => exact congrArg (s.gist ∪ ·) ih

theorem piecesGist_eq (ps : List (Piece Term)) : piecesGist ps = gist ps := by
  induction ps with
  | nil => rfl
  | cons p ps ih =>
      cases p with
      | text t => exact ih.trans (Set.empty_union _).symm
      | term e => exact congrArg (e.gist ∪ ·) ih

theorem groupGist_eq (group : Option (List Stmt)) : groupGist group = gist group := by
  cases group with
  | none => rfl
  | some body => exact stmtsGist_eq body

theorem testsGist_eq (tests : List (Term × List Stmt)) : testsGist tests = gist tests := by
  induction tests with
  | nil => rfl
  | cons t ts ih => rw [testsGist, stmtsGist_eq, ih, gist_cons, gist_pair, gist, Gist.of]; rfl

theorem told_eq_empty_iff {e : Term} : told e = ∅ ↔ ∀ u, some u ∉ gist e :=
  Set.eq_empty_iff_forall_notMem.trans (forall_congr' fun u => not_congr (e.reports.mem_iff u).symm)

theorem TermsClosed.of_gist {es : List Term} (h : Closes (gist es)) : TermsClosed es :=
  (reports_terms es).closed (termsGist_eq es ▸ h)

theorem StmtsClosed.of_gist {ss : List Stmt} (h : Closes (gist ss)) : StmtsClosed ss :=
  (reports_stmts ss).closed (stmtsGist_eq ss ▸ h)

/-- What a function tells is what its first values and its statements tell. -/
theorem gist_function (f : Func Term Stmt) :
    gist f = gist (f.inits.map (·.2)) ∪ gist f.setup ∪ gist f.body := rfl

theorem mem_gist_function {f : Func Term Stmt} {u : Use} :
    some u ∈ gist f ↔ u ∈ f.uses ∧ u.isTelling = true := by
  rw [gist_function, ← termsGist_eq, ← stmtsGist_eq, ← stmtsGist_eq]
  exact (((reports_terms _).union (reports_stmts _)).union (reports_stmts _)).mem_iff u

/-! ### Terms -/

section Terms

variable (e e' e'' : Term) (es : List Term)

theorem gist_name (h : x.Quiet) : gist (Term.name x) = ∅ := h.gist

theorem gist_telling_name (h : x.isTelling = true) (hplain : Plain x.text) :
    gist (Term.name x) = {some (.name x)} := by
  show x.gist = _
  ext m
  simp [Name.gist, h, hplain]

@[simp] theorem gist_temp (k : Nat) : gist (Term.temp k) = {some (.name (.temp k))} :=
  gist_telling_name (Name.isTelling_temp k) (plain_temp k)

@[simp] theorem gist_word (w : String) : gist (Term.word w) = flaw w := rfl

@[simp] theorem gist_str (t : String) : gist (Term.str t) = ∅ := rfl

@[simp] theorem gist_paren : gist (Term.paren e) = gist e := rfl

@[simp] theorem gist_not : gist (Term.not e) = gist e := rfl

@[simp] theorem gist_binary (op : String) :
    gist (Term.binary op e e') = flaw op ∪ gist e ∪ gist e' := rfl

@[simp] theorem gist_choice : gist (Term.choice e e' e'') = gist e ∪ gist e' ∪ gist e'' := rfl

@[simp] theorem gist_assign : gist (Term.assign e e') = gist e ∪ gist e' := rfl

@[simp] theorem gist_comma : gist (Term.comma es) = gist es := termsGist_eq es

@[simp] theorem gist_array : gist (Term.array es) = gist es := termsGist_eq es

@[simp] theorem isFarReturn_paren : (Term.paren e).isFarReturn = false := by
  simp [Term.isFarReturn]

@[simp] theorem isFarReturn_method (name : String) : (Term.method e name).isFarReturn = false := by
  simp [Term.isFarReturn]

@[simp] theorem isFarReturn_member (p : String) :
    (Term.member e p).isFarReturn = (p == "ret" && e.isRuntime) := by
  simp [Term.isFarReturn]

/-- A call of something else than the far return. -/
@[simp] theorem gist_call (h : e.isFarReturn = false) :
    gist (Term.call e es) = gist e ∪ gist es := by
  rw [← termsGist_eq, gist, Gist.of]
  show {m | _ ∧ e.isFarReturn = true} ∪ e.gist ∪ termsGist es = e.gist ∪ termsGist es
  simp [h]

@[simp] theorem gist_member (p : String) : gist (Term.member e p) = flaw p ∪ gist e := rfl

@[simp] theorem gist_index : gist (Term.index e e') = gist e ∪ gist e' := rfl

@[simp] theorem gist_method (name : String) : gist (Term.method e name) = gist e := rfl

@[simp] theorem gist_func (f : Func Term Stmt) : gist (Term.func f) = {some (.function f)} := rfl

@[simp] theorem gist_inline (body : List Stmt) :
    gist (Term.inline body) = {some (.function { body })} := rfl

@[simp] theorem gist_native (ps : List (Piece Term)) :
    gist (Term.native ps) = {none} ∪ gist ps := congrArg ({none} ∪ ·) (piecesGist_eq ps)

@[simp] theorem gist_piece_text (t : String) : gist (Piece.text t : Piece Term) = ∅ := rfl

@[simp] theorem gist_piece_term : gist (Piece.term e) = gist e := rfl

/-! ### Abbreviations -/

theorem gist_own {n : String} (h : (Name.own n).Quiet) : gist (Term.own n) = ∅ := gist_name h

@[simp] theorem gist_nil_term : gist Term.nil = ∅ := gist_own (by decide)

@[simp] theorem gist_self : gist Term.self = ∅ := gist_own (by decide)

@[simp] theorem gist_scope : gist Term.scope = ∅ := gist_own (by decide)

@[simp] theorem gist_opal : gist Term.opal = ∅ := gist_own (by decide)

@[simp] theorem gist_null : gist Term.null = ∅ := flaw_of_plain (by decide)

@[simp] theorem gist_bool_term (b : Bool) : gist (Term.bool b) = ∅ :=
  flaw_of_plain (.ite (by decide) (by decide))

@[simp] theorem gist_methodName (name : String) : gist (Term.methodName name) = ∅ := rfl

@[simp] theorem gist_runtime {function : String} (h : function ≠ "ret") :
    gist (Term.runtime function es) = flaw function ∪ gist es := by
  rw [Term.runtime, gist_call, gist_member, gist_opal, Set.union_empty]
  simp [h]

/-- A far return. -/
theorem gist_runtime_ret : gist (Term.runtime "ret" es) = {some .farReturn} ∪ gist es := by
  rw [← termsGist_eq]
  show {m | m = _ ∧ _} ∪ (flaw "ret" ∪ gist Term.opal) ∪ termsGist es = _
  rw [gist_opal, flaw_of_plain (by decide), Set.union_empty, Set.union_empty]
  simp [Term.isRuntime, Term.opal, Term.own]

@[simp] theorem gist_truthy : gist (Term.truthy e) = gist e := by
  rw [Term.truthy, gist_runtime _ (by decide), flaw_of_plain (by decide)]
  simp

@[simp] theorem gist_orNil : gist (Term.orNil e) = gist e := by
  rw [Term.orNil, gist_paren, gist_choice, gist_binary, flaw_of_plain (by decide)]
  simp

@[simp] theorem gist_chain {op : String} (h : Plain op) :
    gist (Term.chain op e es) = gist e ∪ gist es := by
  induction es generalizing e with
  | nil => simp [Term.chain]
  | cons e' es ih => simp [Term.chain, ih, h, Set.union_assoc]

end Terms

/-! ### Statements -/

section Stmts

variable (e : Term) (ss : List Stmt)

@[simp] theorem gist_stmt_term : gist (Stmt.term e) = gist e := rfl

/-- A return that the program does not say. -/
@[simp] theorem gist_ret : gist (Stmt.ret e false) = gist e := by
  show {m | _ ∧ false = true} ∪ gist e = gist e
  simp

/-- A return that the program says. -/
theorem gist_ret_explicit : gist (Stmt.ret e true) = {some .nearReturn} ∪ gist e := by
  show {m | m = _ ∧ true = true} ∪ gist e = _
  simp

@[simp] theorem gist_var (h : x.Quiet) : gist (Stmt.var x e) = gist e := by
  show x.gist ∪ gist e = _
  rw [h.gist, Set.empty_union]

@[simp] theorem gist_branches {tests : List (Term × List Stmt)} (h : tests ≠ [])
    (otherwise : Option (List Stmt)) :
    gist (Stmt.branches tests otherwise) = gist tests ∪ gist otherwise := by
  rw [← testsGist_eq, ← groupGist_eq]
  show {m | _ ∧ tests = []} ∪ _ ∪ _ = _
  simp [h]

@[simp] theorem gist_loop (bodyFirst : Bool) :
    gist (Stmt.loop e ss bodyFirst) = gist e ∪ gist ss := congrArg (e.gist ∪ ·) (stmtsGist_eq ss)

@[simp] theorem gist_guarded (handler finalizer : Option (List Stmt)) :
    gist (Stmt.guarded ss handler finalizer) = gist ss ∪ gist handler ∪ gist finalizer := by
  rw [← stmtsGist_eq, ← groupGist_eq, ← groupGist_eq]
  rfl

@[simp] theorem gist_rethrow : gist Stmt.rethrow = ∅ := gist_own (n := "$err") (by decide)

@[simp] theorem gist_brk : gist Stmt.brk = ∅ := rfl

@[simp] theorem gist_goOn : gist Stmt.goOn = ∅ := rfl

@[simp] theorem gist_debugger : gist Stmt.debugger = ∅ := rfl

@[simp] theorem gist_stmt_orNil (h : x.Quiet) : gist (Stmt.orNil x) = ∅ := gist_name h

@[simp] theorem gist_orDefault (h : x.Quiet) :
    gist (Stmt.orDefault x e) = gist e := gist_var e h

@[simp] theorem gist_stmt_native (ps : List (Piece Term)) (wanted : Bool) :
    gist (Stmt.native ps wanted) = {none} ∪ gist ps := gist_native ps

end Stmts

end RubyJs.Script
