import RubyJs.Dependency

set_option autoImplicit false

/-! # The parts of an expression

An expression holds others, some of them deep inside of clauses, blocks or parameters.
`Expr.parts` lists those it holds directly, each with where it stands, seen from the whole:

    while c do b end        c   here           b   in a loop
    f(a) { |x = d| b }      a   here           d, b   in a block
    def m(x = d) b end      d, b   in a method

and with whether it gets code. Two kinds of parts do not: the value of a `break` or `next` in a
loop, and an argument `&e` beside a block. `Occurs` follows parts of parts; a statement about all
the expressions in a tree is one about all that occur in it, and its proof an induction on parts
(`Expr.induction_on_parts`).
-/

namespace RubyJs

/-! ## Places -/

/-- Where a part stands, seen from the expression that holds it. -/
inductive Nesting where
  | here
  | loop
  | block
  | method
  /-- In the body of a class, a module or a singleton class. -/
  | classBody
deriving DecidableEq, Repr

/-- Whether the part shares the variables of the expression that holds it. -/
def Nesting.isOwn : Nesting → Bool
  | here | loop => true
  | block | method | classBody => false

/-- When a part gets code. -/
inductive Fate where
  | always
  /-- If no loop of the same function is around it. -/
  | outsideLoops
  | never
deriving DecidableEq, Repr

/-- A part of an expression. -/
structure Site where
  expr : Expr
  nesting : Nesting := .here
  fate : Fate := .always

/-- A place in a tree. -/
structure Place where
  /-- Whether the nearest scope around it that is no block is the body of a class or module. -/
  inClass : Bool := false
  /-- Whether a loop is around it in the same function. -/
  inLoop : Bool := false
deriving DecidableEq, Repr

/-- The place of a part. -/
def Place.enter (p : Place) : Nesting → Place
  | .here => p
  | .loop => { p with inLoop := true }
  | .block => { p with inLoop := false }
  | .method => {}
  | .classBody => { inClass := true }

/-- Whether a part of an expression at `p` gets code. -/
def Fate.isGenerated (p : Place) : Fate → Bool
  | .always => true
  | .outsideLoops => !p.inLoop
  | .never => false

/-! ## What holds expressions -/

/-- Data that holds expressions. -/
class Holder (α : Type) where
  /-- The expressions, without those inside of them. -/
  exprs : α → List Expr

open Holder (exprs)

section Holders

variable {α β : Type} [Holder α] [Holder β]

instance : Holder Expr where
  exprs e := [e]

instance : Holder String where
  exprs _ := []

instance : Holder (List α) where
  exprs as := as.flatMap exprs

instance : Holder (Option α) where
  exprs o := o.toList.flatMap exprs

instance : Holder (α × β) where
  exprs p := exprs p.1 ++ exprs p.2

instance : Holder (Part Expr) where
  exprs
    | .lit _ => []
    | .code body => exprs body

instance : Holder (Base Expr) where
  exprs
    | .within scope => [scope]
    | _ => []

instance : Holder (Target Expr) where
  exprs
    | .const base _ => exprs base
    | .attr recv _ => [recv]
    | .index recv args => recv :: exprs args
    | _ => []

/-- The defaults of parameters. -/
instance : Holder (Params Expr) where
  exprs p := exprs p.optional

instance : Holder (Block Expr) where
  exprs b := exprs b.params ++ exprs b.body

instance : Holder (When Expr) where
  exprs w := exprs w.values ++ exprs w.body

instance : Holder (Rescue Expr) where
  exprs r := exprs r.classes ++ exprs r.body

end Holders

/-! ## Parts -/

/-- The expressions that `a` holds, as parts that stand alike and get code alike. -/
def heldAs {α : Type} [Holder α] (fate : Fate) (n : Nesting) (a : α) : List Site :=
  (exprs a).map fun e => ⟨e, n, fate⟩

/-- The expressions that `a` holds, as parts that get code. -/
abbrev held {α : Type} [Holder α] (n : Nesting) (a : α) : List Site :=
  heldAs .always n a

/-- The argument `&e` of a call as a part: beside a block it gets no code. -/
def heldArgument (block : Option (Block Expr)) (arg : Option Expr) : List Site :=
  heldAs (if block.isSome then .never else .always) .here arg

namespace Expr

/-- The expressions that an expression holds directly. -/
def parts : Expr → List Site
  | dstr ps | xstr ps | dsym ps => held .here ps
  | array es | seq es | .yield es => held .here es
  | hash ps => held .here ps
  | range a b _ | .and a b | .or a b => held .here a ++ held .here b
  | const base _ => held .here base
  | assign t v | opAssign t _ v => held .here t ++ held .here v
  | call ⟨recv, _, args, block, arg⟩ =>
    held .here recv ++ held .here args ++ held .block block ++ heldArgument block arg
  | splat e | .not e => held .here e
  | ifElse c t e => held .here c ++ held .here t ++ held .here e
  | ternary c t e => held .here c ++ held .here t ++ held .here e
  | loop c b _ _ => held .here c ++ held .loop b
  | caseOf s ws e => held .here s ++ held .here ws ++ held .here e
  | .begin b rs e f => held .here b ++ held .here rs ++ held .here e ++ held .here f
  | ret v => held .here v
  | brk v | nxt v => heldAs .outsideLoops .here v
  | super args block arg =>
    held .here args ++ held .block block ++ heldArgument block arg
  | define s _ p b => held .here s ++ held .method p ++ held .method b
  | classDef base _ s b => held .here base ++ held .here s ++ held .classBody b
  | moduleDef base _ b => held .here base ++ held .classBody b
  | singletonDef t b => held .here t ++ held .classBody b
  | nil | bool _ | selfRef | int _ | float _ | str _ | sym _ | lvar _ | ivar _ | gvar _
  | aliasMethod _ _ | undef _ => []

/-- The local variables that an expression itself assigns to. -/
def binds : Expr → List String
  | assign (.lvar x) _ | opAssign (.lvar x) _ _ => [x]
  | .begin _ rs _ _ => rs.filterMap Rescue.var
  | _ => []

end Expr

/-- The names of the parameters that are taken by position. -/
def Params.positional {ε : Type} (p : Params ε) : List String :=
  p.required ++ p.optional.map Prod.fst

/-- The names of all parameters. -/
def Params.names {ε : Type} (p : Params ε) : List String :=
  p.positional ++ p.rest.toList ++ p.block.toList

/-! ## All that is held -/

/-- That `R` holds of the expressions that `a` holds. -/
def AllIn {α : Type} [Holder α] (R : Expr → Prop) (a : α) : Prop := ∀ e ∈ exprs a, R e

section AllIn

variable {α β : Type} [Holder α] [Holder β] {R : Expr → Prop} {a : α} {b : β} {as as' : List α}

@[simp] theorem allIn_expr {e : Expr} : AllIn R e ↔ R e := by simp [AllIn, exprs]

@[simp] theorem allIn_nil : AllIn R ([] : List α) := fun _ he => absurd he List.not_mem_nil

@[simp] theorem allIn_cons : AllIn R (a :: as) ↔ AllIn R a ∧ AllIn R as := List.forall_mem_append

@[simp] theorem allIn_none : AllIn R (none : Option α) := fun _ he => absurd he List.not_mem_nil

@[simp] theorem allIn_some : AllIn R (some a) ↔ AllIn R a := by simp [AllIn, exprs]

@[simp] theorem allIn_pair : AllIn R (a, b) ↔ AllIn R a ∧ AllIn R b := List.forall_mem_append

@[simp] theorem allIn_string {x : String} : AllIn R x := fun _ he => absurd he List.not_mem_nil

@[simp] theorem allIn_append : AllIn R (as ++ as') ↔ AllIn R as ∧ AllIn R as' := by
  simp only [AllIn, exprs, List.flatMap_append, List.forall_mem_append]

@[simp] theorem allIn_lit {t : String} : AllIn R (Part.lit t : Part Expr) :=
  fun _ he => absurd he List.not_mem_nil

@[simp] theorem allIn_code {body : List Expr} : AllIn R (Part.code body) ↔ AllIn R body := Iff.rfl

@[simp] theorem allIn_when {values body : List Expr} :
    AllIn R (When.mk values body) ↔ AllIn R values ∧ AllIn R body := List.forall_mem_append

@[simp] theorem allIn_rescue {classes body : List Expr} {var : Option String} :
    AllIn R (Rescue.mk classes var body) ↔ AllIn R classes ∧ AllIn R body := List.forall_mem_append

@[simp] theorem allIn_lexical : AllIn R (Base.lexical : Base Expr) :=
  fun _ he => absurd he List.not_mem_nil

@[simp] theorem allIn_within {e : Expr} : AllIn R (Base.within e) ↔ R e := allIn_expr

@[simp] theorem allIn_top : AllIn R (Base.top : Base Expr) := fun _ he => absurd he List.not_mem_nil

end AllIn

/-! ## Induction -/

/-- Data that holds no expression larger than itself. -/
class Bounded (α : Type) [SizeOf α] [Holder α] : Prop where
  sizeOf_le : ∀ {a : α} {e : Expr}, e ∈ exprs a → sizeOf e ≤ sizeOf a

open Bounded (sizeOf_le)

section Bounds

variable {α β : Type} [SizeOf α] [SizeOf β] [Holder α] [Holder β] [Bounded α] [Bounded β]

instance : Bounded Expr where
  sizeOf_le h := Nat.le_of_eq (by rw [List.mem_singleton.mp h])

instance : Bounded String where
  sizeOf_le h := absurd h List.not_mem_nil

instance : Bounded (List α) where
  sizeOf_le h := by
    obtain ⟨a, ha, he⟩ := List.mem_flatMap.mp h
    exact Nat.le_of_lt (Nat.lt_of_le_of_lt (sizeOf_le he) (List.sizeOf_lt_of_mem ha))

instance : Bounded (Option α) where
  sizeOf_le {o e} h := by
    cases o with
    | none => exact absurd h List.not_mem_nil
    | some a =>
        have := sizeOf_le (a := a) (by simpa [exprs] using h)
        simp
        omega

theorem sizeOf_le_of_mem_append {a : α} {b : β} {e : Expr} {N : Nat} (h : e ∈ exprs a ++ exprs b)
    (ha : sizeOf a ≤ N) (hb : sizeOf b ≤ N) : sizeOf e ≤ N := by
  rcases List.mem_append.mp h with h | h
  · exact Nat.le_trans (sizeOf_le h) ha
  · exact Nat.le_trans (sizeOf_le h) hb

instance : Bounded (α × β) where
  sizeOf_le {p e} h := by
    obtain ⟨a, b⟩ := p
    refine sizeOf_le_of_mem_append h ?_ ?_ <;> simp <;> omega

instance : Bounded (Part Expr) where
  sizeOf_le {p e} h := by
    cases p with
    | lit t => exact absurd h List.not_mem_nil
    | code body =>
        have := sizeOf_le (a := body) h
        simp
        omega

instance : Bounded (Base Expr) where
  sizeOf_le {b e} h := by
    cases b with
    | within scope =>
        obtain rfl := List.mem_singleton.mp h
        simp
    | _ => exact absurd h List.not_mem_nil

instance : Bounded (Target Expr) where
  sizeOf_le {t e} h := by
    cases t with
    | const base x =>
        have := sizeOf_le (a := base) h
        simp
        omega
    | attr recv x =>
        obtain rfl := List.mem_singleton.mp h
        simp
        omega
    | index recv args =>
        rcases List.mem_cons.mp h with rfl | h
        · simp
          omega
        · have := sizeOf_le (a := args) h
          simp
          omega
    | _ => exact absurd h List.not_mem_nil

instance : Bounded (Params Expr) where
  sizeOf_le {p e} h := by
    obtain ⟨required, optional, rest, block⟩ := p
    have := sizeOf_le (a := optional) h
    simp
    omega

instance : Bounded (Block Expr) where
  sizeOf_le {b e} h := by
    obtain ⟨params, body⟩ := b
    refine sizeOf_le_of_mem_append h ?_ ?_ <;> simp <;> omega

instance : Bounded (When Expr) where
  sizeOf_le {w e} h := by
    obtain ⟨values, body⟩ := w
    refine sizeOf_le_of_mem_append h ?_ ?_ <;> simp <;> omega

instance : Bounded (Rescue Expr) where
  sizeOf_le {r e} h := by
    obtain ⟨classes, var, body⟩ := r
    refine sizeOf_le_of_mem_append h ?_ ?_ <;> simp <;> omega

theorem sizeOf_lt_of_mem_held {fate : Fate} {n : Nesting} {a : α} {N : Nat} (h : sizeOf a < N) :
    ∀ s ∈ heldAs fate n a, sizeOf s.expr < N := by
  intro s hs
  obtain ⟨e, he, rfl⟩ := List.mem_map.mp hs
  exact Nat.lt_of_le_of_lt (sizeOf_le he) h

end Bounds

namespace Expr

/-- A part is smaller than the whole. -/
theorem sizeOf_parts (e : Expr) : ∀ s ∈ e.parts, sizeOf s.expr < sizeOf e := by
  cases e with
  | nil | bool _ | selfRef | int _ | float _ | str _ | sym _ | lvar _ | ivar _ | gvar _
  | aliasMethod _ _ | undef _ => exact fun s hs => absurd hs List.not_mem_nil
  | call c =>
      obtain ⟨recv, name, args, block, arg⟩ := c
      simp only [parts, heldArgument, List.forall_mem_append]
      and_intros
      all_goals
        refine sizeOf_lt_of_mem_held ?_
        simp <;> omega
  | splat _ | not _ | dstr _ | xstr _ | dsym _ | array _ | seq _ | «yield» _ | hash _ | ret _
  | brk _ | nxt _ | const _ _ =>
      refine sizeOf_lt_of_mem_held ?_
      simp <;> omega
  | _ =>
      simp only [parts, heldArgument, List.forall_mem_append]
      and_intros
      all_goals
        refine sizeOf_lt_of_mem_held ?_
        simp <;> omega

/-- A statement holds of an expression if it does so whenever it holds of its parts. -/
theorem induction_on_parts {motive : Expr → Prop} (e : Expr)
    (h : ∀ e, (∀ s ∈ e.parts, motive s.expr) → motive e) : motive e :=
  h e fun s hs =>
    have : sizeOf s.expr < sizeOf e := e.sizeOf_parts s hs
    induction_on_parts s.expr h
termination_by sizeOf e

end Expr

/-! ## Occurrences -/

/-- That `e'` stands at `q` inside of `e`, which stands at `p`. On the way only parts are passed
that `via` allows. -/
inductive Occurs (via : Place → Site → Bool) : Expr → Place → Expr → Place → Prop where
  | here {e : Expr} {p : Place} : Occurs via e p e p
  | inside {e e' : Expr} {p q : Place} {s : Site} (part : s ∈ e.parts) (passes : via p s = true)
      (rest : Occurs via s.expr (p.enter s.nesting) e' q) : Occurs via e p e' q

theorem occurs_iff {via : Place → Site → Bool} {e e' : Expr} {p q : Place} :
    Occurs via e p e' q ↔ (e' = e ∧ q = p) ∨
      ∃ s ∈ e.parts, via p s = true ∧ Occurs via s.expr (p.enter s.nesting) e' q := by
  constructor
  · intro h
    cases h with
    | here => exact Or.inl ⟨rfl, rfl⟩
    | inside hpart hpasses hrest => exact Or.inr ⟨_, hpart, hpasses, hrest⟩
  · rintro (⟨rfl, rfl⟩ | ⟨s, hpart, hpasses, hrest⟩)
    · exact .here
    · exact .inside hpart hpasses hrest

/-- Passes every part. -/
def anywhere (_ : Place) (_ : Site) : Bool := true

/-- Passes the parts that get code. -/
def generated (p : Place) (s : Site) : Bool := s.fate.isGenerated p

/-- That a call in `e` declares `d`. -/
def Expr.Declares (file : String) (via : Place → Site → Bool) (e : Expr) (p : Place)
    (d : Declaration) : Prop :=
  ∃ c q, Occurs via e p (.call c) q ∧ c.declaration? file q.inClass = some d

/-- That `e` assigns to the local variable `x`, which is one of the scope that `e` stands in. -/
def Expr.Assigns (via : Place → Site → Bool) (e : Expr) (p : Place) (x : String) : Prop :=
  ∃ e' q, Occurs (fun p s => via p s && s.nesting.isOwn) e p e' q ∧ x ∈ e'.binds

namespace Expr

variable {file : String} {via : Place → Site → Bool} {e : Expr} {p : Place}

/-- A declaration is one of the expression itself or one of a part. -/
theorem declares_iff {d : Declaration} :
    e.Declares file via p d ↔
      (∃ c, e = .call c ∧ c.declaration? file p.inClass = some d) ∨
        ∃ s ∈ e.parts, via p s = true ∧ s.expr.Declares file via (p.enter s.nesting) d := by
  constructor
  · rintro ⟨c, q, hocc, hd⟩
    rcases occurs_iff.mp hocc with ⟨rfl, rfl⟩ | ⟨s, hs, hvia, hrest⟩
    · exact Or.inl ⟨c, rfl, hd⟩
    · exact Or.inr ⟨s, hs, hvia, c, q, hrest, hd⟩
  · rintro (⟨c, rfl, hd⟩ | ⟨s, hs, hvia, c, q, hrest, hd⟩)
    · exact ⟨c, p, .here, hd⟩
    · exact ⟨c, q, .inside hs hvia hrest, hd⟩

/-- An assignment is the expression itself or stands in a part. -/
theorem assigns_iff {x : String} :
    e.Assigns via p x ↔ x ∈ e.binds ∨
      ∃ s ∈ e.parts, via p s = true ∧ s.nesting.isOwn = true ∧
        s.expr.Assigns via (p.enter s.nesting) x := by
  constructor
  · rintro ⟨e', q, hocc, hx⟩
    rcases occurs_iff.mp hocc with ⟨rfl, rfl⟩ | ⟨s, hs, hvia, hrest⟩
    · exact Or.inl hx
    · rw [Bool.and_eq_true] at hvia
      exact Or.inr ⟨s, hs, hvia.1, hvia.2, e', q, hrest, hx⟩
  · rintro (hx | ⟨s, hs, hvia, hown, e', q, hrest, hx⟩)
    · exact ⟨e, p, .here, hx⟩
    · exact ⟨e', q, .inside hs (by rw [hvia, hown]; rfl) hrest, hx⟩

end Expr

/-- That a call in the program declares `d`. -/
def Program.Declares (program : Program) (file : String) (via : Place → Site → Bool)
    (d : Declaration) : Prop :=
  ∃ e ∈ program.body, e.Declares file via {} d

end RubyJs
