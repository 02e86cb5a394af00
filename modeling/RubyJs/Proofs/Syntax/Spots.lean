import RubyJs.Proofs.Syntax.Parts

set_option autoImplicit false

/-! # Where an expression may jump

A `break` or `next` belongs to a loop or a block. It is at home in the statement positions of its body:
the statements of the body, and those of the branches of a conditional, a `case`, a `begin` or
a sequence that is itself in such a position. A `super` belongs to a method, also from inside of blocks.

    while a
      if b then break end        a statement of the body
      c(break)                   none
    end

`Expr.stances` lists the parts of an expression like `Expr.parts`, and says of each whether it is
a statement. A `Spot` is what is known of a place in a tree, and `Stands` follows parts of parts from
spot to spot.
-/

namespace RubyJs

open Holder (exprs)

/-! ## Spots -/

/-- A place in a tree, as far as jumps and `super` go. -/
structure Spot where
  /-- Whether the nearest scope around it that is no block is a method. -/
  inMethod : Bool := false
  /-- Whether a loop is around it in the same function. -/
  inLoop : Bool := false
  /-- Whether it is a statement position of the body of a loop or block. -/
  takesJump : Bool := false
deriving DecidableEq, Repr

/-- A part of an expression, and whether it is a statement: of a body, or of a branch. -/
structure Stance extends Site where
  isStatement : Bool

namespace Spot

/-- The spot of a part that stands so. -/
def within (c : Spot) (n : Nesting) (isStatement : Bool) : Spot :=
  match n with
  | .here => { c with takesJump := isStatement && c.takesJump }
  | .loop => { c with inLoop := true, takesJump := isStatement }
  | .block => { c with inLoop := false, takesJump := isStatement }
  | .method => { inMethod := true }
  | .classBody => {}

/-- The spot of a part. -/
def enter (c : Spot) (s : Stance) : Spot := c.within s.nesting s.isStatement

/-- The spot of a part that is no statement. -/
def apart (c : Spot) : Spot := c.within .here false

/-- The place of a spot, where only loops count. -/
def place (c : Spot) : Place := { inLoop := c.inLoop }

@[simp] theorem apart_takesJump (c : Spot) : c.apart.takesJump = false := rfl

theorem within_here_true (c : Spot) : c.within .here true = c := by
  obtain ⟨inMethod, inLoop, takesJump⟩ := c
  simp [Spot.within]

end Spot

/-! ## Parts -/

/-- The expressions that `a` holds, as parts that stand alike. -/
def standing {α : Type} [Holder α] (n : Nesting) (isStatement : Bool) (a : α)
    (fate : Fate := .always) : List Stance :=
  (exprs a).map fun e => ⟨⟨e, n, fate⟩, isStatement⟩

/-- The parts of a block: the defaults of its parameters, and its statements. -/
def blockStances (block : Option (Block Expr)) : List Stance :=
  standing .block false (block.map Block.params) ++ standing .block true (block.map Block.body)

/-- The parts of clauses of a `case`: the values, and the statements. -/
def whenStances (ws : List (When Expr)) : List Stance :=
  standing .here false (ws.map When.values) ++ standing .here true (ws.map When.body)

/-- The parts of clauses that handle errors: the classes, and the statements. -/
def rescueStances (rs : List (Rescue Expr)) : List Stance :=
  standing .here false (rs.map Rescue.classes) ++ standing .here true (rs.map Rescue.body)

/-- The argument `&e` of a call as a part: beside a block it gets no code. -/
def argumentStances (block : Option (Block Expr)) (arg : Option Expr) : List Stance :=
  standing .here false arg (if block.isSome then .never else .always)

namespace Expr

/-- The expressions that an expression holds directly, and how they stand. -/
def stances : Expr → List Stance
  | dstr ps | xstr ps | dsym ps => standing .here false ps
  | array es | .yield es => standing .here false es
  | seq es => standing .here true es
  | hash ps => standing .here false ps
  | range a b _ | .and a b | .or a b => standing .here false a ++ standing .here false b
  | const base _ => standing .here false base
  | assign t v | opAssign t _ v => standing .here false t ++ standing .here false v
  | call ⟨recv, _, args, block, arg⟩ =>
    standing .here false recv ++ standing .here false args ++ blockStances block ++
      argumentStances block arg
  | splat e | .not e => standing .here false e
  | ifElse c t e => standing .here false c ++ standing .here true t ++ standing .here true e
  | ternary c t e => standing .here false c ++ standing .here true t ++ standing .here true e
  | loop c b _ _ => standing .here false c ++ standing .loop true b
  | caseOf s ws e => standing .here false s ++ whenStances ws ++ standing .here true e
  | .begin b rs e f =>
    standing .here true b ++ rescueStances rs ++ standing .here true e ++ standing .here true f
  | ret v => standing .here false v
  | brk v | nxt v => standing .here false v .outsideLoops
  | super args block arg =>
    standing .here false args ++ blockStances block ++ argumentStances block arg
  | define s _ p b =>
    standing .here false s ++ standing .method false p ++ standing .method true b
  | classDef base _ s b =>
    standing .here false base ++ standing .here false s ++ standing .classBody true b
  | moduleDef base _ b => standing .here false base ++ standing .classBody true b
  | singletonDef t b => standing .here false t ++ standing .classBody true b
  | nil | bool _ | selfRef | int _ | float _ | str _ | sym _ | lvar _ | ivar _ | gvar _
  | aliasMethod _ _ | undef _ => []

/-- The block that an expression is given. -/
def block? : Expr → Option (Block Expr)
  | call c => c.block
  | super _ block _ => block
  | _ => none

end Expr

section Standing

variable {α β : Type} [Holder α] [Holder β] {n : Nesting} {isStatement : Bool} {fate : Fate} {a : α}
  {b : β}

theorem forall_mem_standing {P : Stance → Prop} : (∀ s ∈ standing n isStatement a fate, P s) ↔
    ∀ e ∈ exprs a, P ⟨⟨e, n, fate⟩, isStatement⟩ := by
  simp [standing]

/-- That what stands so are parts. -/
def AreSites (ss : List Stance) (sites : List Site) : Prop := ∀ s ∈ ss, s.toSite ∈ sites

theorem AreSites.append {ss ss' : List Stance} {sites sites' : List Site} (h : AreSites ss sites)
    (h' : AreSites ss' sites') : AreSites (ss ++ ss') (sites ++ sites') :=
  List.forall_mem_append.mpr
    ⟨fun s hs => List.mem_append_left _ (h s hs), fun s hs => List.mem_append_right _ (h' s hs)⟩

theorem standing_sites (h : exprs a ⊆ exprs b) :
    AreSites (standing n isStatement a fate) (heldAs fate n b) :=
  forall_mem_standing.mpr fun _ he => List.mem_map_of_mem (h he)

theorem standing_self : AreSites (standing n isStatement a fate) (heldAs fate n a) :=
  standing_sites (List.Subset.refl _)

theorem exprs_map_subset {f : α → β} (h : ∀ a, exprs (f a) ⊆ exprs a) (as : List α) :
    exprs (as.map f) ⊆ exprs as := by
  intro e he
  simp only [exprs, List.flatMap_map, List.mem_flatMap] at he ⊢
  obtain ⟨a, ha, he⟩ := he
  exact ⟨a, ha, h a he⟩

end Standing

theorem blockStances_sites (block : Option (Block Expr)) :
    AreSites (blockStances block) (held .block block) := by
  cases block with
  | none => exact fun s hs => absurd hs List.not_mem_nil
  | some b =>
      refine List.forall_mem_append.mpr ⟨standing_sites ?_, standing_sites ?_⟩
      · simp [exprs]
      · simp [exprs]

theorem whenStances_sites (ws : List (When Expr)) : AreSites (whenStances ws) (held .here ws) :=
  List.forall_mem_append.mpr
    ⟨standing_sites (exprs_map_subset (fun _ => List.subset_append_left _ _) ws),
      standing_sites (exprs_map_subset (fun _ => List.subset_append_right _ _) ws)⟩

theorem rescueStances_sites (rs : List (Rescue Expr)) :
    AreSites (rescueStances rs) (held .here rs) :=
  List.forall_mem_append.mpr
    ⟨standing_sites (exprs_map_subset (fun _ => List.subset_append_left _ _) rs),
      standing_sites (exprs_map_subset (fun _ => List.subset_append_right _ _) rs)⟩

/-- What stands in an expression is a part of it. -/
theorem Expr.stances_sites (e : Expr) : AreSites e.stances e.parts := by
  cases e with
  | nil | bool _ | selfRef | int _ | float _ | str _ | sym _ | lvar _ | ivar _ | gvar _
  | aliasMethod _ _ | undef _ => exact fun s hs => absurd hs List.not_mem_nil
  | dstr _ | xstr _ | dsym _ | array _ | «yield» _ | seq _ | hash _ | const _ _ | splat _ | not _
  | ret _ | brk _ | nxt _ => exact standing_self
  | range _ _ _ | and _ _ | or _ _ | assign _ _ | opAssign _ _ _ | loop _ _ _ _ | moduleDef _ _ _
  | singletonDef _ _ => exact standing_self.append standing_self
  | ifElse _ _ _ | ternary _ _ _ | define _ _ _ _ | classDef _ _ _ _ =>
      exact (standing_self.append standing_self).append standing_self
  | caseOf _ ws _ => exact (standing_self.append (whenStances_sites ws)).append standing_self
  | «begin» _ rs _ _ =>
      exact ((standing_self.append (rescueStances_sites rs)).append standing_self).append standing_self
  | «super» _ block _ =>
      exact (standing_self.append (blockStances_sites block)).append standing_self
  | call c =>
      obtain ⟨recv, name, args, block, arg⟩ := c
      exact ((standing_self.append standing_self).append (blockStances_sites block)).append
        standing_self

theorem allIn_standing {α : Type} [Holder α] {a : α} {P : Stance → Prop} {n : Nesting}
    {isStatement : Bool} {fate : Fate} :
    (∀ s ∈ standing n isStatement a fate, P s) ↔
      AllIn (fun e => P ⟨⟨e, n, fate⟩, isStatement⟩) a := forall_mem_standing

/-! ## Occurrences -/

/-- That `e'` stands at the spot `d` inside of `e`, which stands at `c`. On the way only parts are
passed that `via` allows. -/
inductive Stands (via : Spot → Stance → Bool) : Expr → Spot → Expr → Spot → Prop where
  | here {e : Expr} {c : Spot} : Stands via e c e c
  | inside {e e' : Expr} {c d : Spot} {s : Stance} (part : s ∈ e.stances) (passes : via c s = true)
      (rest : Stands via s.expr (c.enter s) e' d) : Stands via e c e' d

/-- Passes every part. -/
def everywhere (_ : Spot) (_ : Stance) : Bool := true

/-- Passes the parts that get code. -/
def coded (c : Spot) (s : Stance) : Bool := s.fate.isGenerated c.place

/-- That `e` stands at the spot `d` of a unit. -/
def Program.Stands (program : Program) (via : Spot → Stance → Bool) (e : Expr) (d : Spot) : Prop :=
  ∃ stmt ∈ program.body, RubyJs.Stands via stmt {} e d

end RubyJs
