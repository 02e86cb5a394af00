import RubyJs.Proofs.Emission.Declarations
import RubyJs.Proofs.Syntax.Grammar

set_option autoImplicit false

/-! # Who owns a local variable

Reading puts a variable into the innermost scope unless a scope that is seen from there has it.
Generating makes it a variable of the innermost function unless a function that is seen from there
declares it. Both count scopes from the inside out, and a variable belongs to the same scope if both
counts are equal (`Agrees`).

Methods, classes and units see nothing of what is around them, so there the two always agree. A
block sees the scope around it, and the two agree inside of it exactly if they agree where it begins.
They need not: reading goes by the order of the text, generating by the order of the code.

    f(x = 1) { x = 2 }      the argument is read before the block and generated after it
-/

namespace RubyJs

open Holder (exprs)

variable {scopes : List LocalScope} {u : UnitInfo}

/-! ## Owners -/

/-- How many scopes further out the scope is that has the variable `x`. -/
def Reading.ownerIn (x : String) : List LocalScope → Option Nat
  | [] => none
  | s :: outer =>
    if s.names.contains x then some 0
    else if s.inherits then (ownerIn x outer).map (· + 1) else none

namespace GenState

/-- The functions that the current place is in, from the inside out. -/
def frames (s : GenState) : List Frame := s.frame :: s.outer

/-- How many functions further out the nearest function is that declares `x`. Functions around
statements that are used as values belong to the function around them and do not count. -/
def ownerIn (x : String) : List Frame → Option Nat
  | [] => none
  | f :: fs =>
    if f.declares x then some 0
    else (ownerIn x fs).map (· + if f.kind = .wrapper then 0 else 1)

/-- The owner of `x` if it is known. -/
def knownOwner (x : String) (fs : List Frame) : Option Nat :=
  if knownIn x fs then ownerIn x fs else none

end GenState

/-- That `x` belongs to the same scope for reading and for generating. -/
def Agrees (x : String) (scopes : List LocalScope) (fs : List Frame) : Prop :=
  ∃ k, Reading.ownerIn x scopes = some k ∧ GenState.ownerIn x fs = some k

/-- An owner seen from one scope further in, which is the owner itself if there was none. -/
def inward (owner : Option Nat) : Nat := owner.elim 0 (· + 1)

theorem inward_inj {a b : Option Nat} (h : inward a = inward b) : a = b := by
  cases a <;> cases b <;> simp_all [inward]

/-- That one of the functions declares `x`. -/
def Declared (x : String) (fs : List Frame) : Prop := ∃ f ∈ fs, f.declares x = true

/-- The variables that a scope with these parameters and this body binds: the parameters, and what
its own code assigns to. -/
def Binds (params : Params Expr) (body : List Expr) (x : String) : Prop :=
  x ∈ params.names ∨ ∃ e ∈ exprs (params, body), e.Assigns generated {} x

theorem binds_iff {params : Params Expr} {body : List Expr} {x : String} :
    Binds params body x ↔ x ∈ params.positional ∨ params.rest = some x ∨
      params.block = some x ∨ ∃ e ∈ exprs (params, body), e.Assigns generated {} x := by
  simp [Binds, Params.names, or_assoc]

/-! ## Reading -/

/-- The state in which the contents of a scope are read. -/
def ReadState.inside (s : ReadState) (inherits : Bool) : ReadState :=
  { s with scopes := ⟨[], inherits⟩ :: s.scopes }

theorem Reading.ownerIn_eq_none_iff {x : String} :
    Reading.ownerIn x scopes = none ↔ Reading.isLocalIn x scopes = false := by
  induction scopes with
  | nil => exact ⟨fun _ => rfl, fun _ => rfl⟩
  | cons s outer ih =>
      rw [Reading.ownerIn, Reading.isLocalIn]
      cases s.names.contains x <;> cases s.inherits <;> simp [ih]

/-- What is known after a scope was entered belongs to it unless it was known before. -/
theorem Extends.ownerIn {x : String} {inherits : Bool} {outer : List LocalScope}
    (h : Extends (⟨[], inherits⟩ :: outer) scopes) (hx : Reading.isLocalIn x scopes = true) :
    Reading.ownerIn x scopes =
      some (inward (if inherits then Reading.ownerIn x outer else none)) := by
  cases h with
  | @intro _ s' _ hinherits hkeeps hfresh =>
      rw [Reading.ownerIn]
      by_cases hmem : x ∈ s'.names
      · rw [if_pos (List.contains_iff_mem.mpr hmem)]
        -- The name is new in the scope, so none of those around has it.
        have hunknown : (inherits && Reading.isLocalIn x outer) = false := by
          rcases hfresh x hmem with hold | hnew
          · exact absurd hold List.not_mem_nil
          · simpa [Reading.isLocalIn] using hnew
        cases inherits with
        | false => rfl
        | true =>
            rw [if_pos rfl, Reading.ownerIn_eq_none_iff.mpr (by simpa using hunknown)]
            rfl
      · rw [if_neg (by simpa using hmem), hinherits]
        have hcontains : s'.names.contains x = false := by simpa using hmem
        rw [Reading.isLocalIn, hcontains, hinherits, Bool.false_or, Bool.and_eq_true] at hx
        obtain ⟨hinh, hlocal⟩ := hx
        rw [if_pos hinh, if_pos hinh]
        cases howner : Reading.ownerIn x outer with
        | none =>
            rw [Reading.ownerIn_eq_none_iff.mp howner] at hlocal
            cases hlocal
        | some k => rfl

/-- A variable that is known keeps its owner. -/
theorem Extends.ownerIn_eq {x : String} {scopes' : List LocalScope} (h : Extends scopes scopes')
    (hx : Reading.isLocalIn x scopes = true) :
    Reading.ownerIn x scopes' = Reading.ownerIn x scopes := by
  cases h with
  | @intro s s' outer hinherits hkeeps hfresh =>
      have hnames : x ∈ s'.names ↔ x ∈ s.names := by
        refine ⟨fun hmem => (hfresh x hmem).resolve_right fun hnew => ?_, fun hmem => hkeeps hmem⟩
        rw [hx] at hnew
        cases hnew
      have hcontains : s'.names.contains x = s.names.contains x := by
        rw [Bool.eq_iff_iff, List.contains_iff_mem, List.contains_iff_mem, hnames]
      rw [Reading.ownerIn, Reading.ownerIn, hcontains, hinherits]

/-- A name that is known if what was read fits has its owner. -/
theorem Reads.ownerIn {α : Type} {m : Reading α} {S : (String → Prop) → Spec α}
    (hm : ∀ K, Reads .anywhere K True m (S K)) {s t : ReadState} {inherits : Bool} {a : α}
    (hrun : m (s.inside inherits) = .ok (a, t)) {x : String} (hx : ∀ K, (S K).fits a → K x) :
    Reading.ownerIn x t.scopes =
      some (inward (if inherits then Reading.ownerIn x s.scopes else none)) := by
  have hend := hm (Reading.isLocalIn · t.scopes = true) _ (List.cons_ne_nil _ _) trivial _ _ hrun
  exact hend.scopes.ownerIn (hx _ (hend.fits fun _ h => h))

/-- What a scope binds is known when it was read. -/
theorem Binds.known {params : Params Expr} {body : List Expr} {x : String} {K : String → Prop}
    (h : Binds params body x) (hparams : ParamsFit .anywhere K params)
    (hbody : Fits .anywhere K body) : K x := by
  rcases h with h | ⟨e, he, hx⟩
  · exact (hparams.names x h).2
  · have hfits : e.Fits .anywhere K := List.forall_mem_append.mpr ⟨hparams.defaults, hbody⟩ e he
    exact hfits.2.of_uses hx.uses

/-! ## Generating -/

section Frames

variable {x : String} {fs fs' : List Frame}

theorem declared_cons {f : Frame} : Declared x (f :: fs) ↔ f.declares x = true ∨ Declared x fs := by
  simp [Declared]

theorem declared_of_knownIn (h : GenState.knownIn x fs = true) : Declared x fs := by
  induction fs with
  | nil => cases h
  | cons f fs ih =>
      rw [GenState.knownIn, Bool.or_eq_true, Bool.and_eq_true] at h
      exact declared_cons.mpr (h.imp_right fun h => ih h.2)

theorem ownerIn_eq_none_iff : GenState.ownerIn x fs = none ↔ ¬ Declared x fs := by
  induction fs with
  | nil => simp [GenState.ownerIn, Declared]
  | cons f fs ih =>
      rw [GenState.ownerIn, declared_cons]
      cases f.declares x <;> simp [ih]

theorem ownerIn_outline (h : fs'.map Frame.outline = fs.map Frame.outline) :
    GenState.ownerIn x fs' = GenState.ownerIn x fs := by
  refine Frame.eq_of_map_eq h fun hf ih => ?_
  rw [GenState.ownerIn, GenState.ownerIn, Frame.declares_eq hf,
    Frame.kind_eq (Frame.shape_eq hf), ih]

/-- Functions of the same outlines declare the same variables. -/
theorem declared_outline (h : fs'.map Frame.outline = fs.map Frame.outline) :
    Declared x fs' ↔ Declared x fs := by
  rw [← not_iff_not, ← ownerIn_eq_none_iff, ← ownerIn_eq_none_iff, ownerIn_outline h]

/-- A variable that is not new keeps its owner. -/
theorem Grows.ownerIn_eq {new : String → Prop} (h : Grows new fs fs') (hx : ¬ new x) :
    GenState.ownerIn x fs' = GenState.ownerIn x fs := by
  induction h with
  | wrapper _ houtline _ ih =>
      rw [GenState.ownerIn, GenState.ownerIn, Frame.declares_eq houtline,
        Frame.kind_eq (Frame.shape_eq houtline), ih]
  | @owner f f' fs fs' _ hshape hlocals hrest =>
      have hcontains : f'.locals.contains x = f.locals.contains x := by
        rw [Bool.eq_iff_iff, List.contains_iff_mem, List.contains_iff_mem, hlocals]
        exact or_iff_left hx
      rw [GenState.ownerIn, GenState.ownerIn, Frame.declares, Frame.declares,
        Frame.params_eq hshape, hcontains, Frame.kind_eq hshape, ownerIn_outline hrest]

end Frames

/-- Outside of loops the place does not matter for what is assigned. -/
theorem Expr.Assigns.elsewhere {e : Expr} {p p' : Place} {x : String}
    (h : e.Assigns generated p x) (hloop : p.inLoop = p'.inLoop) : e.Assigns generated p' x := by
  obtain ⟨e', q, hocc, hx⟩ := h
  obtain ⟨q', hocc⟩ := hocc.elsewhere (R := fun p p' => p.inLoop = p'.inLoop)
    (fun p p' n h => by cases n <;> simp [Place.enter, h])
    (fun p p' s h => by cases hfate : s.fate <;> simp [generated, Fate.isGenerated, hfate, h]) hloop
  exact ⟨e', q', hocc, hx⟩

/-- What a function with parameters binds beside those that it takes by position. -/
theorem Deed.ofFunction_binds {params : Params Expr} {main : List Expr} {p : Place}
    (hp : p.inLoop = false) (x : String) :
    (∃ a ∈ Deed.ofFunction params main, a.Binds p x) ↔ params.rest = some x ∨
      params.block = some x ∨ ∃ e ∈ exprs (params, main), e.Assigns generated {} x := by
  have hplace : ∀ e : Expr, e.Assigns generated (p.enter .here) x ↔ e.Assigns generated {} x :=
    fun e => ⟨fun h => h.elsewhere hp, fun h => h.elsewhere hp.symm⟩
  have hall : ∀ {α : Type} [Holder α] (a : α),
      (∃ b ∈ Deed.all .here a, b.Binds p x) ↔ ∃ e ∈ exprs a, e.Assigns generated {} x := by
    intro α _ a
    rw [Deed.allAs_binds]
    simp [hplace, Fate.isGenerated, Nesting.isOwn]
  have hname : ∀ o : Option String,
      (∃ b ∈ o.toList.map Deed.binds, b.Binds p x) ↔ o = some x := by
    intro o
    cases o <;> simp [Deed.Binds]
  have hexprs : (∃ e ∈ exprs (params, main), e.Assigns generated {} x) ↔
      (∃ e ∈ exprs params, e.Assigns generated {} x) ∨
        ∃ e ∈ exprs main, e.Assigns generated {} x := by
    simp [exprs, or_and_right, exists_or]
  simp only [Deed.ofFunction, List.mem_append, or_and_right, exists_or, hall, hname, hexprs]
  grind

/-- What the finished function `f` of a scope of this kind declares, with the functions around it
before and after. -/
structure FunctionOf (kind : FrameKind) (params : Params Expr) (main : List Expr) (f : Frame)
    (before after : List Frame) : Prop where
  isScope : kind ≠ .wrapper
  kind_eq : f.kind = kind
  positional : f.params = params.positional
  around : after.map Frame.outline = before.map Frame.outline
  locals : ∀ x, x ∈ f.locals ↔ Binds params main x ∧ x ∉ params.positional ∧
    (kind.seesOuter && GenState.knownIn x before) = false

/-- A function that begins without variables declares those that its scope binds and that are not
known where it stands. -/
theorem functionOf_grows {params : Params Expr} {main : List Expr} {f₀ f : Frame}
    {before after : List Frame} {new : String → Prop} (hkind : f₀.kind ≠ .wrapper)
    (hparams : f₀.params = params.positional) (hstart : f₀.locals = [])
    (hnew : ∀ x, new x ↔ (params.rest = some x ∨ params.block = some x ∨
      ∃ e ∈ exprs (params, main), e.Assigns generated {} x) ∧
        GenState.knownIn x (f₀ :: before) = false)
    (h : Grows new (f₀ :: before) (f :: after)) :
    FunctionOf f₀.kind params main f before after := by
  cases h with
  | wrapper hwrapper => exact absurd hwrapper hkind
  | owner _ hshape hlocals hrest =>
      refine ⟨hkind, Frame.kind_eq hshape, (Frame.params_eq hshape).trans hparams, hrest, ?_⟩
      intro x
      have hknown : GenState.knownIn x (f₀ :: before) = false ↔
          x ∉ params.positional ∧ (f₀.kind.seesOuter && GenState.knownIn x before) = false := by
        rw [GenState.knownIn, Bool.or_eq_false_iff, Frame.declares, hparams, hstart]
        simp
      rw [hlocals, hnew, hstart, hknown, binds_iff]
      grind

theorem functionOf_inFrame {α : Type} {file : String} {params : Params Expr} {main : List Expr}
    {m : Gen α} (hm : ∀ p, Traces file p (Deed.ofFunction params main) m) {f₀ f : Frame}
    (hkind : f₀.kind ≠ .wrapper) (hparams : f₀.params = params.positional)
    (hstart : f₀.locals = []) (hloops : f₀.loops = 0) {g g' : GenState} {a : α}
    (hrun : Gen.inFrame f₀ m g = .ok ((a, f), g')) :
    FunctionOf f₀.kind params main f g.frames g'.frames := by
  obtain ⟨t, hbody, rfl, -, houter⟩ := inFrame_eq_ok hrun
  have hfits : Place.Fits ⟨(g.push f₀).inClassBody, false⟩ (g.push f₀) :=
    ⟨⟨f₀, List.mem_cons_self, hkind⟩, rfl, fun h => absurd h Bool.false_ne_true, fun _ => hloops⟩
  have hgrows := (hm _ _ a t hfits hbody).frames
  have hfunction : FunctionOf f₀.kind params main t.frame g.frames t.outer := by
    refine functionOf_grows hkind hparams hstart (fun x => ?_) hgrows
    rw [Deed.ofFunction_binds rfl]
    rfl
  rw [← houter] at hfunction
  exact hfunction

namespace FunctionOf

variable {kind : FrameKind} {params : Params Expr} {main : List Expr} {f : Frame}
  {before after : List Frame} {x : String}

theorem declares_iff (h : FunctionOf kind params main f before after) :
    f.declares x = true ↔ Binds params main x ∧
      (x ∈ params.positional ∨ (kind.seesOuter && GenState.knownIn x before) = false) := by
  have hbinds : x ∈ params.positional → Binds params main x := fun hx =>
    Or.inl (List.mem_append_left _ (List.mem_append_left _ hx))
  rw [Frame.declares, Bool.or_eq_true, List.contains_iff_mem, List.contains_iff_mem, h.locals,
    h.positional]
  grind

/-- A variable is declared in or around the function exactly if the scope binds it or if it was
declared around before. -/
theorem declared_iff (h : FunctionOf kind params main f before after) :
    Declared x (f :: after) ↔ Binds params main x ∨ Declared x before := by
  rw [declared_cons, declared_outline h.around, h.declares_iff]
  have hknown : GenState.knownIn x before = true → Declared x before := declared_of_knownIn
  grind

/-- The owner that a variable has where the function begins, as far as the function sees it. -/
def ownerAround (kind : FrameKind) (params : Params Expr) (x : String) (before : List Frame) :
    Option Nat :=
  if x ∈ params.positional ∨ kind.seesOuter = false then none else GenState.knownOwner x before

/-- The owner of a variable that the scope binds. -/
theorem ownerIn_eq (h : FunctionOf kind params main f before after) (hx : Binds params main x) :
    GenState.ownerIn x (f :: after) = some (inward (ownerAround kind params x before)) := by
  rw [GenState.ownerIn, ownerIn_outline h.around, h.kind_eq, if_neg h.isScope]
  by_cases hdeclares : f.declares x = true
  · rw [if_pos hdeclares]
    have hnone : ownerAround kind params x before = none := by
      have := (h.declares_iff.mp hdeclares).2
      grind [ownerAround, GenState.knownOwner]
    rw [hnone]
    rfl
  · rw [if_neg hdeclares]
    -- The scope binds the variable and does not declare it, so it is known around.
    have hseen : x ∉ params.positional ∧ kind.seesOuter = true ∧
        GenState.knownIn x before = true := by
      have := mt h.declares_iff.mpr hdeclares
      grind
    have howner : ownerAround kind params x before = GenState.ownerIn x before := by
      grind [ownerAround, GenState.knownOwner]
    rw [howner]
    cases hfound : GenState.ownerIn x before with
    | none => exact absurd (declared_of_knownIn hseen.2.2) (ownerIn_eq_none_iff.mp hfound)
    | some k => rfl

/-- Reading and generating agree in a scope if they agree on what is seen where it begins. -/
theorem agrees_iff (h : FunctionOf kind params main f before after) (hx : Binds params main x)
    {owner : Option Nat} (hread : Reading.ownerIn x scopes = some (inward owner)) :
    Agrees x scopes (f :: after) ↔ owner = ownerAround kind params x before := by
  rw [Agrees, hread, h.ownerIn_eq hx]
  constructor
  · rintro ⟨k, hk, hk'⟩
    exact inward_inj ((Option.some.inj hk).trans (Option.some.inj hk').symm)
  · rintro rfl
    exact ⟨_, rfl, rfl⟩

end FunctionOf

/-! ## Scopes -/

/-- That `t` is the function that was generated in the frame `f`. -/
def Frame.Makes (f : Frame) (t : Script.Term) : Prop :=
  ∃ fn, t = .func fn ∧ fn.locals = f.locals ∧ fn.params = f.params.map Script.Name.user

theorem positional_emitParams (u : UnitInfo) (params : Params Expr) :
    Emission.positional (emitParams u params) =
      params.positional := by
  obtain ⟨required, optional, rest, block⟩ := params
  have hnames : (emitNamed u optional).map Prod.fst = optional.map Prod.fst := by
    induction optional with
    | nil => rfl
    | cons param ps ih =>
        obtain ⟨y, e⟩ := param
        rw [emitNamed, List.map_cons, List.map_cons, ih]
  exact congrArg (required ++ ·) hnames

theorem functionOf_block {b : Block Expr} {g g' : GenState} {t : Script.Term}
    (hrun : Emission.block ⟨emitParams u b.params, emitAll u b.body⟩ g = .ok (t, g')) :
    ∃ f, f.Makes t ∧ FunctionOf .block b.params b.body f g.frames g'.frames := by
  obtain ⟨⟨stmts, f⟩, s, hframe, hrun⟩ := run_bind_eq_ok hrun
  obtain ⟨rfl, rfl⟩ := run_ok_inj hrun
  have hnames := positional_emitParams u b.params
  have hfunction := functionOf_inFrame
    (fun p => blockBody_traces (fun e _ => emit_traced u e p) fun e _ => emit_traced u e p)
    FrameKind.noConfusion hnames rfl rfl hframe
  exact ⟨f, ⟨_, rfl, rfl, by rw [hfunction.positional, ← hnames]⟩, hfunction⟩

theorem functionOf_method {name : String} {params : Params Expr} {main : List Expr}
    {g g' : GenState} {t : Script.Term}
    (hrun : Emission.methodFunction name (emitParams u params) (emitAll u main) g = .ok (t, g')) :
    ∃ f, f.Makes t ∧ FunctionOf .method params main f g.frames g'.frames := by
  obtain ⟨⟨stmts, f⟩, s, hframe, hrun⟩ := run_bind_eq_ok hrun
  obtain ⟨rfl, rfl⟩ := run_ok_inj hrun
  have hnames := positional_emitParams u params
  have hfunction := functionOf_inFrame
    (fun p => methodBody_traces (fun e _ => emit_traced u e p) fun e _ => emit_traced u e p)
    FrameKind.noConfusion hnames rfl rfl hframe
  exact ⟨f, ⟨_, rfl, rfl, by rw [hfunction.positional, ← hnames]⟩, hfunction⟩

/-- A body without parameters. -/
theorem body_ofFunction (u : UnitInfo) (main : List Expr) (p : Place) :
    Traces u.file p (Deed.ofFunction {} main) (Emission.body (emitAll u main) true) :=
  body_traces (fun e _ => emit_traced u e p) true

theorem functionOf_classBody {kind : FrameKind} (hkind : kind.isClassLike = true) {main : List Expr}
    {g g' : GenState} {stmts : List Script.Stmt} {f : Frame}
    (hrun : Gen.inFrame { kind } (Emission.body (emitAll u main) true) g = .ok ((stmts, f), g')) :
    FunctionOf kind {} main f g.frames g'.frames := by
  refine functionOf_inFrame (body_ofFunction u main) ?_ rfl rfl rfl hrun
  rintro rfl
  cases hkind

theorem functionOf_unit {program : Program} {file : String} {g : Generated}
    (h : generate program file = .ok g) :
    ∃ f, f.locals = g.script.locals ∧ FunctionOf .top {} program.body f [] [] := by
  simp only [generate] at h
  split at h
  · cases h
  · rename_i stmts s hrun
    obtain rfl := Except.ok.inj h
    have hgrows := (body_ofFunction _ program.body {} _ _ _ fits_start hrun).frames
    have hfunction : FunctionOf .top {} program.body s.frame [] s.outer := by
      refine functionOf_grows FrameKind.noConfusion rfl rfl (fun x => ?_) hgrows
      rw [Deed.ofFunction_binds rfl]
    have hnil : s.outer = [] := List.map_eq_nil_iff.mp hfunction.around
    rw [hnil] at hfunction
    exact ⟨s.frame, rfl, hfunction⟩

/-- A variable that is known keeps its owner while more code is generated. -/
theorem body_ownerIn_eq {es : List Expr} {ret : Bool} {g g' : GenState} {stmts : List Script.Stmt}
    {x : String} (howner : ∃ f ∈ g.frames, f.kind ≠ .wrapper)
    (hrun : Emission.body (emitAll u es) ret g = .ok (stmts, g'))
    (hx : GenState.knownIn x g.frames = true) :
    GenState.ownerIn x g'.frames = GenState.ownerIn x g.frames := by
  have hfits : Place.Fits ⟨g.inClassBody, decide (0 < g.frame.loops)⟩ g := by
    refine ⟨howner, rfl, fun h => Or.inl (of_decide_eq_true h), fun h => ?_⟩
    have := of_decide_eq_false h
    omega
  have hleaves := body_traces (fun e _ => emit_traced u e _) ret _ _ _ hfits hrun
  refine hleaves.frames.ownerIn_eq ?_
  rintro ⟨-, hunknown⟩
  rw [show GenState.knownIn x (g.frame :: g.outer) = true from hx] at hunknown
  cases hunknown

/-- In blocks, methods, the bodies of classes and modules, and units, a variable is declared where
code is generated exactly if that code binds it or if it was declared around. Where the code binds
it, reading and generating agree on who owns it, in blocks under a condition: that they agree where
the block begins, or, for a parameter, that reading did not know its name there. Neither changes the
owner of a variable later. -/
theorem owners_agree (file text : String) (n : Nat) (u : UnitInfo) (x : String) :
    (∀ (close : TokenKind) (s s₁ : ReadState) (b : Block Expr) (g g' : GenState) (t : Script.Term),
      Grammar.blockContents (Rules.level file text n) close (s.inside true) = .ok (b, s₁) →
      Emission.block ⟨emitParams u b.params, emitAll u b.body⟩ g = .ok (t, g') →
      ∃ f, f.Makes t ∧
        (x ∈ f.locals ↔ Binds b.params b.body x ∧ x ∉ b.params.positional ∧
          GenState.knownIn x g.frames = false) ∧
        (Declared x (f :: g'.frames) ↔ Binds b.params b.body x ∨ Declared x g.frames) ∧
        (Binds b.params b.body x →
          (Agrees x s₁.scopes (f :: g'.frames) ↔ Reading.ownerIn x s.scopes =
            if x ∈ b.params.positional then none else GenState.knownOwner x g.frames))) ∧
    (∀ (s s₁ : ReadState) (name : String) (params : Params Expr) (body : List Expr)
        (g g' : GenState) (t : Script.Term),
      Grammar.methodContents (Rules.level file text n) (s.inside false) =
        .ok ((params, body), s₁) →
      Emission.methodFunction name (emitParams u params) (emitAll u body) g = .ok (t, g') →
      ∃ f, f.Makes t ∧
        (Declared x (f :: g'.frames) ↔ Binds params body x ∨ Declared x g.frames) ∧
        (Binds params body x → Agrees x s₁.scopes (f :: g'.frames))) ∧
    (∀ (s s₁ : ReadState) (kind : FrameKind) (body : List Expr) (g g' : GenState)
        (stmts : List Script.Stmt) (f : Frame), kind.isClassLike = true →
      (Rules.level file text n).stmts (s.inside false) = .ok (body, s₁) →
      Gen.inFrame { kind } (Emission.body (emitAll u body) true) g = .ok ((stmts, f), g') →
        (Declared x (f :: g'.frames) ↔ Binds {} body x ∨ Declared x g.frames) ∧
        (Binds {} body x → Agrees x s₁.scopes (f :: g'.frames))) ∧
    (∀ (program : Program) (g : Generated), parse file text = .ok program →
      generate program file = .ok g →
      ∃ l s₁ f, lex text = .ok l ∧
        Grammar.stmts (Rules.level file text (text.utf8ByteSize + 1))
          ⟨Stream.ofLexed l, [⟨[], false⟩], 0⟩ = .ok (program.body, s₁) ∧
        f.params = [] ∧ f.locals = g.script.locals ∧
        (Declared x [f] ↔ Binds {} program.body x) ∧
        (Binds {} program.body x → Agrees x s₁.scopes [f])) ∧
    (∀ (s s₁ : ReadState) (body : List Expr),
      (Rules.level file text n).stmts s = .ok (body, s₁) →
      Reading.isLocalIn x s.scopes = true →
      Reading.ownerIn x s₁.scopes = Reading.ownerIn x s.scopes) ∧
    (∀ (body : List Expr) (ret : Bool) (stmts : List Script.Stmt) (g g' : GenState),
      (∃ f ∈ g.frames, f.kind ≠ .wrapper) →
      Emission.body (emitAll u body) ret g = .ok (stmts, g') →
      GenState.knownIn x g.frames = true →
      GenState.ownerIn x g'.frames = GenState.ownerIn x g.frames) := by
  have hr : ∀ n, (Rules.level file text n).Fit .anywhere :=
    fun n => fit_level n (.free fun _ => trivial)
  refine ⟨?_, ?_, ?_, ?_, ?_, ?_⟩
  · intro close s s₁ b g g' t hread hgen
    obtain ⟨f, hmakes, hf⟩ := functionOf_block hgen
    refine ⟨f, hmakes, hf.locals x, hf.declared_iff, fun hx => ?_⟩
    rw [hf.agrees_iff hx (Reads.ownerIn (fun _ => Reads.blockContents (hr n) close) hread
      fun _ hb => hx.known hb.1 hb.2)]
    simp [FunctionOf.ownerAround, FrameKind.seesOuter]
  · intro s s₁ name params body g g' t hread hgen
    obtain ⟨f, hmakes, hf⟩ := functionOf_method hgen
    refine ⟨f, hmakes, hf.declared_iff, fun hx => ?_⟩
    rw [hf.agrees_iff hx (Reads.ownerIn (fun _ => Reads.methodBase (hr n)) hread
      fun _ hm => hx.known hm.1 hm.2)]
    simp [FunctionOf.ownerAround, FrameKind.seesOuter]
  · intro s s₁ kind body g g' stmts f hkind hread hgen
    have hf := functionOf_classBody hkind hgen
    refine ⟨hf.declared_iff, fun hx => ?_⟩
    have hcloses : kind.seesOuter = false := by cases kind <;> first | rfl | cases hkind
    rw [hf.agrees_iff hx (Reads.ownerIn (fun _ => (hr n).stmts) hread fun _ => hx.known .empty)]
    simp [FunctionOf.ownerAround, hcloses]
  · intro program g hparse hgen
    obtain ⟨l, hlex, hbody⟩ := parse_eq_ok hparse
    obtain ⟨s₁, hread⟩ := readBody_eq_ok hbody
    obtain ⟨f, hlocals, hf⟩ := functionOf_unit hgen
    refine ⟨l, s₁, f, hlex, hread, hf.positional, hlocals, ?_, fun hx => ?_⟩
    · rw [hf.declared_iff]
      simp [Declared]
    · have hstart := Reads.ownerIn (fun _ => Reads.stmts (hr _))
        (s := ⟨Stream.ofLexed l, [], 0⟩) hread fun _ => hx.known .empty
      rw [hf.agrees_iff hx hstart]
      simp [FunctionOf.ownerAround, FrameKind.seesOuter]
  · intro s s₁ body hread hx
    have hscopes : s.scopes ≠ [] := by
      intro hnil
      rw [hnil] at hx
      cases hx
    have hreads : Reads .anywhere (fun _ => True) True (Rules.level file text n).stmts _ := (hr n).stmts
    exact (hreads s hscopes trivial body s₁ hread).scopes.ownerIn_eq hx
  · intro body ret stmts g g' howner hgen hx
    exact body_ownerIn_eq howner hgen hx

/-- `f(x = 1) { x = 2 }` where the block begins: reading has put `x` into the scope around it. -/
def argumentRead : ReadState where
  tokens := ⟨some ⟨.lbrace, ⟨9, 10⟩, true⟩, ⟨.ident "x", ⟨11, 12⟩, true⟩,
    [⟨.assign, ⟨13, 14⟩, true⟩, ⟨.int "2", ⟨15, 16⟩, true⟩, ⟨.rbrace, ⟨17, 18⟩, true⟩,
      Token.endOfInput 18]⟩
  scopes := [⟨["x"], false⟩]
  noDo := 0

/-- The block of `f(x = 1) { x = 2 }`. -/
def assigningBlock : Block Expr := ⟨{}, [.assign (.lvar "x") (.int "2")]⟩

/-- The block is generated before the argument, so `x` becomes a variable of the block, although for
reading it belongs to the scope around. -/
theorem owners_agree_argument : ∃ s₁ t g' f,
    Grammar.blockContents (Rules.level "main" "f(x = 1) \x7b x = 2 \x7d" 19) .rbrace
      (argumentRead.inside true) = .ok (assigningBlock, s₁) ∧
    Emission.block ⟨emitParams ⟨"main", false⟩ assigningBlock.params,
      emitAll ⟨"main", false⟩ assigningBlock.body⟩ { frame := { kind := .top } } = .ok (t, g') ∧
    f.Makes t ∧ "x" ∈ f.locals ∧ ¬ Agrees "x" s₁.scopes (f :: g'.frames) := by
  have hread : ∃ s₁, Grammar.blockContents (Rules.level "main" "f(x = 1) \x7b x = 2 \x7d" 19)
      .rbrace (argumentRead.inside true) = .ok (assigningBlock, s₁) := ⟨_, rfl⟩
  have hgen : ∃ t g', Emission.block ⟨emitParams ⟨"main", false⟩ assigningBlock.params,
      emitAll ⟨"main", false⟩ assigningBlock.body⟩ { frame := { kind := .top } } = .ok (t, g') :=
    ⟨_, _, rfl⟩
  obtain ⟨s₁, hread⟩ := hread
  obtain ⟨t, g', hgen⟩ := hgen
  have hbinds : Binds assigningBlock.params assigningBlock.body "x" :=
    Or.inr ⟨_, List.mem_singleton_self _, _, _, .here, List.mem_singleton_self _⟩
  obtain ⟨f, hmakes, hlocals, -, hagrees⟩ :=
    (owners_agree "main" "f(x = 1) \x7b x = 2 \x7d" 19 ⟨"main", false⟩ "x").1
      _ _ _ _ _ _ _ hread hgen
  refine ⟨s₁, t, g', f, hread, hgen, hmakes, hlocals.mpr ⟨hbinds, by decide, by decide⟩, ?_⟩
  rw [hagrees hbinds]
  decide

end RubyJs
