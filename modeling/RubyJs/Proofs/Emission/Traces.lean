import Mathlib.Logic.Basic
import RubyJs.Emission.Tree
import RubyJs.Proofs.Runs
import RubyJs.Proofs.Syntax.Parts

set_option autoImplicit false

/-! # What code generation leaves behind

Generating a piece of a tree leaves declarations and local variables in the state. Which ones is
said by a list of deeds: the parts that were generated, and what the piece did itself
(`Deed`). `Leaves` is what the list says about the state before and after, `Traces` that a
computation leaves what its list says whenever it succeeds. Lists are put together as computations
are, so that each construct has the list of its parts.

The local variables of all frames are followed, because a variable goes to the nearest frame that is
no wrapper, and only if no frame that is seen from there knows it:

    top  [x]              x = 1; f { x = 2; y = 3 }
    └ block  [y]          y is new in the block, x is not
-/

namespace RubyJs

variable {n : Nesting}

/-! ## Frames -/

/-- What generating inside of a frame never changes. -/
def Frame.shape (f : Frame) : FrameKind × List String × Nat := (f.kind, f.params, f.loops)

/-- What generating in a frame further in never changes. -/
def Frame.outline (f : Frame) : (FrameKind × List String × Nat) × List String :=
  (f.shape, f.locals)

/-- That the nearest frame that is no wrapper has got the local variables in `new`, and no frame any
other. -/
inductive Grows (new : String → Prop) : List Frame → List Frame → Prop where
  | wrapper {f f' : Frame} {fs fs' : List Frame} (kind : f.kind = .wrapper)
      (outline : f'.outline = f.outline) (rest : Grows new fs fs') : Grows new (f :: fs) (f' :: fs')
  | owner {f f' : Frame} {fs fs' : List Frame} (kind : f.kind ≠ .wrapper)
      (shape : f'.shape = f.shape) (locals : ∀ x, x ∈ f'.locals ↔ x ∈ f.locals ∨ new x)
      (rest : fs'.map Frame.outline = fs.map Frame.outline) : Grows new (f :: fs) (f' :: fs')

namespace Frame

variable {f f' : Frame}

theorem kind_eq (h : f'.shape = f.shape) : f'.kind = f.kind := congrArg (·.1) h

theorem params_eq (h : f'.shape = f.shape) : f'.params = f.params := congrArg (·.2.1) h

theorem loops_eq (h : f'.shape = f.shape) : f'.loops = f.loops := congrArg (·.2.2) h

theorem shape_eq (h : f'.outline = f.outline) : f'.shape = f.shape := congrArg (·.1) h

theorem locals_eq (h : f'.outline = f.outline) : f'.locals = f.locals := congrArg (·.2) h

theorem declares_eq (h : f'.outline = f.outline) (x : String) : f'.declares x = f.declares x := by
  rw [declares, declares, params_eq (shape_eq h), locals_eq h]

/-- What reads frames one after the other, each by its key, reads the same of the same keys. -/
theorem eq_of_map_eq {α β : Type} {key : Frame → α} {read : List Frame → β} {fs fs' : List Frame}
    (h : fs'.map key = fs.map key)
    (hstep : ∀ {f f' fs fs'}, key f' = key f → read fs' = read fs →
      read (f' :: fs') = read (f :: fs)) : read fs' = read fs := by
  induction fs generalizing fs' with
  | nil => rw [List.map_eq_nil_iff.mp h]
  | cons f fs ih =>
      obtain ⟨f', fs', rfl, hf, hfs⟩ := List.map_eq_cons_iff.mp h
      exact hstep hf (ih hfs)

end Frame

/-- Frames of the same outlines know the same variables. -/
theorem knownIn_outline {x : String} {fs fs' : List Frame}
    (h : fs'.map Frame.outline = fs.map Frame.outline) :
    GenState.knownIn x fs' = GenState.knownIn x fs := by
  refine Frame.eq_of_map_eq h fun hf ih => ?_
  rw [GenState.knownIn, GenState.knownIn, Frame.declares_eq hf,
    Frame.kind_eq (Frame.shape_eq hf), ih]

namespace Grows

variable {new : String → Prop} {fs fs' : List Frame}

/-- Frames that are no others have got no variables. -/
theorem of_outline (howner : ∃ f ∈ fs, f.kind ≠ .wrapper) (hnew : ∀ x, ¬ new x)
    (h : fs'.map Frame.outline = fs.map Frame.outline) : Grows new fs fs' := by
  induction fs generalizing fs' with
  | nil =>
      obtain ⟨f, hf, -⟩ := howner
      exact absurd hf List.not_mem_nil
  | cons f fs ih =>
      obtain ⟨f', fs', rfl, hf, hfs⟩ := List.map_eq_cons_iff.mp h
      by_cases hkind : f.kind = .wrapper
      · obtain ⟨o, ho, hne⟩ := howner
        rcases List.mem_cons.mp ho with rfl | ho
        · exact absurd hkind hne
        · exact .wrapper hkind hf (ih ⟨o, ho, hne⟩ hfs)
      · refine .owner hkind (Frame.shape_eq hf) (fun x => ?_) hfs
        rw [Frame.locals_eq hf]
        exact (or_iff_left (hnew x)).symm

theorem shapes (h : Grows new fs fs') : fs'.map Frame.shape = fs.map Frame.shape := by
  induction h with
  | wrapper _ houtline _ ih => rw [List.map_cons, List.map_cons, Frame.shape_eq houtline, ih]
  | owner _ hshape _ hrest =>
      have := congrArg (List.map Prod.fst) hrest
      rw [List.map_map, List.map_map] at this
      rw [List.map_cons, List.map_cons, hshape]
      exact congrArg _ this

theorem kinds (h : Grows new fs fs') : fs'.map (·.kind) = fs.map (·.kind) := by
  have := congrArg (List.map Prod.fst) h.shapes
  rwa [List.map_map, List.map_map] at this

/-- What is known afterwards was known before or is new. -/
theorem knownIn_iff (h : Grows new fs fs') (x : String) :
    GenState.knownIn x fs' = true ↔ GenState.knownIn x fs = true ∨ new x := by
  induction h with
  | @wrapper f f' fs fs' hkind houtline _ ih =>
      have hsees : f.kind.seesOuter = true := by rw [hkind]; rfl
      rw [GenState.knownIn, GenState.knownIn, Frame.declares_eq houtline,
        Frame.kind_eq (Frame.shape_eq houtline), hsees, Bool.true_and, Bool.true_and,
        Bool.or_eq_true, Bool.or_eq_true, ih, or_assoc]
  | @owner f f' fs fs' hkind hshape hlocals hrest =>
      rw [GenState.knownIn, GenState.knownIn, knownIn_outline hrest, Frame.kind_eq hshape,
        Bool.or_eq_true, Bool.or_eq_true, Frame.declares, Frame.declares, Frame.params_eq hshape,
        Bool.or_eq_true, Bool.or_eq_true, List.contains_iff_mem, List.contains_iff_mem,
        List.contains_iff_mem, hlocals]
      grind

theorem trans {new' : String → Prop} {fs'' : List Frame} (h : Grows new fs fs')
    (h' : Grows new' fs' fs'') : Grows (fun x => new x ∨ new' x) fs fs'' := by
  induction h generalizing fs'' with
  | wrapper hkind houtline _ ih =>
      cases h' with
      | wrapper _ houtline' hrest' => exact .wrapper hkind (houtline'.trans houtline) (ih hrest')
      | owner hkind' => exact absurd (Frame.kind_eq (Frame.shape_eq houtline) ▸ hkind) hkind'
  | owner hkind hshape hlocals hrest =>
      cases h' with
      | wrapper hkind' => exact absurd (Frame.kind_eq hshape ▸ hkind') hkind
      | owner _ hshape' hlocals' hrest' =>
          refine .owner hkind (hshape'.trans hshape) (fun x => ?_) (hrest'.trans hrest)
          rw [hlocals', hlocals, or_assoc]

theorem congr {new' : String → Prop} (h : Grows new fs fs') (hnew : ∀ x, new x ↔ new' x) :
    Grows new' fs fs' := by
  rwa [← funext fun x => propext (hnew x)]

end Grows

/-! ## Deeds -/

/-- What generating a piece of a tree can do. -/
inductive Deed where
  /-- Generates a part. -/
  | part (s : Site)
  | declares (d : Declaration)
  /-- Assigns to a local variable. -/
  | binds (name : String)

namespace Deed

/-- That a deed at `p` leaves the declaration `d`. -/
def Notes (file : String) (p : Place) (d : Declaration) : Deed → Prop
  | part s => s.fate.isGenerated p = true ∧ s.expr.Declares file generated (p.enter s.nesting) d
  | declares d' => d' = d
  | binds _ => False

/-- That a deed at `p` assigns to the local variable `x` of the scope at `p`. -/
def Binds (p : Place) (x : String) : Deed → Prop
  | part s => s.fate.isGenerated p = true ∧ s.nesting.isOwn = true ∧
      s.expr.Assigns generated (p.enter s.nesting) x
  | declares _ => False
  | binds y => y = x

end Deed

/-- What some deeds leave behind, from one state to another. -/
structure Leaves (file : String) (p : Place) (deeds : List Deed) (s t : GenState) : Prop where
  declarations : ∀ d, d ∈ t.declarations ↔ d ∈ s.declarations ∨ ∃ a ∈ deeds, a.Notes file p d
  frames : Grows (fun x => (∃ a ∈ deeds, a.Binds p x) ∧
    GenState.knownIn x (s.frame :: s.outer) = false) (s.frame :: s.outer) (t.frame :: t.outer)

/-- That a state is one at the place `p`. -/
structure Place.Fits (p : Place) (s : GenState) : Prop where
  owner : ∃ f ∈ s.frame :: s.outer, f.kind ≠ .wrapper
  inClass : s.inClassBody = p.inClass
  /-- In a loop, the loop is counted, or a wrapper or something else than a block came between,
  where no jump leaves it. -/
  inLoop : p.inLoop = true → 0 < s.frame.loops ∨ s.frame.kind ≠ .block
  outsideLoops : p.inLoop = false → s.frame.loops = 0

/-- That a computation at `p` leaves behind what the deeds say. -/
def Traces {α : Type} (file : String) (p : Place) (deeds : List Deed) (g : Gen α) : Prop :=
  ∀ s a t, p.Fits s → g s = .ok (a, t) → Leaves file p deeds s t

/-- Whether a state is in the body of a class hangs on the kinds of its frames. -/
theorem inClassBody_eq (s : GenState) : s.inClassBody =
    (((s.frame :: s.outer).map (·.kind)).find? (!·.seesOuter)).elim false (·.isClassLike) := by
  rw [GenState.inClassBody, GenState.returnFrame?, List.find?_map]
  change _ = (((s.frame :: s.outer).find? Frame.ownsReturn).map (·.kind)).elim _ _
  cases (s.frame :: s.outer).find? Frame.ownsReturn <;> rfl

namespace Leaves

variable {file : String} {p : Place} {deeds deeds' : List Deed} {s t u : GenState}

theorem fits (h : Leaves file p deeds s t) (hp : p.Fits s) : p.Fits t := by
  have hkinds := h.frames.kinds
  have hframe := (List.cons.inj h.frames.shapes).1
  refine ⟨?_, ?_, ?_, ?_⟩
  · obtain ⟨f, hf, hne⟩ := hp.owner
    have hmem : f.kind ∈ (t.frame :: t.outer).map (·.kind) := hkinds ▸ List.mem_map_of_mem hf
    obtain ⟨f', hf', heq⟩ := List.mem_map.mp hmem
    exact ⟨f', hf', heq ▸ hne⟩
  · rw [inClassBody_eq, hkinds, ← inClassBody_eq]
    exact hp.inClass
  · rw [Frame.loops_eq hframe, Frame.kind_eq hframe]
    exact hp.inLoop
  · rw [Frame.loops_eq hframe]
    exact hp.outsideLoops

theorem trans (h : Leaves file p deeds s t) (h' : Leaves file p deeds' t u) :
    Leaves file p (deeds ++ deeds') s u := by
  refine ⟨fun d => ?_, ?_⟩
  · rw [h'.declarations, h.declarations, or_assoc]
    simp only [List.mem_append, or_and_right, exists_or]
  · refine (h.frames.trans h'.frames).congr fun x => ?_
    have hknown := h.frames.knownIn_iff x
    simp only [List.mem_append, or_and_right, exists_or]
    grind

/-- Nothing is left behind by what keeps declarations and the outlines of the frames. -/
theorem of_outline (hp : p.Fits s) (hdecl : t.declarations = s.declarations)
    (hframes : (t.frame :: t.outer).map Frame.outline = (s.frame :: s.outer).map Frame.outline) :
    Leaves file p [] s t := by
  refine ⟨fun d => ?_, Grows.of_outline hp.owner ?_ hframes⟩
  · rw [hdecl]
    simp
  · simp

theorem congr (h : Leaves file p deeds s t)
    (hnotes : ∀ d, (∃ a ∈ deeds, a.Notes file p d) ↔ ∃ a ∈ deeds', a.Notes file p d)
    (hbinds : ∀ x, (∃ a ∈ deeds, a.Binds p x) ↔ ∃ a ∈ deeds', a.Binds p x) :
    Leaves file p deeds' s t := by
  refine ⟨fun d => ?_, h.frames.congr fun x => ?_⟩
  · rw [h.declarations, hnotes]
  · rw [hbinds]

end Leaves

/-! ## Computations -/

namespace Traces

variable {α β : Type} {file : String} {p : Place} {deeds deeds' : List Deed}
variable {g : Gen α} {f : α → Gen β}

theorem pure (a : α) : Traces file p [] (Pure.pure a : Gen α) := by
  intro s _ t hp h
  obtain ⟨rfl, rfl⟩ := run_ok_inj h
  exact Leaves.of_outline hp rfl rfl

theorem bind (hg : Traces file p deeds g) (hf : ∀ a, Traces file p deeds' (f a)) :
    Traces file p (deeds ++ deeds') (g >>= f) := by
  intro s b t hp h
  obtain ⟨a, u, h₁, h₂⟩ := run_bind_eq_ok h
  have hleft := hg s a u hp h₁
  exact hleft.trans (hf a u b t (hleft.fits hp) h₂)

theorem map (f : α → β) (hg : Traces file p deeds g) :
    Traces file p deeds (g >>= fun a => Pure.pure (f a)) := by
  have := hg.bind fun a => Traces.pure (f a)
  rwa [List.append_nil] at this

/-- The first part may leave nothing behind. -/
theorem after (hg : Traces file p [] g) (hf : ∀ a, Traces file p deeds (f a)) :
    Traces file p deeds (g >>= f) :=
  hg.bind hf

/-- The second part may leave nothing behind. -/
theorem before (hg : Traces file p deeds g) (hf : ∀ a, Traces file p [] (f a)) :
    Traces file p deeds (g >>= f) := by
  have := hg.bind hf
  rwa [List.append_nil] at this

/-- The second part may count on what the first one gives. -/
theorem bindWith {P : α → Prop} (hg : Traces file p deeds g)
    (hpost : ∀ s a t, g s = .ok (a, t) → P a) (hf : ∀ a, P a → Traces file p deeds' (f a)) :
    Traces file p (deeds ++ deeds') (g >>= f) := by
  intro s b t hp h
  obtain ⟨a, u, h₁, h₂⟩ := run_bind_eq_ok h
  have hleft := hg s a u hp h₁
  exact hleft.trans (hf a (hpost s a u h₁) u b t (hleft.fits hp) h₂)

/-- Deeds that say the same are as good. -/
theorem equiv (h : Traces file p deeds g)
    (hnotes : ∀ d, (∃ a ∈ deeds, a.Notes file p d) ↔ ∃ a ∈ deeds', a.Notes file p d)
    (hbinds : ∀ x, (∃ a ∈ deeds, a.Binds p x) ↔ ∃ a ∈ deeds', a.Binds p x) :
    Traces file p deeds' g :=
  fun s a t hp hrun => (h s a t hp hrun).congr hnotes hbinds

/-- The order of deeds, and how often each is done, does not matter. -/
theorem congr (h : Traces file p deeds g) (hmem : ∀ a, a ∈ deeds ↔ a ∈ deeds') :
    Traces file p deeds' g := by
  refine h.equiv (fun d => ?_) fun x => ?_
  all_goals simp only [hmem]

/-- What refuses leaves nothing behind. -/
theorem refuse (r : Refusal) : Traces file p deeds (Gen.refuse r : Gen α) := by
  intro s a t _ h
  cases h

/-- A computation that looks at the state, which is one at its place. -/
theorem get {f : GenState → Gen α} (hf : ∀ s, p.Fits s → Traces file p deeds (f s)) :
    Traces file p deeds (MonadState.get >>= f) :=
  fun s a t hp h => hf s hp s a t hp h

theorem modified {f : GenState → GenState} (hf : ∀ s, p.Fits s → Leaves file p deeds s (f s)) :
    Traces file p deeds (modify f : Gen PUnit) := by
  intro s a t hp h
  obtain ⟨-, rfl⟩ := run_ok_inj h
  exact hf s hp

end Traces

/-! ## Changes of frames -/

section Changes

open GenState (changeFirst)

theorem changeNearest_frames (q : Frame → Bool) (change : Frame → Frame) (s : GenState) :
    (s.changeNearest q change).frame :: (s.changeNearest q change).outer =
      changeFirst q change (s.frame :: s.outer) := by
  rw [GenState.changeNearest, changeFirst]
  split <;> rfl

theorem changeNearest_declarations (q : Frame → Bool) (change : Frame → Frame) (s : GenState) :
    (s.changeNearest q change).declarations = s.declarations := by
  rw [GenState.changeNearest]
  split <;> rfl

/-- What a change keeps of a frame is kept of all frames. -/
theorem map_changeFirst {β : Type} {view : Frame → β} {q : Frame → Bool} {change : Frame → Frame}
    (h : ∀ f, view (change f) = view f) (fs : List Frame) :
    (changeFirst q change fs).map view = fs.map view := by
  induction fs with
  | nil => rfl
  | cons f fs ih =>
      rw [changeFirst]
      split
      · rw [List.map_cons, List.map_cons, h]
      · rw [List.map_cons, List.map_cons, ih]

theorem Leaves.changeNearest {file : String} {p : Place} {s : GenState} (hp : p.Fits s)
    {q : Frame → Bool} {change : Frame → Frame} (h : ∀ f, (change f).outline = f.outline) :
    Leaves file p [] s (s.changeNearest q change) := by
  refine .of_outline hp (changeNearest_declarations q change s) ?_
  rw [changeNearest_frames]
  exact map_changeFirst h _

/-- A variable goes to the nearest frame that is no wrapper. -/
theorem Grows.changeFirst {fs : List Frame} (howner : ∃ f ∈ fs, f.kind ≠ .wrapper) (x : String) :
    Grows (fun y => x = y) fs (changeFirst (·.kind != .wrapper)
      (fun f => { f with locals := f.locals ++ [x] }) fs) := by
  induction fs with
  | nil =>
      obtain ⟨f, hf, -⟩ := howner
      exact absurd hf List.not_mem_nil
  | cons f fs ih =>
      rw [GenState.changeFirst]
      by_cases hkind : f.kind = .wrapper
      · obtain ⟨o, ho, hne⟩ := howner
        rcases List.mem_cons.mp ho with rfl | ho
        · exact absurd hkind hne
        · rw [if_neg (by simpa using hkind)]
          exact .wrapper hkind rfl (ih ⟨o, ho, hne⟩)
      · rw [if_pos (by simpa using hkind)]
        refine .owner hkind rfl (fun y => ?_) rfl
        rw [List.mem_append, List.mem_singleton, eq_comm (a := y)]

end Changes

/-! ## Primitive computations -/

namespace Traces

variable {α : Type} {file : String} {p : Place} {deeds : List Deed}

theorem temp : Traces file p [] Gen.temp := by
  intro s a t hp h
  obtain ⟨-, rfl⟩ := run_ok_inj h
  exact .of_outline hp rfl rfl

theorem declareLocal (x : String) : Traces file p [.binds x] (Gen.declareLocal x) := by
  refine Traces.modified fun s hp => ?_
  rw [GenState.declareLocal]
  split
  · rename_i hknown
    refine ⟨fun d => by simp [Deed.Notes], .of_outline hp.owner ?_ rfl⟩
    rintro y ⟨⟨a, ha, hbinds⟩, hunknown⟩
    obtain rfl := List.mem_singleton.mp ha
    obtain rfl : x = y := hbinds
    rw [hknown] at hunknown
    cases hunknown
  · rename_i hunknown
    refine ⟨fun d => by simp [changeNearest_declarations, Deed.Notes], ?_⟩
    rw [changeNearest_frames]
    refine (Grows.changeFirst hp.owner x).congr fun y => ?_
    simp only [List.mem_singleton, exists_eq_left, Deed.Binds]
    constructor
    · rintro rfl
      exact ⟨rfl, by simpa using hunknown⟩
    · exact And.left

theorem record (d : Declaration) : Traces file p [.declares d] (Gen.record d) := by
  refine Traces.modified fun s hp => ?_
  have hbinds : ∀ x, ¬ ((∃ a ∈ [Deed.declares d], a.Binds p x) ∧
      GenState.knownIn x (s.frame :: s.outer) = false) := by
    rintro x ⟨⟨a, ha, hbinds⟩, -⟩
    obtain rfl := List.mem_singleton.mp ha
    exact hbinds
  rw [GenState.record]
  split
  · rename_i hmem
    refine ⟨fun d' => ?_, .of_outline hp.owner hbinds rfl⟩
    have : d ∈ s.declarations := List.contains_iff_mem.mp hmem
    simp only [List.mem_singleton, exists_eq_left, Deed.Notes]
    grind
  · refine ⟨fun d' => ?_, .of_outline hp.owner hbinds rfl⟩
    simp only [List.mem_append, List.mem_singleton, exists_eq_left, Deed.Notes, eq_comm (a := d')]

theorem markReturn : Traces file p [] Gen.markReturn :=
  Traces.modified fun _ hp => .changeNearest hp fun _ => rfl

theorem useIter : Traces file p [] Gen.useIter := by
  intro s a t hp h
  obtain ⟨s', u, hget, h⟩ := run_bind_eq_ok h
  obtain ⟨rfl, rfl⟩ := run_ok_inj hget
  cases hmethod : s.method? with
  | some m =>
      rw [hmethod] at h
      obtain ⟨-, rfl⟩ := run_ok_inj h
      exact .changeNearest hp fun _ => rfl
  | none =>
      rw [hmethod] at h
      obtain ⟨-, rfl⟩ := run_ok_inj h
      exact .of_outline hp rfl rfl

end Traces

/-! ## Loops and functions -/

/-- The parts that `a` holds, as deeds. -/
def Deed.allAs {α : Type} [Holder α] (fate : Fate) (n : Nesting) (a : α) : List Deed :=
  (heldAs fate n a).map .part

/-- The parts that `a` holds, as deeds that are always done. -/
abbrev Deed.all {α : Type} [Holder α] (n : Nesting) (a : α) : List Deed :=
  Deed.allAs .always n a

section All

variable {α : Type} [Holder α] {file : String} {p : Place}

theorem Deed.allAs_notes (fate : Fate) (n : Nesting) (a : α) (d : Declaration) :
    (∃ b ∈ Deed.allAs fate n a, b.Notes file p d) ↔ fate.isGenerated p = true ∧
      ∃ e ∈ Holder.exprs a, e.Declares file generated (p.enter n) d := by
  simp only [Deed.allAs, heldAs, List.map_map, List.mem_map, Function.comp_apply]
  constructor
  · rintro ⟨b, ⟨e, he, rfl⟩, hfate, hd⟩
    exact ⟨hfate, e, he, hd⟩
  · rintro ⟨hfate, e, he, hd⟩
    exact ⟨_, ⟨e, he, rfl⟩, hfate, hd⟩

theorem Deed.allAs_binds (fate : Fate) (n : Nesting) (a : α) (x : String) :
    (∃ b ∈ Deed.allAs fate n a, b.Binds p x) ↔ fate.isGenerated p = true ∧
      n.isOwn = true ∧ ∃ e ∈ Holder.exprs a, e.Assigns generated (p.enter n) x := by
  simp only [Deed.allAs, heldAs, List.map_map, List.mem_map, Function.comp_apply]
  constructor
  · rintro ⟨b, ⟨e, he, rfl⟩, hfate, hown, hx⟩
    exact ⟨hfate, hown, e, he, hx⟩
  · rintro ⟨hfate, hown, e, he, hx⟩
    exact ⟨_, ⟨e, he, rfl⟩, hfate, hown, hx⟩

/-- Parts that get code are generated like all others. -/
theorem Traces.ofFate {β : Type} {fate : Fate} (hfate : fate.isGenerated p = true) {a : α}
    {g : Gen β} (h : Traces file p (Deed.all n a) g) : Traces file p (Deed.allAs fate n a) g := by
  refine h.equiv (fun d => ?_) fun x => ?_
  · rw [Deed.allAs_notes, Deed.allAs_notes, hfate]
    rfl
  · rw [Deed.allAs_binds, Deed.allAs_binds, hfate]
    rfl

/-- Parts that get no code are not generated. -/
theorem Traces.ofDropped {β : Type} {fate : Fate} (hfate : fate.isGenerated p = false) {a : α}
    {g : Gen β} (h : Traces file p [] g) : Traces file p (Deed.allAs fate n a) g := by
  refine h.equiv (fun d => ?_) fun x => ?_
  · rw [Deed.allAs_notes, hfate]
    simp
  · rw [Deed.allAs_binds, hfate]
    simp

end All

/-- One loop more is around the current place. -/
def GenState.deeper (s : GenState) : GenState :=
  { s with frame := { s.frame with loops := s.frame.loops + 1 } }

theorem Place.Fits.deeper {p : Place} {s : GenState} (h : p.Fits s) :
    (p.enter .loop).Fits s.deeper := by
  refine ⟨?_, ?_, fun _ => Or.inl (Nat.succ_pos _), fun h => absurd h (by simp [Place.enter])⟩
  · obtain ⟨f, hf, hne⟩ := h.owner
    rcases List.mem_cons.mp hf with rfl | hf
    · exact ⟨_, List.mem_cons_self, hne⟩
    · exact ⟨f, List.mem_cons_of_mem _ hf, hne⟩
  · rw [inClassBody_eq]
    change (((s.frame :: s.outer).map (·.kind)).find? _).elim _ _ = _
    rw [← inClassBody_eq]
    exact h.inClass

/-- Leaving a loop undoes the count. -/
theorem Grows.leaveLoop {new : String → Prop} {f f' : Frame} {fs fs' : List Frame}
    (h : Grows new ({ f with loops := f.loops + 1 } :: fs) (f' :: fs')) :
    Grows new (f :: fs) ({ f' with loops := f'.loops - 1 } :: fs') := by
  have hshape : f'.shape = (f.kind, f.params, f.loops + 1) := (List.cons.inj h.shapes).1
  have hback : Frame.shape { f' with loops := f'.loops - 1 } = f.shape := by
    simp only [Frame.shape, Prod.mk.injEq] at hshape ⊢
    exact ⟨hshape.1, hshape.2.1, by omega⟩
  cases h with
  | wrapper hkind houtline hrest =>
      exact .wrapper hkind (Prod.ext hback (congrArg (·.2) houtline)) hrest
  | owner hkind _ hlocals hrest => exact .owner hkind hback hlocals hrest

theorem Traces.inLoop {β α : Type} [Holder α] {file : String} {p : Place} {a : α}
    {g : Gen β} (h : Traces file (p.enter .loop) (Deed.all .here a) g) :
    Traces file p (Deed.all .loop a) (Gen.inLoop g) := by
  intro s b t hp hrun
  obtain ⟨_, u, hbump, hrun⟩ := run_bind_eq_ok hrun
  obtain ⟨-, rfl⟩ := run_ok_inj hbump
  obtain ⟨b', v, hg, hrun⟩ := run_bind_eq_ok hrun
  obtain ⟨-, rfl⟩ := run_ok_inj hrun
  have hleaves := h s.deeper b' v hp.deeper hg
  refine ⟨fun d => ?_, (Grows.leaveLoop hleaves.frames).congr fun x => ?_⟩
  · rw [Deed.allAs_notes]
    exact (hleaves.declarations d).trans (or_congr_right (Deed.allAs_notes ..))
  · rw [Deed.allAs_binds, Deed.allAs_binds]
    rfl

/-- A computation in a frame of its own runs with the frames around it outside. -/
theorem inFrame_eq_ok {α : Type} {f f' : Frame} {g : Gen α} {s t : GenState} {a : α}
    (h : Gen.inFrame f g s = .ok ((a, f'), t)) :
    ∃ u, g { s with frame := f, outer := s.frame :: s.outer } = .ok (a, u) ∧ f' = u.frame ∧
      t.declarations = u.declarations ∧ t.frame :: t.outer = u.outer := by
  rw [Gen.inFrame] at h
  cases hg : g { s with frame := f, outer := s.frame :: s.outer } with
  | error r => simp [hg] at h
  | ok r =>
      obtain ⟨b, u⟩ := r
      simp only [hg] at h
      split at h
      · cases h
      · rename_i o os hcons
        obtain ⟨hresult, rfl⟩ := run_ok_inj h
        obtain ⟨rfl, rfl⟩ := Prod.mk.inj hresult
        exact ⟨u, rfl, rfl, rfl, hcons.symm⟩

/-- A state whose current function is inside of another one. -/
def GenState.push (s : GenState) (f : Frame) : GenState :=
  { s with frame := f, outer := s.frame :: s.outer }

theorem inClassBody_push (s : GenState) (f : Frame) :
    (s.push f).inClassBody = if f.kind.seesOuter then s.inClassBody else f.kind.isClassLike := by
  rw [inClassBody_eq, inClassBody_eq, GenState.push, List.map_cons, List.find?_cons]
  cases f.kind.seesOuter <;> rfl

theorem Traces.inWrapper {α : Type} {file : String} {p : Place} {deeds : List Deed} {g : Gen α}
    (h : Traces file p deeds g) : Traces file p deeds (Gen.inFrame { kind := .wrapper } g) := by
  rintro s ⟨a, f'⟩ t hp hrun
  obtain ⟨u, hg, -, hdecl, houter⟩ := inFrame_eq_ok hrun
  have hfits : p.Fits (s.push { kind := .wrapper }) := by
    refine ⟨?_, ?_, fun _ => Or.inr ?_, fun _ => rfl⟩
    · obtain ⟨f, hf, hne⟩ := hp.owner
      exact ⟨f, List.mem_cons_of_mem _ hf, hne⟩
    · rw [inClassBody_push]
      exact hp.inClass
    · exact FrameKind.noConfusion
  have hleaves := h _ a u hfits hg
  cases hleaves.frames with
  | owner hkind => exact absurd rfl hkind
  | wrapper _ _ hrest =>
      rw [← houter] at hrest
      refine ⟨fun d => ?_, hrest.congr fun x => ?_⟩
      · rw [hdecl]
        exact hleaves.declarations d
      · rfl

/-- The kinds of functions that parts of this nesting are generated in. -/
def Nesting.Opens : Nesting → FrameKind → Prop
  | .block, k => k = .block
  | .method, k => k = .method
  | .classBody, k => k.isClassLike = true
  | _, _ => False

theorem Nesting.Opens.ne_wrapper {k : FrameKind} (h : n.Opens k) : k ≠ .wrapper := by
  cases n <;> cases k <;> simp_all [Nesting.Opens, FrameKind.isClassLike]

theorem Place.Fits.push {p : Place} {s : GenState} (hp : p.Fits s) {f : Frame}
    (hkind : n.Opens f.kind) (hloops : f.loops = 0) : (p.enter n).Fits (s.push f) := by
  refine ⟨⟨f, List.mem_cons_self, hkind.ne_wrapper⟩, ?_, ?_, fun _ => hloops⟩
  · rw [inClassBody_push]
    cases n with
    | here | loop => exact hkind.elim
    | block =>
        rw [show f.kind = .block from hkind]
        exact hp.inClass
    | method =>
        rw [show f.kind = .method from hkind]
        rfl
    | classBody =>
        have hclass : f.kind.isClassLike = true := hkind
        have hsees : f.kind.seesOuter = false := by
          cases hk : f.kind <;> simp_all [FrameKind.isClassLike, FrameKind.seesOuter]
        rw [hsees, hclass]
        rfl
  · cases n with
    | here | loop => exact hkind.elim
    | block | method | classBody => exact fun h => absurd h Bool.false_ne_true

/-- A function leaves the declarations of its parts behind, and no variables. -/
theorem Traces.inFunction {α : Type} {file : String} {p : Place} {inner outer : List Deed}
    {f : Frame} (hkind : n.Opens f.kind) (hloops : f.loops = 0) {g : Gen α}
    (h : Traces file (p.enter n) inner g)
    (hnotes : ∀ d, (∃ a ∈ inner, a.Notes file (p.enter n) d) ↔ ∃ a ∈ outer, a.Notes file p d)
    (hbinds : ∀ x, ¬ ∃ a ∈ outer, a.Binds p x) : Traces file p outer (Gen.inFrame f g) := by
  rintro s ⟨a, f'⟩ t hp hrun
  obtain ⟨u, hg, -, hdecl, houter⟩ := inFrame_eq_ok hrun
  have hleaves := h _ a u (hp.push hkind hloops) hg
  cases hleaves.frames with
  | wrapper hk => exact absurd hk hkind.ne_wrapper
  | owner _ _ _ hrest =>
      rw [← houter] at hrest
      refine ⟨fun d => ?_, .of_outline hp.owner (fun x hx => hbinds x hx.1) hrest⟩
      rw [hdecl, ← hnotes]
      exact hleaves.declarations d

/-- The parts of a function are all that it leaves behind, whatever variables it has. -/
theorem Traces.inFunctionOf {α β : Type} [Holder β] {file : String} {p : Place} {inner : List Deed}
    {f : Frame} (hkind : n.Opens f.kind) (hloops : f.loops = 0) {g : Gen α}
    (h : Traces file (p.enter n) inner g) {b : β} (hall : Deed.all .here b ⊆ inner)
    (hinner : ∀ a ∈ inner, a ∈ Deed.all .here b ∨ ∃ x, a = .binds x) :
    Traces file p (Deed.all n b) (Gen.inFrame f g) := by
  refine h.inFunction hkind hloops (fun d => ?_) fun x => ?_
  · have hhere : (∃ a ∈ inner, a.Notes file (p.enter n) d) ↔
        ∃ a ∈ Deed.all .here b, a.Notes file (p.enter n) d := by
      constructor
      · rintro ⟨a, ha, hd⟩
        rcases hinner a ha with ha | ⟨x, rfl⟩
        · exact ⟨a, ha, hd⟩
        · exact hd.elim
      · rintro ⟨a, ha, hd⟩
        exact ⟨a, hall ha, hd⟩
    rw [hhere, Deed.allAs_notes, Deed.allAs_notes]
    rfl
  · rw [Deed.allAs_binds]
    rintro ⟨-, hown, -⟩
    cases n with
    | here | loop => exact hkind
    | block | method | classBody => exact absurd hown Bool.false_ne_true

end RubyJs
