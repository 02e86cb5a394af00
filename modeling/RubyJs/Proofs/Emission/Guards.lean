import RubyJs.Proofs.Emission.Traces
import RubyJs.Proofs.Syntax.Spots

set_option autoImplicit false

/-! # Where code generation gives up

Generation gives up in few places, and what decides there is the function that is being generated: its
kind, the loops around the current place, and the method around. Nothing that is generated changes
them: a function that is entered is left again, and so is a loop (`GenState.bearings`).

`Guards c P Q m` says that `m` gives up at the spot `c` only for a reason in `P`, and that what it
makes is in `Q`. Below is a rule for each way to put computations together.
-/

namespace RubyJs

open Script (Term Stmt)

/-! ## States -/

/-- What decides whether a jump or a `super` can be generated in a function. -/
def Frame.bearing (f : Frame) : FrameKind × Nat × Option MethodInfo := (f.kind, f.loops, f.method)

namespace GenState

/-- The bearings of all functions around the current place, from the inside out. -/
def bearings (s : GenState) : List (FrameKind × Nat × Option MethodInfo) :=
  (s.frame :: s.outer).map Frame.bearing

theorem kind_eq_of_bearings {s t : GenState} (h : t.bearings = s.bearings) :
    t.frame.kind = s.frame.kind := congrArg (·.1) (List.cons.inj h).1

theorem loops_eq_of_bearings {s t : GenState} (h : t.bearings = s.bearings) :
    t.frame.loops = s.frame.loops := congrArg (·.2.1) (List.cons.inj h).1

/-- The method that the nearest of these functions that is no block is. -/
def methodIn : List Frame → Option MethodInfo
  | [] => none
  | f :: fs =>
    if f.kind.seesOuter then methodIn fs else if f.kind == .method then f.method else none

theorem method?_eq (s : GenState) : s.method? = methodIn (s.frame :: s.outer) := by
  unfold method? returnFrame?
  induction s.frame :: s.outer with
  | nil => rfl
  | cons f fs ih =>
      rw [List.find?_cons, methodIn, Frame.ownsReturn]
      cases f.kind.seesOuter with
      | true => exact ih
      | false => rfl

theorem methodIn_eq {fs fs' : List Frame} (h : fs'.map Frame.bearing = fs.map Frame.bearing) :
    methodIn fs' = methodIn fs := by
  refine Frame.eq_of_map_eq h fun {f f' _ _} hf ih => ?_
  have hkind : f'.kind = f.kind := congrArg (·.1) hf
  have hmethod : f'.method = f.method := congrArg (·.2.2) hf
  rw [methodIn, methodIn, hkind, hmethod, ih]

theorem bearings_changeNearest {q : Frame → Bool} {change : Frame → Frame}
    (h : ∀ f, (change f).bearing = f.bearing) (s : GenState) :
    (s.changeNearest q change).bearings = s.bearings := by
  rw [bearings, changeNearest_frames]
  exact map_changeFirst h _

/-- At the end of a loop the bearings are those before it. -/
theorem bearings_loopEnd {s t : GenState} (h : t.bearings = s.deeper.bearings) :
    ({ t with frame := { t.frame with loops := t.frame.loops - 1 } } : GenState).bearings =
      s.bearings := by
  obtain ⟨hframe, houter⟩ := List.cons.inj h
  have hback : Frame.bearing { t.frame with loops := t.frame.loops - 1 } = s.frame.bearing := by
    have hkind : t.frame.kind = s.frame.kind := congrArg (·.1) hframe
    have hloops : t.frame.loops = s.frame.loops + 1 := congrArg (·.2.1) hframe
    have hmethod : t.frame.method = s.frame.method := congrArg (·.2.2) hframe
    simp [Frame.bearing, hkind, hloops, hmethod]
  exact List.cons_eq_cons.mpr ⟨hback, houter⟩

end GenState

theorem Gen.useIter_eq (s : GenState) : Gen.useIter s = if s.method?.isSome then
    .ok (true, s.changeNearest Frame.ownsReturn fun f => { f with usesIter := true })
    else .ok (false, s) := by
  have hget : ∀ next : GenState → Gen Bool, (MonadState.get >>= next) s = next s s := fun _ => rfl
  refine (hget _).trans ?_
  cases s.method? <;> rfl

/-- That a state is one at the spot `c`. -/
structure Spot.Fits (c : Spot) (s : GenState) : Prop where
  method : c.inMethod = true → s.method?.isSome = true
  outsideLoops : c.inLoop = false → s.frame.loops = 0
  jump : c.takesJump = true → 0 < s.frame.loops ∨ s.frame.kind = .block

namespace Spot.Fits

variable {c : Spot} {s t : GenState}

theorem of_bearings (h : c.Fits s) (heq : t.bearings = s.bearings) : c.Fits t := by
  refine ⟨?_, ?_, ?_⟩
  · rw [GenState.method?_eq, GenState.methodIn_eq heq, ← GenState.method?_eq]
    exact h.method
  · rw [GenState.loops_eq_of_bearings heq]
    exact h.outsideLoops
  · rw [GenState.loops_eq_of_bearings heq, GenState.kind_eq_of_bearings heq]
    exact h.jump

theorem apart (h : c.Fits s) : c.apart.Fits s :=
  ⟨h.method, h.outsideLoops, fun htakes => absurd htakes Bool.false_ne_true⟩

theorem deeper (h : c.Fits s) : (c.within .loop true).Fits s.deeper := by
  refine ⟨fun hmethod => ?_, fun hloop => absurd hloop (by simp [Spot.within]), fun _ => ?_⟩
  · have := h.method hmethod
    rwa [GenState.method?_eq] at this ⊢
  · exact .inl (Nat.succ_pos _)

/-- Blocks and wrappers see the method around them. -/
theorem push_seesOuter (h : c.Fits s) {f : Frame} (hsees : f.kind.seesOuter = true)
    {d : Spot} (hmethod : d.inMethod = c.inMethod) (hloops : f.loops = 0)
    (hjump : d.takesJump = true → f.kind = .block) : d.Fits (s.push f) := by
  refine ⟨fun hd => ?_, fun _ => hloops, fun hd => .inr (hjump hd)⟩
  rw [GenState.method?_eq]
  change (GenState.methodIn (f :: s.frame :: s.outer)).isSome = true
  rw [GenState.methodIn, if_pos hsees, ← GenState.method?_eq]
  exact h.method (hmethod ▸ hd)

theorem push_block (h : c.Fits s) (params : List String) :
    (c.within .block true).Fits (s.push { kind := .block, params }) :=
  h.push_seesOuter rfl rfl rfl fun _ => rfl

theorem push_wrapper (h : c.Fits s) (hc : c.takesJump = false) :
    c.Fits (s.push { kind := .wrapper }) :=
  h.push_seesOuter rfl rfl rfl fun htakes => absurd (hc.symm.trans htakes) Bool.false_ne_true

end Spot.Fits

/-- In the function of a method, a `super` has a method. -/
theorem Spot.fits_method (s : GenState) (params : List String) (method : MethodInfo)
    (isStatement : Bool) (c : Spot) : (c.within .method isStatement).Fits
      (s.push { kind := .method, params, method := some method }) :=
  ⟨fun _ => by rw [GenState.method?_eq]; rfl, fun _ => rfl, nofun⟩

theorem Spot.fits_anywhere (s : GenState) (h : s.frame.loops = 0) : Spot.Fits {} s :=
  ⟨nofun, fun _ => h, nofun⟩

/-! ## Computations -/

/-- What generating from `s` may come to. -/
def Outcome {α : Type} (P : Refusal → Prop) (Q : α → Prop) (s : GenState) :
    Except Refusal (α × GenState) → Prop
  | .error r => P r
  | .ok (a, t) => t.bearings = s.bearings ∧ Q a

/-- That generating at `c` gives up only for a reason in `P`, and makes what is in `Q`. -/
def Guards {α : Type} (c : Spot) (P : Refusal → Prop) (Q : α → Prop) (m : Gen α) : Prop :=
  ∀ s, c.Fits s → Outcome P Q s (m s)

namespace Guards

variable {α β : Type} {c d : Spot} {P : Refusal → Prop} {Q : α → Prop} {m : Gen α}

theorem pure {a : α} (h : Q a) : Guards c P Q (Pure.pure a) := fun _ _ => ⟨rfl, h⟩

theorem bind {Q' : β → Prop} {f : α → Gen β} (hm : Guards c P Q m)
    (hf : ∀ a, Q a → Guards c P Q' (f a)) : Guards c P Q' (m >>= f) := by
  intro s hs
  have hfirst := hm s hs
  change Outcome P Q' s (m s >>= fun r => f r.1 r.2)
  cases hrun : m s with
  | error r =>
      rw [hrun] at hfirst
      exact hfirst
  | ok r =>
      obtain ⟨a, t⟩ := r
      rw [hrun] at hfirst
      obtain ⟨hbearings, ha⟩ := hfirst
      have hrest := hf a ha t (hs.of_bearings hbearings)
      change Outcome P Q' s (f a t)
      cases hrun' : f a t with
      | error r =>
          rw [hrun'] at hrest
          exact hrest
      | ok r =>
          rw [hrun'] at hrest
          exact ⟨hrest.1.trans hbearings, hrest.2⟩

theorem pure_bind {Q' : β → Prop} {a : α} {f : α → Gen β} (h : Guards c P Q' (f a)) :
    Guards c P Q' (Pure.pure a >>= f) := h

theorem imp {Q' : α → Prop} (hm : Guards c P Q m) (h : ∀ a, Q a → Q' a) : Guards c P Q' m := by
  intro s hs
  have hrun := hm s hs
  cases hres : m s with
  | error r =>
      rw [hres] at hrun
      exact hrun
  | ok r =>
      rw [hres] at hrun
      exact ⟨hrun.1, h _ hrun.2⟩

/-- What is made was made by a run, in a state at the spot. -/
theorem ran (hm : Guards c P Q m) :
    Guards c P (fun a => Q a ∧ ∃ s t, c.Fits s ∧ m s = .ok (a, t)) m := by
  intro s hs
  have hrun := hm s hs
  cases hres : m s with
  | error r =>
      rw [hres] at hrun
      exact hrun
  | ok r =>
      rw [hres] at hrun
      exact ⟨hrun.1, hrun.2, s, _, hs, hres⟩

/-- What is made of the result does not matter. -/
theorem map {Q' : Prop} {f : α → β} (hm : Guards c P (fun _ => Q') m) :
    Guards c P (fun _ => Q') (m >>= fun a => Pure.pure (f a)) :=
  hm.bind fun _ h => pure h

theorem of_spot (hm : Guards d P Q m) (h : ∀ s, c.Fits s → d.Fits s) : Guards c P Q m :=
  fun s hs => hm s (h s hs)

theorem apart (hm : Guards c.apart P Q m) : Guards c P Q m := hm.of_spot fun _ hs => hs.apart

theorem refuse {r : Refusal} (h : P r) : Guards c P Q (Gen.refuse r) := fun _ _ => h

theorem get {f : GenState → Gen α} (hf : ∀ s, c.Fits s → Guards c P Q (f s)) :
    Guards c P Q (MonadState.get >>= f) := fun s hs => hf s hs s hs

theorem modified {f : GenState → GenState} {Q : PUnit → Prop} (h : Q ⟨⟩)
    (hf : ∀ s, (f s).bearings = s.bearings) : Guards c P Q (modify f : Gen PUnit) :=
  fun s _ => ⟨hf s, h⟩

/-! ### Primitive computations -/

theorem temp : Guards c P (fun _ => True) Gen.temp := fun _ _ => ⟨rfl, trivial⟩

theorem declareLocal (x : String) : Guards c P (fun _ => True) (Gen.declareLocal x) := by
  refine modified trivial fun s => ?_
  rw [GenState.declareLocal]
  split
  · rfl
  · refine GenState.bearings_changeNearest ?_ s
    exact fun _ => rfl

theorem record (d : Declaration) : Guards c P (fun _ => True) (Gen.record d) := by
  refine modified trivial fun s => ?_
  rw [GenState.record]
  split <;> rfl

theorem markReturn : Guards c P (fun _ => True) Gen.markReturn :=
  modified trivial fun s => by
    refine GenState.bearings_changeNearest ?_ s
    exact fun _ => rfl

theorem useIter : Guards c P (fun _ => True) Gen.useIter := by
  intro s _
  rw [Gen.useIter_eq]
  split
  · refine ⟨GenState.bearings_changeNearest ?_ s, trivial⟩
    exact fun _ => rfl
  · exact ⟨rfl, trivial⟩

/-! ### Loops and functions -/

theorem inLoop (hm : Guards (c.within .loop true) P Q m) : Guards c P Q (Gen.inLoop m) := by
  intro s hs
  have hrun := hm s.deeper hs.deeper
  change Outcome P Q s (m s.deeper >>= fun r => .ok (r.1, { r.2 with
    frame := { r.2.frame with loops := r.2.frame.loops - 1 } }))
  cases hres : m s.deeper with
  | error r =>
      rw [hres] at hrun
      exact hrun
  | ok r =>
      obtain ⟨a, t⟩ := r
      rw [hres] at hrun
      obtain ⟨hbearings, ha⟩ := hrun
      exact ⟨GenState.bearings_loopEnd hbearings, ha⟩

/-- A function that is entered is there to be left. -/
theorem inFrame {f : Frame} (hm : Guards d P Q m) (hfits : ∀ s, c.Fits s → d.Fits (s.push f)) :
    Guards c P (fun r => Q r.1) (Gen.inFrame f m) := by
  intro s hs
  have hrun := hm (s.push f) (hfits s hs)
  change Outcome P _ s (match m (s.push f) with
    | .error r => .error r
    | .ok (a, t) =>
      match t.outer with
      | [] => .error .unbalanced
      | o :: os => .ok ((a, t.frame), { t with frame := o, outer := os }))
  cases hres : m (s.push f) with
  | error r =>
      rw [hres] at hrun
      exact hrun
  | ok r =>
      obtain ⟨a, t⟩ := r
      rw [hres] at hrun
      obtain ⟨hbearings, ha⟩ := hrun
      have houter : t.outer.map Frame.bearing = s.bearings := (List.cons.inj hbearings).2
      dsimp only
      cases hnext : t.outer with
      | nil =>
          rw [hnext] at houter
          cases houter
      | cons o os =>
          rw [hnext] at houter
          exact ⟨houter, ha⟩

end Guards

end RubyJs
