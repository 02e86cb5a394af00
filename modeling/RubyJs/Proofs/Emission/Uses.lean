import Mathlib.Data.Set.Image
import Mathlib.Tactic.Tauto
import RubyJs.Proofs.Emission.Guards
import RubyJs.Proofs.Script.Uses

set_option autoImplicit false

/-! # Generation that accounts for what it uses

What a frame notes while its function is generated is what the function uses in the end: as many
temporaries as there are, the block of a method if it is used, and a far return if there is one. The
last two are noted at the nearest function that a `return` leaves, so that one function knows of all
blocks that belong to it:

    top          catches
    └ method     catches          ← a far return below sets this mark, and no other
      └ block
        └ block    Opal.ret(…)

`Accounts us s t` says so of a run from `s` to `t` that uses `us`, and `Tells C before m after` of a
computation whose result uses `after` when `before` was used already. If `C` holds, it tells of no
flaws, and the functions in it are closed: only native text comes with flaws.
-/

namespace RubyJs

open Script (Term Stmt Name Func Use Plain Closes StmtsClosed told gist)

/-! ## Marks -/

/-- That the mark of the nearest function that a `return` leaves is set if `hit` holds, and that no
other mark changes. Functions are given from the inside out, each by whether a `return` leaves it
and by its mark. -/
inductive Marked (hit : Prop) : List (Bool × Bool) → List (Bool × Bool) → Prop where
  | nil : Marked hit [] []
  | inner {b : Bool} {ms ms' : List (Bool × Bool)} :
      Marked hit ms ms' → Marked hit ((false, b) :: ms) ((false, b) :: ms')
  | owner {b b' : Bool} {ms : List (Bool × Bool)} :
      (b' = true ↔ b = true ∨ hit) → Marked hit ((true, b) :: ms) ((true, b') :: ms)

namespace Marked

variable {p q : Prop} {ms ms' ms'' : List (Bool × Bool)}

theorem refl (h : ¬ p) : ∀ ms : List (Bool × Bool), Marked p ms ms
  | [] => .nil
  | (false, _) :: ms => .inner (refl h ms)
  | (true, _) :: _ => .owner (by simp [h])

theorem trans (h : Marked p ms ms') (h' : Marked q ms' ms'') : Marked (p ∨ q) ms ms'' := by
  induction h generalizing ms'' with
  | nil =>
      cases h'
      exact .nil
  | inner _ ih =>
      cases h' with
      | inner h' => exact .inner (ih h')
  | owner hmark =>
      cases h' with
      | owner hmark' => exact .owner (by rw [hmark', hmark, or_assoc])

theorem congr (h : Marked p ms ms') (hiff : p ↔ q) : Marked q ms ms' := propext hiff ▸ h

end Marked

namespace GenState

/-- The marks of all functions around the current place. -/
def marks (mark : Frame → Bool) (s : GenState) : List (Bool × Bool) :=
  (s.frame :: s.outer).map fun f => (f.ownsReturn, mark f)

theorem ownsReturn_of_bearing {f g : Frame} (h : g.bearing = f.bearing) :
    g.ownsReturn = f.ownsReturn := by
  have hkind : g.kind = f.kind := congrArg (·.1) h
  rw [Frame.ownsReturn, Frame.ownsReturn, hkind]

section Changes

variable {mark : Frame → Bool} {q : Frame → Bool} {change : Frame → Frame} {p : Prop}

/-- The change that sets the mark of the nearest function that a `return` leaves. -/
theorem marked_set (hbearing : ∀ f, (change f).bearing = f.bearing)
    (hset : ∀ f, mark (change f) = true) (hp : p) (s : GenState) :
    Marked p (s.marks mark) ((s.changeNearest Frame.ownsReturn change).marks mark) := by
  rw [marks, marks, changeNearest_frames]
  induction s.frame :: s.outer with
  | nil => exact .nil
  | cons f fs ih =>
      rw [changeFirst]
      cases howns : f.ownsReturn with
      | true =>
          simp only [if_true, List.map_cons, ownsReturn_of_bearing (hbearing f), howns]
          exact .owner (by simp [hset, hp])
      | false =>
          simp only [Bool.false_eq_true, if_false, List.map_cons, howns]
          exact .inner ih

/-- A change that sets no mark. -/
theorem marked_same (hbearing : ∀ f, (change f).bearing = f.bearing)
    (hsame : ∀ f, mark (change f) = mark f) (hp : ¬ p) (s : GenState) :
    Marked p (s.marks mark) ((s.changeNearest q change).marks mark) := by
  have hmarks : (s.changeNearest q change).marks mark = s.marks mark := by
    rw [marks, changeNearest_frames]
    exact map_changeFirst (fun f => by rw [ownsReturn_of_bearing (hbearing f), hsame]) _
  rw [hmarks]
  exact .refl hp _

theorem forall_changeFirst {P : Frame → Prop} (hchange : ∀ f, P f → P (change f)) {fs : List Frame}
    (h : ∀ f ∈ fs, P f) : ∀ f ∈ changeFirst q change fs, P f := by
  induction fs with
  | nil => exact h
  | cons f fs ih =>
      obtain ⟨hf, hfs⟩ := List.forall_mem_cons.mp h
      rw [changeFirst]
      split
      · exact List.forall_mem_cons.mpr ⟨hchange f hf, hfs⟩
      · exact List.forall_mem_cons.mpr ⟨hf, ih hfs⟩

end Changes

end GenState

/-! ## Runs -/

/-- That the variables of all functions around the current place have no brackets in their names. -/
def GenState.Plain (s : GenState) : Prop :=
  ∀ xs ∈ (s.frame :: s.outer).map Frame.locals, ∀ x ∈ xs, Script.Plain x

/-- That a run from `s` to `t` accounts for what it uses. -/
structure Accounts (us : Set Use) (s t : GenState) : Prop where
  bearings : t.bearings = s.bearings
  temps : s.frame.temps ≤ t.frame.temps
  outer : t.outer.map Frame.temps = s.outer.map Frame.temps
  names : ∀ x, .name x ∈ us → (∃ k, x = .temp k ∧ 1 ≤ k ∧ k ≤ t.frame.temps) ∨ x = .own "$iter"
  near : .nearReturn ∈ us → s.frame.ownsReturn = true
  functions : ∀ f, .function f ∈ us → f.Sound
  far : Marked (∃ u ∈ us, Use.farReturn.Carries u) (s.marks Frame.catchesReturn)
    (t.marks Frame.catchesReturn)
  iter : Marked (∃ u ∈ us, Use.iter.Carries u) (s.marks Frame.usesIter) (t.marks Frame.usesIter)
  method : (∃ u ∈ us, Use.iter.Carries u) → s.method?.isSome = true
  plain : s.Plain → t.Plain

namespace Accounts

variable {us us' : Set Use} {s t u : GenState}

theorem method?_eq (h : t.bearings = s.bearings) : t.method? = s.method? := by
  rw [GenState.method?_eq, GenState.methodIn_eq h, ← GenState.method?_eq]

theorem ownsReturn_eq (h : t.bearings = s.bearings) : t.frame.ownsReturn = s.frame.ownsReturn :=
  GenState.ownsReturn_of_bearing (List.cons.inj h).1

/-- A run that changes nothing. What it uses needs no note. -/
theorem of_quiet (hnames : ∀ x, .name x ∉ us) (hnear : .nearReturn ∈ us → s.frame.ownsReturn = true)
    (hfunctions : ∀ f, .function f ∈ us → f.Sound)
    (hfar : ¬ ∃ u ∈ us, Use.farReturn.Carries u) (hiter : ¬ ∃ u ∈ us, Use.iter.Carries u) :
    Accounts us s s where
  bearings := rfl
  temps := Nat.le_refl _
  outer := rfl
  names x hx := absurd hx (hnames x)
  near := hnear
  functions := hfunctions
  far := .refl hfar _
  iter := .refl hiter _
  method hcarries := absurd hcarries hiter
  plain := id

theorem refl (s : GenState) : Accounts ∅ s s :=
  of_quiet (by simp) (by simp) (by simp) (by simp) (by simp)

/-- A `return` that the program says, in a function that it leaves. -/
theorem nearReturn (h : s.frame.ownsReturn = true) : Accounts {.nearReturn} s s := by
  have hquiet : ∀ v : Use, .nearReturn ≠ v → ¬ ∃ u ∈ ({.nearReturn} : Set Use), v.Carries u := by
    rintro v hv ⟨u, rfl, hcarries⟩
    exact hv (Use.carries_nearReturn.mp hcarries)
  refine of_quiet nofun (fun _ => h) nofun (hquiet .farReturn ?_) (hquiet .iter ?_)
  · exact nofun
  · exact nofun

/-- A run that changes one frame, but neither its bearings nor its temporaries. -/
theorem changeNearest {q : Frame → Bool} {change : Frame → Frame}
    (hbearing : ∀ f, (change f).bearing = f.bearing) (htemps : ∀ f, (change f).temps = f.temps)
    (hus : ∀ v ∈ us, v = .farReturn ∨ v = .iter)
    (hfar : Marked (∃ u ∈ us, Use.farReturn.Carries u) (s.marks Frame.catchesReturn)
      ((s.changeNearest q change).marks Frame.catchesReturn))
    (hiter : Marked (∃ u ∈ us, Use.iter.Carries u) (s.marks Frame.usesIter)
      ((s.changeNearest q change).marks Frame.usesIter))
    (hmethod : (∃ u ∈ us, Use.iter.Carries u) → s.method?.isSome = true)
    (hplain : ∀ f, (∀ x ∈ f.locals, Plain x) → ∀ x ∈ (change f).locals, Plain x) :
    Accounts us s (s.changeNearest q change) := by
  have hall : (GenState.changeFirst q change (s.frame :: s.outer)).map Frame.temps =
      (s.frame :: s.outer).map Frame.temps := map_changeFirst htemps _
  rw [← changeNearest_frames] at hall
  obtain ⟨hframe, houter⟩ := List.cons.inj hall
  exact
    { bearings := GenState.bearings_changeNearest hbearing s
      temps := hframe.ge
      outer := houter
      names := fun x hx => .inr (Use.name.inj ((hus _ hx).resolve_left nofun))
      near := fun hnear => absurd (hus _ hnear) (by simp [Use.iter])
      functions := fun f hf => absurd (hus _ hf) (by simp [Use.iter])
      far := hfar
      iter := hiter
      method := hmethod
      plain := fun h => by
        rw [GenState.Plain, List.forall_mem_map] at h ⊢
        rw [changeNearest_frames]
        exact GenState.forall_changeFirst hplain h }

theorem exists_union {p : Use → Prop} :
    (∃ u ∈ us, p u) ∨ (∃ u ∈ us', p u) ↔ ∃ u ∈ us ∪ us', p u := by
  simp only [Set.mem_union, or_and_right, exists_or]

theorem trans (h : Accounts us s t) (h' : Accounts us' t u) : Accounts (us ∪ us') s u where
  bearings := h'.bearings.trans h.bearings
  temps := Nat.le_trans h.temps h'.temps
  outer := h'.outer.trans h.outer
  names := by
    rintro x (hx | hx)
    · obtain ⟨k, rfl, hlow, hhigh⟩ | hiter := h.names x hx
      · exact .inl ⟨k, rfl, hlow, Nat.le_trans hhigh h'.temps⟩
      · exact .inr hiter
    · exact h'.names x hx
  near := by
    rintro (hnear | hnear)
    · exact h.near hnear
    · exact ownsReturn_eq h.bearings ▸ h'.near hnear
  functions := by
    rintro f (hf | hf)
    · exact h.functions f hf
    · exact h'.functions f hf
  far := (h.far.trans h'.far).congr exists_union
  iter := (h.iter.trans h'.iter).congr exists_union
  method := by
    rintro hcarries
    rcases exists_union.mpr hcarries with hcarries | hcarries
    · exact h.method hcarries
    · exact method?_eq h.bearings ▸ h'.method hcarries
  plain hs := h'.plain (h.plain hs)

end Accounts

/-! ## Computations -/

/-- That the name and the arguments that a `super` takes from a method do not matter. -/
structure MethodInfo.Quiet (m : MethodInfo) : Prop where
  function : (Name.own m.function).isTelling = false
  forwarded : told m.forwarded = ∅

/-- That all methods around the current place are such. -/
def GenState.Quiet (s : GenState) : Prop := ∀ b ∈ s.bearings, ∀ m ∈ b.2.2, m.Quiet

/-- That they have no flaws either, if `C` holds. -/
structure MethodInfo.Ready (C : Prop) (m : MethodInfo) : Prop where
  quiet : m.Quiet
  closed : C → Plain m.function ∧ none ∉ gist m.forwarded

/-- That all methods around the current place are such, and the names of variables. -/
structure GenState.Ready (C : Prop) (s : GenState) : Prop where
  methods : ∀ b ∈ s.bearings, ∀ m ∈ b.2.2, m.Ready C
  plain : C → s.Plain

theorem GenState.Quiet.ready {s : GenState} (h : s.Quiet) : s.Ready False :=
  ⟨fun b hb m hm => ⟨h b hb m hm, False.elim⟩, False.elim⟩

theorem Accounts.ready {C : Prop} {us : Set Use} {s t : GenState} (h : Accounts us s t)
    (hs : s.Ready C) : t.Ready C :=
  ⟨h.bearings ▸ hs.methods, fun hC => h.plain (hs.plain hC)⟩

theorem GenState.Ready.method {C : Prop} {s : GenState} (h : s.Ready C) {m : MethodInfo}
    (hm : s.method? = some m) : m.Ready C := by
  have hfind : ∀ fs : List Frame, methodIn fs = some m → ∃ f ∈ fs, f.method = some m := by
    intro fs
    induction fs with
    | nil => exact fun hnone => nomatch hnone
    | cons f fs ih =>
        intro hsome
        rw [methodIn] at hsome
        split at hsome
        · obtain ⟨g, hg, hmethod⟩ := ih hsome
          exact ⟨g, List.mem_cons_of_mem _ hg, hmethod⟩
        · split at hsome
          · exact ⟨f, List.mem_cons_self, hsome⟩
          · cases hsome
  rw [method?_eq] at hm
  obtain ⟨f, hf, hmethod⟩ := hfind _ hm
  exact h.methods f.bearing (List.mem_map_of_mem hf) m hmethod

/-- That `P` holds of what is generated. -/
def Yields {α : Type} (m : Gen α) (P : α → Prop) : Prop := ∀ s a t, m s = .ok (a, t) → P a

theorem Yields.pure {α : Type} {P : α → Prop} {a : α} (h : P a) : Yields (Pure.pure a) P := by
  intro s b t hrun
  obtain ⟨rfl, -⟩ := run_ok_inj hrun
  exact h

theorem Yields.bind {α β : Type} {P : β → Prop} {m : Gen α} {f : α → Gen β}
    (hf : ∀ a, Yields (f a) P) : Yields (m >>= f) P := by
  intro s b t hrun
  obtain ⟨a, u, -, hrest⟩ := run_bind_eq_ok hrun
  exact hf a u b t hrest

section Tells

variable {C : Prop} {α β : Type} {s t : GenState} {before : Set (Option Use)} {m : Gen α}
  {after : α → Set (Option Use)} {after' : β → Set (Option Use)}
variable {ms : Set (Option Use)} {a : α}

/-- That the result of a computation from `s` tells what was told `before` and what its run uses. -/
def TellsAt (C : Prop) (s : GenState) (before : Set (Option Use)) (m : Gen α)
    (after : α → Set (Option Use)) : Prop :=
  ∀ a t, m s = .ok (a, t) →
    ∃ us, Accounts {u | some u ∈ us} s t ∧ (C → Closes us) ∧ after a = before ∪ us

/-- That it does so wherever it runs. -/
def Tells (C : Prop) (before : Set (Option Use)) (m : Gen α) (after : α → Set (Option Use)) : Prop :=
  ∀ s, s.Ready C → TellsAt C s before m after

theorem TellsAt.pure (h : after a = before) : TellsAt C s before (Pure.pure a) after := by
  intro b t hrun
  obtain ⟨rfl, rfl⟩ := run_ok_inj hrun
  exact ⟨∅, .refl s, fun _ => Script.closes_empty, by rw [h, Set.union_empty]⟩

/-- What a run uses is told without a flaw, if its functions are closed. -/
theorem Accounts.tells {us : Set Use} (h : Accounts us s t) (hms : some '' us = ms)
    (hus : ∀ f, .function f ∈ us → C → f.Closed) :
    ∃ us', Accounts {u | some u ∈ us'} s t ∧ (C → Closes us') ∧ ms = ∅ ∪ us' := by
  subst hms
  refine ⟨some '' us, by simpa using h, fun hC => ⟨by simp, fun f hf => ?_⟩, by simp⟩
  exact hus f (by simpa using hf) hC

namespace Tells

variable {f : α → Gen β}

theorem pure (h : after a = before) : Tells C before (Pure.pure a) after :=
  fun _ _ => .pure h

/-- A flaw may be told if the result need not be closed. -/
theorem flawed (hms : ∀ u, some u ∉ ms) (hC : C → none ∉ ms) (h : after a = before ∪ ms) :
    Tells C before (Pure.pure a) after := by
  intro s _ b t hrun
  obtain ⟨rfl, rfl⟩ := run_ok_inj hrun
  refine ⟨ms, ?_, fun hc => ⟨hC hc, fun f hf => absurd hf (hms _)⟩, h⟩
  have hnone : {u | some u ∈ ms} = ∅ := Set.eq_empty_iff_forall_notMem.mpr hms
  exact hnone ▸ .refl s

/-- The second part goes on from what the first one used, and may count on what it made. -/
theorem andThenOf {P : α → Prop} (hm : Tells C before m after) (hP : Yields m P)
    (hf : ∀ a, P a → Tells C (after a) (f a) after') : Tells C before (m >>= f) after' := by
  intro s hs b t hrun
  obtain ⟨a, u, h₁, h₂⟩ := run_bind_eq_ok hrun
  obtain ⟨us, haccounts, hcloses, ha⟩ := hm s hs a u h₁
  obtain ⟨us', haccounts', hcloses', hb⟩ := hf a (hP s a u h₁) u (haccounts.ready hs) b t h₂
  refine ⟨us ∪ us', haccounts.trans haccounts', fun hC => ?_, by rw [hb, ha, Set.union_assoc]⟩
  exact Script.closes_union.mpr ⟨hcloses hC, hcloses' hC⟩

theorem andThen (hm : Tells C before m after) (hf : ∀ a, Tells C (after a) (f a) after') :
    Tells C before (m >>= f) after' :=
  hm.andThenOf (fun _ _ _ _ => trivial) fun a _ => hf a

/-- What was used before is carried along. -/
theorem carry (hm : Tells C ∅ m after) : Tells C before m fun a => before ∪ after a := by
  intro s hs a t hrun
  obtain ⟨us, haccounts, hcloses, ha⟩ := hm s hs a t hrun
  refine ⟨us, haccounts, hcloses, ?_⟩
  show before ∪ after a = before ∪ us
  rw [ha, Set.empty_union]

theorem bind (hm : Tells C ∅ m after) (hf : ∀ a, Tells C (before ∪ after a) (f a) after') :
    Tells C before (m >>= f) after' :=
  hm.carry.andThen hf

theorem pure_bind (h : Tells C before (f a) after') :
    Tells C before (Pure.pure a >>= f) after' := h

/-- A last step that changes nothing. -/
theorem map {f : α → β} (hm : Tells C ∅ m after) (hf : ∀ a, after' (f a) = before ∪ after a) :
    Tells C before (m >>= fun a => Pure.pure (f a)) after' :=
  hm.bind fun a => pure (hf a)

theorem get {f : GenState → Gen α} (hf : ∀ s, s.Ready C → TellsAt C s before (f s) after) :
    Tells C before (MonadState.get >>= f) after :=
  fun s hs a t hrun => hf s hs a t hrun

theorem refuse (r : Refusal) : Tells C before (Gen.refuse r : Gen α) after := by
  intro s _ a t h
  cases h

theorem ite {c : Prop} [Decidable c] {m m' : Gen α} (hm : Tells C before m after)
    (hm' : Tells C before m' after) : Tells C before (if c then m else m') after := by
  split
  · exact hm
  · exact hm'

theorem modified {f : GenState → GenState} {us : Set Use} (hms : some '' us = ms)
    (hus : ∀ f, .function f ∉ us) (h : ∀ s, Accounts us s (f s)) :
    Tells C ∅ (modify f : Gen PUnit) fun _ => ms := by
  intro s _ a t hrun
  obtain ⟨-, rfl⟩ := run_ok_inj hrun
  exact (h s).tells hms fun f hf => absurd hf (hus f)

/-! ### Primitive computations -/

theorem temp : Tells C ∅ Gen.temp fun k => {some (.name (.temp k))} := by
  intro s _ k t hrun
  obtain ⟨rfl, rfl⟩ := run_ok_inj hrun
  refine Accounts.tells ?_ Set.image_singleton (by simp)
  have hquiet : ∀ u : Use, (∀ k, .name (.temp k) ≠ u) →
      ¬ ∃ v ∈ ({.name (.temp (s.frame.temps + 1))} : Set Use), u.Carries v := by
    rintro u hu ⟨v, rfl, hv⟩
    exact hu _ ((Use.carries_name _).mp hv)
  have hfar := hquiet .farReturn (by simp)
  have hiter := hquiet .iter (by simp [Use.iter])
  exact
    { bearings := rfl
      temps := Nat.le_succ _
      outer := rfl
      names := by
        rintro x hx
        obtain rfl := Use.name.inj hx
        exact .inl ⟨_, rfl, Nat.succ_pos _, Nat.le_refl _⟩
      near := by simp
      functions := by simp
      far := .refl hfar _
      iter := .refl hiter _
      method := fun hcarries => absurd hcarries hiter
      plain := id }

theorem declareLocal {x : String} (hx : Plain x) : Tells C ∅ (Gen.declareLocal x) fun _ => ∅ := by
  have hbearing : ∀ f : Frame, ({ f with locals := f.locals ++ [x] } : Frame).bearing = f.bearing :=
    fun _ => rfl
  refine modified (Set.image_empty _) (by simp) fun s => ?_
  rw [GenState.declareLocal]
  split
  · exact .refl s
  · refine .changeNearest hbearing (fun _ => rfl) (by simp) ?_ ?_ (by simp) fun f hf => ?_
    · exact GenState.marked_same hbearing (fun _ => rfl) (by simp) s
    · exact GenState.marked_same hbearing (fun _ => rfl) (by simp) s
    · exact List.forall_mem_append.mpr ⟨hf, List.forall_mem_singleton.mpr hx⟩

theorem record (d : Declaration) : Tells C ∅ (Gen.record d) fun _ => ∅ := by
  refine modified (Set.image_empty _) (by simp) fun s => ?_
  rw [GenState.record]
  split
  · exact .refl s
  · exact { Accounts.refl s with }

/-- A far return is noted at the function it leaves. -/
theorem markReturn : Tells C ∅ Gen.markReturn fun _ => {some .farReturn} := by
  have hbearing : ∀ f : Frame, ({ f with catchesReturn := true } : Frame).bearing = f.bearing :=
    fun _ => rfl
  have hiter : ¬ ∃ v ∈ ({.farReturn} : Set Use), Use.iter.Carries v := by
    rintro ⟨v, rfl, hv⟩
    exact nomatch Use.carries_farReturn.mp hv
  have hfar : ∃ v ∈ ({.farReturn} : Set Use), Use.farReturn.Carries v := ⟨.farReturn, rfl, .inl rfl⟩
  refine modified Set.image_singleton (by simp) fun s => ?_
  refine .changeNearest hbearing (fun _ => rfl) (fun _ => .inl) ?_ ?_ ?_ fun _ => id
  · exact GenState.marked_set hbearing (fun _ => rfl) hfar s
  · exact GenState.marked_same hbearing (fun _ => rfl) hiter s
  · exact fun hcarries => absurd hcarries hiter

/-- The block of a method is noted as used at the function of the method. -/
theorem useIter : Tells C ∅ Gen.useIter fun used => if used then {some .iter} else ∅ := by
  have hbearing : ∀ f : Frame, ({ f with usesIter := true } : Frame).bearing = f.bearing :=
    fun _ => rfl
  have hfar : ¬ ∃ v ∈ ({.iter} : Set Use), Use.farReturn.Carries v := by
    rintro ⟨v, rfl, hv⟩
    exact nomatch (Use.carries_name _).mp hv
  have hiter : ∃ v ∈ ({.iter} : Set Use), Use.iter.Carries v := ⟨.iter, rfl, .inl rfl⟩
  intro s _ used t hrun
  rw [Gen.useIter_eq] at hrun
  split at hrun
  · rename_i hmethod
    obtain ⟨rfl, rfl⟩ := run_ok_inj hrun
    refine Accounts.tells ?_ Set.image_singleton (by simp [Use.iter])
    refine .changeNearest hbearing (fun _ => rfl) (fun _ => .inr) ?_ ?_ (fun _ => hmethod) fun _ => id
    · exact GenState.marked_same hbearing (fun _ => rfl) hfar s
    · exact GenState.marked_set hbearing (fun _ => rfl) hiter s
  · obtain ⟨rfl, rfl⟩ := run_ok_inj hrun
    exact TellsAt.pure (by simp) _ _ rfl

/-! ### Loops and functions -/

/-- Loops change nothing else in a frame. -/
theorem inLoop (hm : Tells C ∅ m after) : Tells C ∅ (Gen.inLoop m) after := by
  intro s hs a t hrun
  obtain ⟨_, s', hdeeper, hrest⟩ := run_bind_eq_ok hrun
  obtain ⟨-, rfl⟩ := run_ok_inj hdeeper
  obtain ⟨b, u, hrun', hback⟩ := run_bind_eq_ok hrest
  obtain ⟨rfl, rfl⟩ := run_ok_inj hback
  have hready : s.deeper.Ready C := by
    refine ⟨fun b hb => ?_, hs.plain⟩
    rcases List.mem_cons.mp hb with rfl | hb
    · exact hs.methods s.frame.bearing List.mem_cons_self
    · exact hs.methods b (List.mem_cons_of_mem _ hb)
  obtain ⟨us, haccounts, hcloses, ha⟩ := hm s.deeper hready b u hrun'
  have hmethod : s.deeper.method? = s.method? := by
    rw [GenState.method?_eq, GenState.method?_eq]
    rfl
  exact ⟨us, { haccounts with
    bearings := GenState.bearings_loopEnd haccounts.bearings
    method := hmethod ▸ haccounts.method
    plain := haccounts.plain }, hcloses, ha⟩

end Tells

end Tells

/-- What is used of the block of a method without being noted. -/
def unnoted (takesBlock : Bool) : Set (Option Use) := if takesBlock then {some .iter} else ∅

theorem closes_unnoted (takesBlock : Bool) : Closes (unnoted takesBlock) := by
  cases takesBlock <;> simp [unnoted, Closes, Use.iter]

/-- That a function is finished in the frame `f`: what its statements use is all that it uses, and
it has what its frame noted. A method also takes its block if a parameter needs it. It is closed if
its statements are and its variables have plain names. -/
structure Finishes (f : Frame) (takesBlock : Bool)
    (make : List Stmt → Frame → Func Term Stmt) : Prop where
  catchesReturn : f.catchesReturn = false
  locals : f.locals = []
  closed : ∀ ss g, StmtsClosed ss → (∀ x ∈ g.locals, Plain x) → (make ss g).Closed
  method : ∀ m ∈ f.method, m.Ready True
  temps : ∀ ss g, (make ss g).temps = g.temps
  catches : ∀ ss g, (make ss g).catchesReturn = g.catchesReturn
  keeps : ∀ ss g, gist (make ss g) = gist ss
  bindsSelf : ∀ ss g, (make ss g).bindsSelf = f.ownsReturn
  onlyMethod : takesBlock = true → f.kind = .method
  iter : f.kind = .method → ∀ ss g, g.usesIter = true ∨ takesBlock = true → (make ss g).TakesBlock

theorem Script.Func.reaches_iff_gist {f : Func Term Stmt} {u : Use} (hu : u.isTelling = true) :
    f.Reaches u ↔ ∃ v, some v ∈ gist f ∧ u.Carries v := by
  simp only [Script.Func.reaches_iff, Script.mem_gist_function]
  constructor
  · rintro ⟨v, hv, hcarries⟩
    exact ⟨v, ⟨hv, Use.isTelling_of_carries hu hcarries⟩, hcarries⟩
  · rintro ⟨v, hv, hcarries⟩
    exact ⟨v, hv.1, hcarries⟩

section Functions

variable {f : Frame} {takesBlock : Bool} {make : List Stmt → Frame → Func Term Stmt}
  {s t : GenState} {us : Set (Option Use)} {ss : List Stmt} {C : Prop}
variable {F : Func Term Stmt}

theorem exists_unnoted {u : Use} (hu : Use.iter ≠ u) :
    (∃ v, some v ∈ unnoted takesBlock ∪ us ∧ u.Carries v) ↔ ∃ v ∈ {v | some v ∈ us}, u.Carries v := by
  simp only [Set.mem_union, or_and_right, exists_or]
  refine or_iff_right ?_
  rintro ⟨v, hv, hcarries⟩
  cases takesBlock with
  | false => exact hv
  | true =>
      obtain rfl : v = .iter := Option.some.inj hv
      exact hu ((Use.carries_name _).mp hcarries)

/-- A function that a `return` leaves is marked itself, and the functions around it are as they
were; any other function leaves the marks to those around it. -/
theorem GenState.marked_cases {hit : Prop} {mark : Frame → Bool}
    (h : Marked hit (s.marks mark) (t.marks mark)) :
    (s.frame.ownsReturn = true ∧ (mark t.frame = true ↔ mark s.frame = true ∨ hit) ∧
      t.outer.map (fun g => (g.ownsReturn, mark g)) =
        s.outer.map fun g => (g.ownsReturn, mark g)) ∨
    (s.frame.ownsReturn = false ∧ mark t.frame = mark s.frame ∧
      Marked hit (s.outer.map fun g => (g.ownsReturn, mark g))
        (t.outer.map fun g => (g.ownsReturn, mark g))) := by
  have hhead : ∀ {o b o' b' : Bool} {ms ms' : List (Bool × Bool)},
      Marked hit ((o, b) :: ms) ((o', b') :: ms') →
      (o = true ∧ (b' = true ↔ b = true ∨ hit) ∧ ms' = ms) ∨
        (o = false ∧ b' = b ∧ Marked hit ms ms') := by
    intro o b o' b' ms ms' hmarked
    cases hmarked with
    | inner hrest => exact .inr ⟨rfl, rfl, hrest⟩
    | owner hmark => exact .inl ⟨rfl, hmark, rfl⟩
  exact hhead h

theorem GenState.kind_of_method (howns : s.frame.ownsReturn = true) (h : s.method?.isSome = true) :
    s.frame.kind = .method := by
  have hsees : s.frame.kind.seesOuter = false := by simpa [Frame.ownsReturn] using howns
  rw [GenState.method?_eq, GenState.methodIn, hsees, if_neg Bool.false_ne_true] at h
  split at h
  · rename_i hkind
    exact beq_iff_eq.mp hkind
  · cases h

/-- A function that uses what a run uses is tidy, if it has what the frame noted in the run. -/
theorem tidy_of_run (hrun : Accounts {u | some u ∈ us} s t)
    (hgist : gist F = unnoted takesBlock ∪ us) (hstart : s.frame.catchesReturn = false)
    (htemps : F.temps = t.frame.temps) (hcatches : F.catchesReturn = t.frame.catchesReturn)
    (hself : F.bindsSelf = s.frame.ownsReturn)
    (hblock : takesBlock = true ∨ s.frame.kind = .method ∧ t.frame.usesIter = true → F.TakesBlock) :
    F.Tidy := by
  -- all that matters was used in the run, but for the block that a parameter takes
  have hmem : ∀ u ∈ F.uses, u.isTelling = true → u = .iter ∧ takesBlock = true ∨ some u ∈ us := by
    intro u hu htelling
    have hu : some u ∈ unnoted takesBlock ∪ us :=
      hgist ▸ Script.mem_gist_function.mpr ⟨hu, htelling⟩
    cases takesBlock with
    | true => exact hu.imp (⟨Option.some.inj ·, rfl⟩) id
    | false => exact .inr (hu.resolve_left id)
  refine ⟨fun x hx htelling => ?_, fun hnear => ?_, ?_, fun hbinds hiter => ?_⟩
  · rw [htemps]
    rcases hmem _ hx htelling with ⟨hx, -⟩ | hx
    · exact .inr (Use.name.inj hx)
    · exact hrun.names x hx
  · rcases hmem _ hnear rfl with ⟨hnear, -⟩ | hnear
    · cases hnear
    · rw [hself]
      exact hrun.near hnear
  · rw [Script.Func.reaches_iff_gist rfl, hgist, exists_unnoted (by simp [Use.iter]), hcatches,
      hself]
    -- the mark was not set before, so what set it is in the run
    rcases GenState.marked_cases hrun.far with ⟨howns, hmark, -⟩ | ⟨hinner, hmark, -⟩
    · simp [hmark, howns, hstart]
    · simp [hmark, hinner, hstart]
  · rw [hself] at hbinds
    rw [Script.Func.reaches_iff_gist (by decide), hgist] at hiter
    obtain ⟨v, hv | hv, hcarries⟩ := hiter
    · refine hblock (.inl ?_)
      cases takesBlock with
      | true => rfl
      | false => exact absurd hv id
    · have hiter : ∃ v ∈ {v | some v ∈ us}, Use.iter.Carries v := ⟨v, hv, hcarries⟩
      refine hblock (.inr ⟨GenState.kind_of_method hbinds (hrun.method hiter), ?_⟩)
      rcases GenState.marked_cases hrun.iter with ⟨-, hmark, -⟩ | ⟨hinner, -⟩
      · exact hmark.mpr (.inr hiter)
      · exact absurd (hbinds.symm.trans hinner) (by decide)

/-- So are the functions inside of it. -/
theorem sound_of_run (hrun : Accounts {u | some u ∈ us} s t)
    (hgist : gist F = unnoted takesBlock ∪ us) (htidy : F.Tidy) : F.Sound := by
  refine htidy.sound fun g hg => hrun.functions g ?_
  have hmem : some (.function g) ∈ unnoted takesBlock ∪ us :=
    hgist ▸ Script.mem_gist_function.mpr ⟨hg, rfl⟩
  refine hmem.resolve_left fun hiter => ?_
  cases takesBlock <;> cases hiter

theorem exists_singleton_function {v : Use} (hv : .function F ≠ v)
    (hself : F.bindsSelf = f.ownsReturn) :
    (∃ u ∈ ({.function F} : Set Use), v.Carries u) ↔ f.ownsReturn = false ∧ F.Reaches v := by
  rw [← hself, ← Use.carries_function hv]
  simp

/-- When the frame `f` is left, the functions around keep their marks if a `return` leaves `f`. -/
theorem GenState.marked_pop {hit hit' : Prop} {mark : Frame → Bool} {t' : GenState}
    (h : Marked hit ((s.push f).marks mark) (t.marks mark))
    (hhit : hit' ↔ f.ownsReturn = false ∧ hit) (hback : t'.frame :: t'.outer = t.outer) :
    Marked hit' (s.marks mark) (t'.marks mark) := by
  rw [marks, marks, hback]
  rcases marked_cases h with ⟨howns, -, hsame⟩ | ⟨hinner, -, hrest⟩
  · rw [hsame]
    refine .refl (fun hit => ?_) _
    exact absurd ((hhit.mp hit).1.symm.trans howns) Bool.false_ne_true
  · exact hrest.congr (hhit.trans (and_iff_right hinner)).symm

namespace Finishes

theorem plain_push (h : Finishes f takesBlock make) (hs : s.Plain) : (s.push f).Plain := by
  refine List.forall_mem_cons.mpr ⟨fun x hx => ?_, hs⟩
  have hx : x ∈ f.locals := hx
  rw [h.locals] at hx
  exact absurd hx List.not_mem_nil

theorem tidy (h : Finishes f takesBlock make) (hrun : Accounts {u | some u ∈ us} (s.push f) t)
    (hgist : gist (make ss t.frame) = unnoted takesBlock ∪ us) : (make ss t.frame).Tidy := by
  refine tidy_of_run hrun hgist h.catchesReturn (h.temps _ _) (h.catches _ _) (h.bindsSelf _ _) ?_
  rintro (htakes | ⟨hkind, huses⟩)
  · exact h.iter (h.onlyMethod htakes) _ _ (.inr htakes)
  · exact h.iter hkind _ _ (.inl huses)

/-- A block carries what its statements carry, which all was noted. -/
theorem carries_iff (h : Finishes f takesBlock make) {g : Frame}
    (hgist : gist (make ss g) = unnoted takesBlock ∪ us) {v : Use} (hv : v.isTelling = true)
    (hfunction : ∀ F, .function F ≠ v) :
    (∃ u ∈ ({.function (make ss g)} : Set Use), v.Carries u) ↔
      f.ownsReturn = false ∧ ∃ u ∈ {u | some u ∈ us}, v.Carries u := by
  rw [exists_singleton_function (hfunction _) (h.bindsSelf ss g)]
  refine and_congr_right fun hinner => ?_
  -- only methods take a block that no frame noted
  have hplain : takesBlock = false := by
    refine Bool.eq_false_iff.mpr fun htakes => ?_
    rw [Frame.ownsReturn, h.onlyMethod htakes] at hinner
    cases hinner
  rw [Script.Func.reaches_iff_gist hv, hgist, hplain, unnoted, if_neg Bool.false_ne_true,
    Set.empty_union]
  rfl

/-- To the functions around, only a function without a `self` of its own matters. -/
theorem accounts (h : Finishes f takesBlock make) (hrun : Accounts {u | some u ∈ us} (s.push f) t)
    (hss : gist ss = unnoted takesBlock ∪ us) {t' : GenState}
    (hback : t'.frame :: t'.outer = t.outer) : Accounts {.function (make ss t.frame)} s t' := by
  have hgist : gist (make ss t.frame) = unnoted takesBlock ∪ us := (h.keeps ss _).trans hss
  have hbearings : t'.bearings = s.bearings := by
    rw [GenState.bearings, hback]
    exact (List.cons.inj hrun.bearings).2
  have htemps : (t'.frame :: t'.outer).map Frame.temps = (s.frame :: s.outer).map Frame.temps :=
    hback ▸ hrun.outer
  obtain ⟨hframe, houter⟩ := List.cons.inj htemps
  have hfar := h.carries_iff hgist (v := .farReturn) rfl (fun _ heq => by cases heq)
  have hiter := h.carries_iff hgist (v := .iter) (by decide) (fun _ heq => by cases heq)
  exact
    { bearings := hbearings
      temps := hframe.ge
      outer := houter
      names := fun _ hx => by cases hx
      near := fun hnear => by cases hnear
      functions := fun F hF => by
        obtain rfl := Use.function.inj hF
        exact sound_of_run hrun hgist (h.tidy hrun hgist)
      far := GenState.marked_pop hrun.far hfar hback
      iter := GenState.marked_pop hrun.iter hiter hback
      method := fun hcarries => by
        -- a block that uses the block of a method stands in that method
        obtain ⟨hinner, hcarries⟩ := hiter.mp hcarries
        have hmethod := hrun.method hcarries
        rw [GenState.method?_eq] at hmethod ⊢
        change (GenState.methodIn (f :: s.frame :: s.outer)).isSome = true at hmethod
        rwa [GenState.methodIn, if_pos (by simpa [Frame.ownsReturn] using hinner)] at hmethod
      plain := fun hs => by
        rw [GenState.Plain, hback]
        exact (List.forall_mem_cons.mp (hrun.plain (h.plain_push hs))).2 }

end Finishes

/-- What is generated in a frame of its own becomes a function that accounts for itself. To the
functions around, only a function without a `self` of its own matters. -/
theorem Tells.inFrame {m : Gen (List Stmt)} (hm : Tells C (unnoted takesBlock) m gist)
    (h : Finishes f takesBlock make) :
    Tells C ∅ (Gen.inFrame f m) fun r => {some (.function (make r.1 r.2))} := by
  intro s hs r t hrun
  obtain ⟨ss, frame⟩ := r
  obtain ⟨u, hrun', rfl, -, hback⟩ := inFrame_eq_ok hrun
  have hpush : (s.push f).Ready C := by
    refine ⟨fun b hb => ?_, fun hC => h.plain_push (hs.plain hC)⟩
    rcases List.mem_cons.mp hb with rfl | hb
    · exact fun m hm => ⟨(h.method m hm).quiet, fun _ => (h.method m hm).closed trivial⟩
    · exact hs.methods b hb
  obtain ⟨us, haccounts, hcloses, hss⟩ := hm (s.push f) hpush ss u hrun'
  refine (h.accounts haccounts hss hback).tells Set.image_singleton fun F hF hC => ?_
  obtain rfl := Use.function.inj hF
  refine h.closed ss u.frame (.of_gist ?_) (haccounts.plain (hpush.plain hC) _ List.mem_cons_self)
  rw [hss]
  exact Script.closes_union.mpr ⟨closes_unnoted takesBlock, hcloses hC⟩

/-- A function written on one line, which uses nothing that matters. -/
theorem Accounts.inline (body : List Stmt) (h : gist body = ∅) (s : GenState) :
    ∃ us, Accounts {u | some u ∈ us} s s ∧ (C → Closes us) ∧ {some (.function { body })} = ∅ ∪ us := by
  have hbody : StmtsClosed body := .of_gist (h ▸ Script.closes_empty)
  have hgist : gist ({ body } : Func Term Stmt) = ∅ := by
    rw [Script.gist_function]
    simpa using h
  have hquiet : ∀ v : Use, v.isTelling = true → v ∉ ({ body } : Func Term Stmt).uses := by
    intro v hv hmem
    have : some v ∈ gist ({ body } : Func Term Stmt) := Script.mem_gist_function.mpr ⟨hmem, hv⟩
    rw [hgist] at this
    exact this
  have hreaches : ∀ v : Use, v.isTelling = true → ¬ ({ body } : Func Term Stmt).Reaches v := by
    intro v hv
    rw [Script.Func.reaches_iff_gist hv, hgist]
    simp
  have htidy : ({ body } : Func Term Stmt).Tidy :=
    ⟨fun x hx htelling => absurd hx (hquiet _ htelling), fun hnear => absurd hnear (hquiet _ rfl),
      by simp [Script.Func.bindsSelf], by simp [Script.Func.bindsSelf]⟩
  have hcarried : ∀ v : Use, v.isTelling = true → (∀ F, .function F ≠ v) →
      ¬ ∃ u ∈ ({.function { body }} : Set Use), v.Carries u := by
    rintro v hv hfunction ⟨u, rfl, hcarries⟩
    exact hreaches v hv ((Use.carries_function (hfunction _)).mp hcarries).2
  have hrun : Accounts {.function { body }} s s := by
    refine of_quiet nofun nofun (fun F hF => ?_) (hcarried .farReturn rfl ?_)
      (hcarried .iter (by decide) ?_)
    · obtain rfl := Use.function.inj hF
      exact htidy.sound fun g hg => absurd hg (hquiet _ rfl)
    · exact fun _ => nofun
    · exact fun _ => nofun
  refine hrun.tells Set.image_singleton fun F hF _ => ?_
  obtain rfl := Use.function.inj hF
  exact ⟨by simp, by simp, by simp, by simp, by simp, .nil, hbody⟩

/-- In a frame that is no method's, everything is noted. -/
theorem Tells.inPlainFrame {m : Gen (List Stmt)} (hm : Tells C ∅ m gist)
    (h : Finishes f false make) :
    Tells C ∅ (Gen.inFrame f m) fun r => {some (.function (make r.1 r.2))} :=
  Tells.inFrame (by simpa [unnoted] using hm) h

end Functions

end RubyJs
