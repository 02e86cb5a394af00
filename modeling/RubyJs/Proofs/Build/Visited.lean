import Mathlib.Data.List.Nodup
import RubyJs.Proofs.Build.Steps

set_option autoImplicit false

/-! # The names of a build

At every place of a build the units are those emitted, in their order, and those that are open,
innermost first:

    names = emitted ++ open

This is the order in which all of them are emitted in the end: closing a unit moves it from the
front of the open ones to the end of the emitted ones, so the list stays as it is. The names are
visited, no two are the same, and besides them only names that the host has loaded are visited.
What a unit needs is visited once the build has followed the need (`Followed`).
-/

namespace RubyJs

namespace Builder

variable {c : Config}

/-- The names of the units on a stack. -/
def openNames (stack : List Open) : List String :=
  stack.filterMap fun o => o.record.map (·.logical)

/-- The names of the units that are emitted or open. -/
def Config.names (c : Config) : List String :=
  c.walk.records.map (·.logical) ++ openNames c.stack

theorem openNames_cons (o : Open) (stack : List Open) :
    openNames (o :: stack) = (o.record.map (·.logical)).toList ++ openNames stack := by
  cases h : o.record <;> simp [openNames, h]

theorem openNames_opening (unit : Record) (needs : List Need) (stack : List Open) :
    openNames (opening unit needs :: stack) = unit.logical :: openNames stack := rfl

/-- Following a need changes neither the source nor the record of a unit. -/
theorem openNames_follow (s : String) (past past' left left' : List Need) (ahead : Bool)
    (r : Option Record) (stack : List Open) :
    openNames (⟨s, past, left, ahead, r⟩ :: stack) =
      openNames (⟨s, past', left', ahead, r⟩ :: stack) := by
  rw [openNames_cons, openNames_cons]

theorem names_close (s : String) (past : List Need) (ahead : Bool) (r : Option Record)
    (stack : List Open) (w : Walk) :
    Config.names ⟨stack, { w with records := w.records ++ r.toList }⟩ =
      Config.names ⟨⟨s, past, [], ahead, r⟩ :: stack, w⟩ := by
  cases r <;> simp [Config.names, openNames_cons]

/-- A unit that is opened stands before all that are open, and after all that are emitted. -/
theorem names_sublist_opening (unit : Record) (needs : List Need) (stack : List Open)
    (w : Walk) (v : List String) (es : List Edge) :
    (Config.names ⟨stack, w⟩).Sublist
      (Config.names ⟨opening unit needs :: stack, { w with visited := v, edges := es }⟩) := by
  rw [Config.names, Config.names, openNames_opening]
  exact List.Sublist.append_left (List.sublist_cons_self _ _) _

theorem mem_names_opening (unit : Record) (needs : List Need) (stack : List Open) (w : Walk) :
    unit.logical ∈ Config.names ⟨opening unit needs :: stack, w⟩ := by
  rw [Config.names, openNames_opening]
  exact List.mem_append_right _ List.mem_cons_self

/-- What is kept about the names of a build. -/
structure Registered (b : Builder) (c : Config) : Prop where
  nodup : c.names.Nodup
  visited : ∀ v ∈ c.names, v ∈ c.walk.visited
  named : ∀ v ∈ c.walk.visited, v ∈ c.names ∨ b.isPrerequired v = true
  targets : ∀ e ∈ c.walk.edges, e.target ∈ c.walk.visited
  sources : ∀ e ∈ c.walk.edges, e.source ∈ c.names ∨ e.source = preloadRequester
  records : ∀ o ∈ c.stack, ∀ r, o.record = some r → r.logical = o.source
  root : ∀ o ∈ c.stack, o.record = none → o.source = preloadRequester

namespace Registered

variable {b : Builder}
variable {stack : List Open} {w : Walk}

/-- The source of an open unit is a name, or stands for what is loaded ahead. -/
theorem source_mem (h : Registered b c) {o : Open} (ho : o ∈ c.stack) :
    o.source ∈ c.names ∨ o.source = preloadRequester := by
  cases hr : o.record with
  | none => exact Or.inr (h.root o ho hr)
  | some r =>
      refine Or.inl (List.mem_append_right _ (List.mem_filterMap.mpr ⟨o, ho, ?_⟩))
      rw [hr, Option.map_some, h.records o ho r hr]

/-- A name that was not visited is not among the names. -/
theorem fresh (h : Registered b c) {v : String} (hv : v ∉ c.walk.visited) : v ∉ c.names :=
  fun hn => hv (h.visited v hn)

theorem start : Registered b ⟨[⟨preloadRequester, [], b.preloadNeeds, true, none⟩], {}⟩ where
  nodup := List.nodup_nil
  visited := by simp [Config.names, openNames]
  named := by simp
  targets := by simp
  sources := by simp
  records := by simp
  root := by simp

/-- It does not matter which needs of a unit were followed. -/
theorem advance {s : String} {past left : List Need} {ahead : Bool} {r : Option Record}
    (h : Registered b ⟨⟨s, past, left, ahead, r⟩ :: stack, w⟩) (past' left' : List Need) :
    Registered b ⟨⟨s, past', left', ahead, r⟩ :: stack, w⟩ := by
  have hnames : Config.names ⟨⟨s, past', left', ahead, r⟩ :: stack, w⟩ =
      Config.names ⟨⟨s, past, left, ahead, r⟩ :: stack, w⟩ := by
    rw [Config.names, Config.names, openNames_follow s past' past left' left]
  refine ⟨?_, ?_, ?_, h.targets, ?_, ?_, ?_⟩
  · rw [hnames]
    exact h.nodup
  · rw [hnames]
    exact h.visited
  · rw [hnames]
    exact h.named
  · rw [hnames]
    exact h.sources
  · exact List.forall_mem_cons.mpr (List.forall_mem_cons.mp h.records)
  · exact List.forall_mem_cons.mpr (List.forall_mem_cons.mp h.root)

/-- An edge can be noted from an open unit to a visited name. -/
theorem edge {o : Open} {n : Need} (h : Registered b ⟨stack, w⟩) (ho : o ∈ stack)
    (hn : n.2.logical ∈ w.visited) : Registered b ⟨stack, w.edge (needEdge o.source n)⟩ := by
  refine ⟨h.nodup, h.visited, h.named, ?_, ?_, h.records, h.root⟩
  · exact List.forall_mem_append.mpr ⟨h.targets, List.forall_mem_singleton.mpr hn⟩
  · exact List.forall_mem_append.mpr ⟨h.sources, List.forall_mem_singleton.mpr (h.source_mem ho)⟩

/-- A name that the host has loaded can be marked. -/
theorem loaded {v : String} (h : Registered b ⟨stack, w⟩) (hv : b.isPrerequired v = true) :
    Registered b ⟨stack, w.mark v⟩ := by
  refine ⟨h.nodup, ?_, ?_, ?_, h.sources, h.records, h.root⟩
  · exact fun u hu => List.mem_cons_of_mem _ (h.visited u hu)
  · exact List.forall_mem_cons.mpr ⟨Or.inr hv, h.named⟩
  · exact fun e he => List.mem_cons_of_mem _ (h.targets e he)

/-- A unit that was not visited can be opened. -/
theorem opened {unit : Record} (h : Registered b ⟨stack, w⟩) (hfresh : unit.logical ∉ w.visited)
    (needs : List Need) : Registered b ⟨opening unit needs :: stack, w.mark unit.logical⟩ := by
  have hmem : ∀ v, v ∈ Config.names ⟨opening unit needs :: stack, w.mark unit.logical⟩ ↔
      v = unit.logical ∨ v ∈ Config.names ⟨stack, w⟩ := by
    intro v
    simp only [Config.names, openNames_opening, Walk.mark, List.mem_append, List.mem_cons]
    exact or_left_comm
  refine ⟨?_, ?_, ?_, ?_, ?_, ?_, ?_⟩
  · have hnodup := h.nodup
    have hnot := h.fresh hfresh
    rw [Config.names] at hnodup hnot ⊢
    rw [openNames_opening]
    exact List.nodup_middle.mpr (List.nodup_cons.mpr ⟨hnot, hnodup⟩)
  · intro v hv
    rcases (hmem v).mp hv with rfl | hv
    · exact List.mem_cons_self
    · exact List.mem_cons_of_mem _ (h.visited v hv)
  · intro v hv
    rcases List.mem_cons.mp hv with rfl | hv
    · exact Or.inl ((hmem _).mpr (Or.inl rfl))
    · rcases h.named v hv with hv | hv
      · exact Or.inl ((hmem v).mpr (Or.inr hv))
      · exact Or.inr hv
  · exact fun e he => List.mem_cons_of_mem _ (h.targets e he)
  · intro e he
    rcases h.sources e he with hs | hs
    · exact Or.inl ((hmem _).mpr (Or.inr hs))
    · exact Or.inr hs
  · refine List.forall_mem_cons.mpr ⟨?_, h.records⟩
    rintro r ⟨⟩
    rfl
  · refine List.forall_mem_cons.mpr ⟨?_, h.root⟩
    exact fun hr => absurd hr (by simp [opening])

theorem closed {s : String} {past : List Need} {ahead : Bool} {r : Option Record}
    (h : Registered b ⟨⟨s, past, [], ahead, r⟩ :: stack, w⟩) :
    Registered b ⟨stack, { w with records := w.records ++ r.toList }⟩ := by
  have hnames := names_close s past ahead r stack w
  refine ⟨?_, ?_, ?_, h.targets, ?_, ?_, ?_⟩
  · rw [hnames]
    exact h.nodup
  · rw [hnames]
    exact h.visited
  · rw [hnames]
    exact h.named
  · rw [hnames]
    exact h.sources
  · exact fun o ho => h.records o (List.mem_cons_of_mem _ ho)
  · exact fun o ho => h.root o (List.mem_cons_of_mem _ ho)

theorem step {c' : Config} (h : Registered b c) (hs : b.Step c c') : Registered b c' := by
  cases hs with
  | @seen s past left n ahead r stack w hseen =>
      exact (h.advance (past ++ [n]) left).edge List.mem_cons_self hseen
  | @prerequired s past left n ahead r stack w hfresh hloaded =>
      have hmarked := (h.advance (past ++ [n]) left).loaded hloaded
      exact hmarked.edge List.mem_cons_self List.mem_cons_self
  | @opens s past left n ahead r stack w unit needs hfresh hlogical hmade =>
      rw [← hlogical] at hfresh ⊢
      have hopen := (h.advance (past ++ [n]) left).opened hfresh needs
      refine hopen.edge (List.mem_cons_of_mem _ List.mem_cons_self) ?_
      rw [← hlogical]
      exact List.mem_cons_self
  | close => exact h.closed

end Registered

theorem Reached.registered {b : Builder} {entry : String} (h : b.Reached entry c) :
    Registered b c := by
  induction h with
  | start => exact .start
  | step _ hs ih => exact ih.step hs
  | entry _ hfresh _ _ ih => exact ih.opened hfresh _

/-- Names stay, and keep their order. -/
theorem Step.names_sublist {b : Builder} {c' : Config} (hs : b.Step c c') :
    c.names.Sublist c'.names := by
  cases hs with
  | @seen s past left n ahead r stack w hseen =>
      rw [Config.names, openNames_follow s past (past ++ [n]) (n :: left) left]
      exact List.Sublist.refl _
  | @prerequired s past left n ahead r stack w hfresh hloaded =>
      rw [Config.names, openNames_follow s past (past ++ [n]) (n :: left) left]
      exact List.Sublist.refl _
  | @opens s past left n ahead r stack w unit needs hfresh hlogical hmade =>
      rw [Config.names, openNames_follow s past (past ++ [n]) (n :: left) left]
      exact names_sublist_opening unit needs _ w _ _
  | @close s past ahead r stack w => exact (names_close s past ahead r stack w).symm ▸ .refl _

/-! ## Needs that were followed -/

/-- What is kept about the needs of units: those of an emitted unit are visited, and so are those of
an open unit that were followed. -/
structure Followed (b : Builder) (c : Config) : Prop where
  emitted : ∀ r ∈ c.walk.records, ∃ edges, b.Makes r edges ∧
    ∀ e ∈ edges, e.target ∈ c.walk.visited
  made : ∀ o ∈ c.stack, ∀ r, o.record = some r →
    b.Makes r ((o.past ++ o.left).map (needEdge r.logical))
  past : ∀ o ∈ c.stack, ∀ n ∈ o.past, n.2.logical ∈ c.walk.visited

namespace Followed

variable {b : Builder}
variable {stack : List Open} {w : Walk}

theorem start : Followed b ⟨[⟨preloadRequester, [], b.preloadNeeds, true, none⟩], {}⟩ where
  emitted := by simp
  made := by simp
  past := by simp

/-- More names can be visited and edges noted. -/
theorem mono (h : Followed b ⟨stack, w⟩) {v : List String} (hv : w.visited ⊆ v) (es : List Edge) :
    Followed b ⟨stack, { w with visited := v, edges := es }⟩ := by
  refine ⟨?_, h.made, fun o ho n hn => hv (h.past o ho n hn)⟩
  intro r hr
  obtain ⟨edges, hmade, htargets⟩ := h.emitted r hr
  exact ⟨edges, hmade, fun e he => hv (htargets e he)⟩

/-- A need whose name is visited counts as followed. -/
theorem advance {s : String} {past left : List Need} {n : Need} {ahead : Bool} {r : Option Record}
    (h : Followed b ⟨⟨s, past, n :: left, ahead, r⟩ :: stack, w⟩) (hn : n.2.logical ∈ w.visited) :
    Followed b ⟨⟨s, past ++ [n], left, ahead, r⟩ :: stack, w⟩ := by
  obtain ⟨hmade, hmades⟩ := List.forall_mem_cons.mp h.made
  obtain ⟨hpast, hpasts⟩ := List.forall_mem_cons.mp h.past
  refine ⟨h.emitted, List.forall_mem_cons.mpr ⟨fun u hu => ?_, hmades⟩,
    List.forall_mem_cons.mpr ⟨?_, hpasts⟩⟩
  · rw [List.append_assoc]
    exact hmade u hu
  · exact List.forall_mem_append.mpr ⟨hpast, List.forall_mem_singleton.mpr hn⟩

theorem opened {unit : Record} {needs : List Need} (h : Followed b ⟨stack, w⟩)
    (hmade : b.Makes unit (needs.map (needEdge unit.logical))) :
    Followed b ⟨opening unit needs :: stack, w⟩ := by
  refine ⟨h.emitted, List.forall_mem_cons.mpr ⟨?_, h.made⟩, List.forall_mem_cons.mpr ⟨?_, h.past⟩⟩
  · rintro r ⟨⟩
    exact hmade
  · exact fun n hn => absurd hn List.not_mem_nil

theorem closed {s : String} {past : List Need} {ahead : Bool} {r : Option Record}
    (h : Followed b ⟨⟨s, past, [], ahead, r⟩ :: stack, w⟩) :
    Followed b ⟨stack, { w with records := w.records ++ r.toList }⟩ := by
  obtain ⟨hmade, hmades⟩ := List.forall_mem_cons.mp h.made
  obtain ⟨hpast, hpasts⟩ := List.forall_mem_cons.mp h.past
  refine ⟨List.forall_mem_append.mpr ⟨h.emitted, fun u hu => ?_⟩, hmades, hpasts⟩
  -- No need of the unit is left, so all of its edges lead to visited names.
  have hmade := hmade u (Option.mem_toList.mp hu)
  rw [List.append_nil] at hmade
  exact ⟨_, hmade, List.forall_mem_map.mpr hpast⟩

theorem step {c' : Config} (h : Followed b c) (hs : b.Step c c') : Followed b c' := by
  cases hs with
  | @seen s past left n ahead r stack w hseen =>
      exact (h.advance hseen).mono (List.Subset.refl _) _
  | @prerequired s past left n ahead r stack w hfresh hloaded =>
      exact (h.mono (List.subset_cons_self n.2.logical _) _).advance List.mem_cons_self
  | @opens s past left n ahead r stack w unit needs hfresh hlogical hmade =>
      have hmarked := h.mono (List.subset_cons_self n.2.logical _) (w.edges ++ [needEdge s n])
      exact (hmarked.advance List.mem_cons_self).opened hmade
  | close => exact h.closed

end Followed

theorem Reached.followed {b : Builder} {entry : String} (h : b.Reached entry c) : Followed b c := by
  induction h with
  | start => exact .start
  | step _ hs ih => exact ih.step hs
  | entry _ _ _ hmade ih => exact (ih.mono (List.subset_cons_self _ _) _).opened hmade

end Builder

end RubyJs
