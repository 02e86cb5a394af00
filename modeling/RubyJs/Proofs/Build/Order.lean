import Mathlib.Data.List.Chain
import RubyJs.Proofs.Build.Closure

set_option autoImplicit false

/-! # Dependencies come first

A unit of a bundle stands after the units it needs, except on circles: where an edge leads to a unit
that stands later, a chain of edges leads back (`Builder.build_order`).

The units on the stack need each other: each is needed by the one below it, so a chain of edges
leads from every open unit to the innermost one. A need that is open when it is met closes a circle;
a need that is emitted, or opened now, stands before the unit that needs it in the list of names,
whose order never changes.

    main → a → b → a        open when b is followed: a, main
                            names: b, a, main
-/

namespace RubyJs

namespace Builder

variable {stack : List Open} {c c' : Config}

/-- That every unit on the stack is needed by the one below it. -/
def Chained (c : Config) : Prop :=
  List.IsChain (fun inner outer => Needs c.walk.edges outer.source inner.source) c.stack

/-- That every edge between units leads to an earlier one, or lies on a circle. -/
def Sorted (c : Config) : Prop :=
  ∀ e ∈ c.walk.edges, e.source ∈ c.names → e.target ∈ c.names →
    Reaches c.walk.edges e.target e.source ∨ [e.target, e.source].Sublist c.names

theorem Needs.mono {edges edges' : List Edge} (h : edges ⊆ edges') {u v : String}
    (hn : Needs edges u v) : Needs edges' u v := by
  obtain ⟨e, he, hu, hv⟩ := hn
  exact ⟨e, h he, hu, hv⟩

/-- A chain of edges leads from every open unit to the innermost one. -/
theorem reaches_innermost {edges : List Edge} {top : Open}
    (h : List.IsChain (fun inner outer => Needs edges outer.source inner.source) (top :: stack))
    {o : Open} (ho : o ∈ top :: stack) : Reaches edges o.source top.source := by
  induction stack generalizing top with
  | nil =>
      rw [List.mem_singleton.mp ho]
  | cons next rest ih =>
      obtain ⟨hnext, hrest⟩ := List.isChain_cons_cons.mp h
      rcases List.mem_cons.mp ho with rfl | ho
      · exact .refl
      · exact (ih hrest ho).tail hnext

namespace Chained

/-- Neither the needs followed nor new edges break the chain. -/
theorem follow {s : String} {past left : List Need} {ahead : Bool} {r : Option Record} {w w' : Walk}
    (h : Chained ⟨⟨s, past, left, ahead, r⟩ :: stack, w⟩) (hsub : w.edges ⊆ w'.edges)
    (past' left' : List Need) : Chained ⟨⟨s, past', left', ahead, r⟩ :: stack, w'⟩ := by
  have hmono : Chained ⟨⟨s, past, left, ahead, r⟩ :: stack, w'⟩ :=
    List.IsChain.imp (fun _ _ hn => Needs.mono hsub hn) h
  cases stack with
  | nil => exact .singleton _
  | cons o rest =>
      obtain ⟨hn, hrest⟩ := List.isChain_cons_cons.mp hmono
      exact List.isChain_cons_cons.mpr ⟨hn, hrest⟩

theorem step {b : Builder} (h : Chained c) (hs : b.Step c c') : Chained c' := by
  cases hs with
  | seen hseen => exact h.follow (List.subset_append_left _ _) _ _
  | prerequired hfresh hloaded => exact h.follow (List.subset_append_left _ _) _ _
  | @opens s past left n ahead r stack w unit needs hfresh hlogical hmade =>
      have hsub : w.edges ⊆ ((w.edge (needEdge s n)).mark n.2.logical).edges :=
        List.subset_append_left _ _
      have hrest := h.follow hsub (past ++ [n]) left
      refine List.isChain_cons_cons.mpr ⟨?_, hrest⟩
      exact ⟨needEdge s n, List.mem_append_right _ List.mem_cons_self, rfl, hlogical.symm⟩
  | close => exact List.IsChain.tail h

end Chained

theorem Reached.chained {b : Builder} {entry : String} (h : b.Reached entry c) : Chained c := by
  induction h with
  | start => exact .singleton _
  | step _ hs ih => exact ih.step hs
  | entry => exact .singleton _

/-- Of two names, the emitted one stands before the open one. -/
theorem sublist_names {u v : String} (hv : v ∈ c.walk.records.map (·.logical))
    (hu : u ∈ openNames c.stack) : [v, u].Sublist c.names :=
  List.Sublist.append (List.singleton_sublist.mpr hv) (List.singleton_sublist.mpr hu)

/-- The source of the innermost unit is the first of the open names, or stands for what is loaded
ahead. -/
theorem Registered.source_mem_openNames {b : Builder} {o : Open} {w : Walk}
    (h : Registered b ⟨o :: stack, w⟩) (hs : o.source ≠ preloadRequester) :
    o.source ∈ openNames (o :: stack) := by
  cases hr : o.record with
  | none => exact absurd (h.root o List.mem_cons_self hr) hs
  | some r =>
      rw [openNames_cons, hr, Option.map_some, h.records o List.mem_cons_self r hr]
      exact List.mem_cons_self

namespace Sorted

variable {b : Builder}

/-- An edge between names stays in order, because names keep theirs. -/
theorem keep (h : Sorted c) (hsub : c.walk.edges ⊆ c'.walk.edges)
    (hnames : c.names.Sublist c'.names) {e : Edge} (he : e ∈ c.walk.edges) (hs : e.source ∈ c.names)
    (ht : e.target ∈ c.names) :
    Reaches c'.walk.edges e.target e.source ∨ [e.target, e.source].Sublist c'.names := by
  rcases h e he hs ht with hr | hr
  · exact Or.inl (Reaches.mono hsub hr)
  · exact Or.inr (hr.trans hnames)

/-- A need that is a name already is emitted or closes a circle. -/
theorem follow {s : String} {past left : List Need} {n : Need} {ahead : Bool} {r : Option Record}
    {w : Walk} (h : Sorted ⟨⟨s, past, n :: left, ahead, r⟩ :: stack, w⟩)
    (hreg : Registered b ⟨⟨s, past, n :: left, ahead, r⟩ :: stack, w⟩)
    (hchain : Chained ⟨⟨s, past, n :: left, ahead, r⟩ :: stack, w⟩)
    (hp : preloadRequester ∉ Config.names ⟨⟨s, past, n :: left, ahead, r⟩ :: stack, w⟩)
    (marked : List String) :
    Sorted ⟨⟨s, past ++ [n], left, ahead, r⟩ :: stack,
      { w with visited := marked, edges := w.edges ++ [needEdge s n] }⟩ := by
  have hnames : Config.names ⟨⟨s, past ++ [n], left, ahead, r⟩ :: stack,
      { w with visited := marked, edges := w.edges ++ [needEdge s n] }⟩ =
      Config.names ⟨⟨s, past, n :: left, ahead, r⟩ :: stack, w⟩ := by
    rw [Config.names, Config.names, openNames_follow s (past ++ [n]) past left (n :: left)]
  intro e he hs ht
  rw [hnames] at hs ht
  rcases List.mem_append.mp he with he | he
  · exact h.keep (List.subset_append_left _ _) (hnames ▸ .refl _) he hs ht
  · obtain rfl := List.mem_singleton.mp he
    rcases List.mem_append.mp ht with ht | ht
    · have hsource : s ≠ preloadRequester := fun heq => hp (heq ▸ hs)
      rw [hnames]
      exact Or.inr (sublist_names ht (hreg.source_mem_openNames hsource))
    · obtain ⟨o, ho, hrec⟩ := List.mem_filterMap.mp ht
      obtain ⟨u, hu, heq⟩ := Option.map_eq_some_iff.mp hrec
      have hreach := reaches_innermost hchain ho
      rw [← hreg.records o ho u hu, heq] at hreach
      exact Or.inl (Reaches.mono (List.subset_append_left _ _) hreach)

/-- A unit that is opened has no edges yet. -/
theorem push {stack' : List Open} {w w' : Walk} {unit : Record} {needs : List Need}
    (h : Sorted ⟨stack, w⟩) (hreg : Registered b ⟨stack, w⟩) (hfresh : unit.logical ∉ w.visited)
    (hp : unit.logical ≠ preloadRequester) (hsub : w.edges ⊆ w'.edges)
    (hrecords : w'.records = w.records) (hstack : openNames stack' = openNames stack) {e : Edge}
    (he : e ∈ w.edges) (hs : e.source ∈ Config.names ⟨opening unit needs :: stack', w'⟩)
    (ht : e.target ∈ Config.names ⟨opening unit needs :: stack', w'⟩) :
    Reaches w'.edges e.target e.source ∨
      [e.target, e.source].Sublist (Config.names ⟨opening unit needs :: stack', w'⟩) := by
  have hnames : Config.names ⟨opening unit needs :: stack', w'⟩ =
      w.records.map (·.logical) ++ unit.logical :: openNames stack := by
    rw [Config.names, openNames_opening, hstack, hrecords]
  have hmem : ∀ v, v ∈ Config.names ⟨opening unit needs :: stack', w'⟩ → v ≠ unit.logical →
      v ∈ Config.names ⟨stack, w⟩ := by
    intro v hv hne
    rw [hnames] at hv
    rcases List.mem_append.mp hv with hv | hv
    · exact List.mem_append_left _ hv
    · exact List.mem_append_right _ ((List.mem_cons.mp hv).resolve_left hne)
  have hsource : e.source ≠ unit.logical := by
    intro heq
    rcases hreg.sources e he with hs | hs
    · exact hreg.fresh hfresh (heq ▸ hs)
    · exact hp (heq.symm.trans hs)
  have htarget : e.target ≠ unit.logical := fun heq => hfresh (heq ▸ hreg.targets e he)
  have hsublist : (Config.names ⟨stack, w⟩).Sublist
      (Config.names ⟨opening unit needs :: stack', w'⟩) := by
    rw [hnames]
    exact List.Sublist.append_left (List.sublist_cons_self _ _) _
  exact h.keep hsub hsublist he (hmem _ hs hsource) (hmem _ ht htarget)

theorem step (h : Sorted c) (hreg : Registered b c) (hchain : Chained c)
    (hp : preloadRequester ∉ c'.names) (hs : b.Step c c') : Sorted c' := by
  have hold : preloadRequester ∉ c.names := fun hmem => hp (hs.names_sublist.subset hmem)
  cases hs with
  | seen hseen => exact h.follow hreg hchain hold _
  | prerequired hfresh hloaded => exact h.follow hreg hchain hold _
  | @opens s past left n ahead r stack w unit needs hfresh hlogical hmade =>
      rw [← hlogical] at hfresh
      have hunit : unit.logical ≠ preloadRequester := fun heq => hp (heq ▸ mem_names_opening ..)
      have hsub : w.edges ⊆ ((w.edge (needEdge s n)).mark n.2.logical).edges :=
        List.subset_append_left _ _
      have hstack := openNames_follow s (past ++ [n]) past left (n :: left) ahead r stack
      intro e he hs ht
      rcases List.mem_append.mp he with he | he
      · exact h.push hreg hfresh hunit hsub rfl hstack he hs ht
      · -- The new edge leads to the unit that is opened, which stands before all open ones.
        obtain rfl := List.mem_singleton.mp he
        have hsource : s ≠ preloadRequester := fun heq => hp (heq ▸ hs)
        have hopen := hreg.source_mem_openNames hsource
        rw [← hstack] at hopen
        refine Or.inr (List.Sublist.trans ?_ (List.sublist_append_right _ _))
        rw [openNames_opening, hlogical]
        exact List.cons_sublist_cons.mpr (List.singleton_sublist.mpr hopen)
  | @close s past ahead r stack w =>
      intro e he hs ht
      rw [names_close s past ahead] at hs ht ⊢
      exact h e he hs ht

end Sorted

theorem Reached.sorted {b : Builder} {entry : String} (h : b.Reached entry c)
    (hp : preloadRequester ∉ c.names) : Sorted c := by
  induction h with
  | start => exact fun e he => absurd he (by simp)
  | @step c c' hbefore hs ih =>
      have hold : preloadRequester ∉ c.names := fun hmem => hp (hs.names_sublist.subset hmem)
      exact (ih hold).step hbefore.registered hbefore.chained hp hs
  | @entry w unit needs hbefore hfresh hlogical hmade ih =>
      have hold : preloadRequester ∉ Config.names ⟨[], w⟩ := fun hmem =>
        hp ((names_sublist_opening unit needs [] w _ _).subset hmem)
      have hunit : unit.logical ≠ preloadRequester := fun heq => hp (heq ▸ mem_names_opening ..)
      intro e he hs ht
      exact (ih hold).push hbefore.registered hfresh hunit (List.Subset.refl _) rfl rfl he hs ht

/-- Where an edge leads from a unit of a bundle to another one, the other one stands before it, or a
chain of edges leads back. -/
theorem build_order (b : Builder) (entry : String) (a : Artifact) (h : b.build entry = .ok a)
    (hp : preloadRequester ∉ a.units) (e : Edge) (he : e ∈ a.edges) (hs : e.source ∈ a.units)
    (ht : e.target ∈ a.units) :
    [e.target, e.source].Sublist a.units ∨ Reaches a.edges e.target e.source := by
  obtain ⟨w, hreached, rfl⟩ := build_reached h
  have hnames : Config.names ⟨[], w⟩ = (b.finish w).units := by
    simp [Config.names, openNames, finish, assemble]
  rw [← hnames] at hp hs ht ⊢
  exact (hreached.sorted hp e he hs ht).symm

/-- Of two units that need each other one stands first; from it a chain of edges leads back. -/
theorem build_order_circular : ∃ a, circular.build "main" = .ok a ∧
    preloadRequester ∉ a.units ∧ ⟨"a", "main", .direct⟩ ∈ a.edges ∧ "a" ∈ a.units ∧
    "main" ∈ a.units ∧
    (["main", "a"].Sublist a.units ∨ Reaches a.edges "main" "a") := by
  obtain ⟨a, hbuild, hunits, -, he⟩ := build_circular
  have hp : preloadRequester ∉ a.units := by
    rw [hunits]
    decide
  have hs : "a" ∈ a.units := by simp [hunits]
  have ht : "main" ∈ a.units := by simp [hunits]
  exact ⟨a, hbuild, hp, he, hs, ht,
    build_order circular "main" a hbuild hp ⟨"a", "main", .direct⟩ he hs ht⟩

end Builder

end RubyJs
