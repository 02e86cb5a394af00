import RubyJs.Proofs.Build.Visited
import RubyJs.Store.Memory

set_option autoImplicit false

/-! # A bundle is the closure of its entry

The edges that leave a unit of a bundle are those that its declarations stand for; every edge leads
to a unit of the bundle or to a name that the host has loaded; and every unit is reached by edges
from the entry or from the list of what is loaded ahead (`Builder.build_closure`).

The edges of a unit are noted while it is open, one for each need that was followed
(`Builder.Accounted`). No other unit notes edges under its name, because no two units that are open
or emitted have the same one. Only the list of what is loaded ahead, which notes its edges under a
name of its own, could get in the way of a unit of that name.
-/

namespace RubyJs

variable {edges : List Edge}

/-! ## Chains of edges -/

/-- Whether an edge leads from `u` to `v`. -/
def Needs (edges : List Edge) (u v : String) : Prop := ∃ e ∈ edges, e.source = u ∧ e.target = v

/-- Whether a chain of edges leads from `u` to `v`. -/
abbrev Reaches (edges : List Edge) : String → String → Prop := Relation.ReflTransGen (Needs edges)

theorem Reaches.mono {edges' : List Edge} (h : edges ⊆ edges') {u v : String}
    (hr : Reaches edges u v) : Reaches edges' u v := by
  refine Relation.ReflTransGen.mono ?_ _ _ hr
  rintro u v ⟨e, he, hu, hv⟩
  exact ⟨e, h he, hu, hv⟩

/-- The edges that leave the unit `source`. -/
def edgesFrom (source : String) (edges : List Edge) : List Edge :=
  edges.filter (·.source == source)

theorem edgesFrom_append (source : String) (edges edges' : List Edge) :
    edgesFrom source (edges ++ edges') = edgesFrom source edges ++ edgesFrom source edges' :=
  List.filter_append ..

theorem edgesFrom_eq_nil {source : String} (h : ∀ e ∈ edges, e.source ≠ source) :
    edgesFrom source edges = [] := by
  refine List.filter_eq_nil_iff.mpr fun e he => ?_
  simpa using h e he

namespace Builder

variable {entry : String} {c : Config}

theorem edgesFrom_needEdge_self (s : String) (n : Need) :
    edgesFrom s [needEdge s n] = [needEdge s n] := by
  simp [edgesFrom, needEdge]

theorem edgesFrom_needEdge_ne {s s' : String} (h : s ≠ s') (n : Need) :
    edgesFrom s' [needEdge s n] = [] := by
  refine edgesFrom_eq_nil fun e he => ?_
  rw [List.mem_singleton.mp he]
  exact h

/-! ## The edges of a unit -/

/-- What is kept about the edges of the units that are open or emitted. -/
structure Accounted (b : Builder) (c : Config) : Prop where
  distinct : (c.stack.map (·.source)).Nodup
  emitted : ∀ r ∈ c.walk.records, b.Makes r (edgesFrom r.logical c.walk.edges)
  followed : ∀ o ∈ c.stack, edgesFrom o.source c.walk.edges = o.past.map (needEdge o.source)

/-- An emitted unit has another name than an open one. -/
theorem Registered.emitted_ne_source {b : Builder} (h : Registered b c)
    (hp : preloadRequester ∉ c.names) {r : Record} (hr : r ∈ c.walk.records) {o : Open}
    (ho : o ∈ c.stack) : o.source ≠ r.logical := by
  have hmem : r.logical ∈ c.walk.records.map (·.logical) := List.mem_map_of_mem hr
  intro heq
  cases hrec : o.record with
  | none =>
      rw [← heq, h.root o ho hrec] at hmem
      exact hp (List.mem_append_left _ hmem)
  | some u =>
      have hopen : r.logical ∈ openNames c.stack := by
        refine List.mem_filterMap.mpr ⟨o, ho, ?_⟩
        rw [hrec, Option.map_some, h.records o ho u hrec, heq]
      exact List.disjoint_of_nodup_append h.nodup hmem hopen

namespace Accounted

variable {b : Builder}
variable {stack : List Open}

theorem start : Accounted b ⟨[⟨preloadRequester, [], b.preloadNeeds, true, none⟩], {}⟩ where
  distinct := by simp
  emitted := by simp
  followed := by simp [edgesFrom]

theorem follow {s : String} {past left : List Need} {n : Need} {ahead : Bool} {r : Option Record}
    {w : Walk} (h : Accounted b ⟨⟨s, past, n :: left, ahead, r⟩ :: stack, w⟩)
    (hne : ∀ u ∈ w.records, s ≠ u.logical) :
    Accounted b ⟨⟨s, past ++ [n], left, ahead, r⟩ :: stack, w.edge (needEdge s n)⟩ := by
  have hothers := (List.nodup_cons.mp h.distinct).1
  refine ⟨h.distinct, ?_, ?_⟩
  · intro u hu
    rw [Walk.edge, edgesFrom_append, edgesFrom_needEdge_ne (hne u hu), List.append_nil]
    exact h.emitted u hu
  · intro o ho
    rw [Walk.edge, edgesFrom_append]
    rcases List.mem_cons.mp ho with rfl | ho
    · have htop := h.followed _ List.mem_cons_self
      rw [htop, edgesFrom_needEdge_self, List.map_append]
      rfl
    · have hs : s ≠ o.source := fun heq => hothers (List.mem_map.mpr ⟨o, ho, heq.symm⟩)
      rw [edgesFrom_needEdge_ne hs, List.append_nil]
      exact h.followed o (List.mem_cons_of_mem _ ho)

theorem opened {w : Walk} {unit : Record} {needs : List Need} (h : Accounted b ⟨stack, w⟩)
    (hsource : ∀ o ∈ stack, o.source ≠ unit.logical)
    (hedges : ∀ e ∈ w.edges, e.source ≠ unit.logical) (v : String) :
    Accounted b ⟨opening unit needs :: stack, w.mark v⟩ := by
  refine ⟨?_, h.emitted, List.forall_mem_cons.mpr ⟨edgesFrom_eq_nil hedges, h.followed⟩⟩
  refine List.nodup_cons.mpr ⟨fun hmem => ?_, h.distinct⟩
  obtain ⟨o, ho, heq⟩ := List.mem_map.mp hmem
  exact hsource o ho heq

theorem closed {s : String} {past : List Need} {ahead : Bool} {r : Option Record} {w : Walk}
    (h : Accounted b ⟨⟨s, past, [], ahead, r⟩ :: stack, w⟩) (hr : ∀ u, r = some u → u.logical = s)
    (hmade : ∀ u, r = some u → b.Makes u ((past ++ []).map (needEdge u.logical))) :
    Accounted b ⟨stack, { w with records := w.records ++ r.toList }⟩ := by
  obtain ⟨htop, hfollowed⟩ := List.forall_mem_cons.mp h.followed
  refine ⟨(List.nodup_cons.mp h.distinct).2, ?_, hfollowed⟩
  refine List.forall_mem_append.mpr ⟨h.emitted, fun u hu => ?_⟩
  have hu : r = some u := Option.mem_toList.mp hu
  have hmade := hmade u hu
  rw [List.append_nil, hr u hu] at hmade
  rwa [hr u hu, htop]

end Accounted

/-- The edges are accounted for in every build without a unit of the name that stands for what is
loaded ahead. -/
theorem Reached.accounted {b : Builder} (h : b.Reached entry c) (hp : preloadRequester ∉ c.names) :
    Accounted b c := by
  induction h with
  | start => exact .start
  | @step c c' hbefore hs ih =>
      have hold : preloadRequester ∉ c.names := fun hmem => hp (hs.names_sublist.subset hmem)
      have hacc := ih hold
      have hreg := hbefore.registered
      cases hs with
      | seen hseen =>
          exact hacc.follow fun u hu => hreg.emitted_ne_source hold hu List.mem_cons_self
      | prerequired hfresh hloaded =>
          have := hacc.follow fun u hu => hreg.emitted_ne_source hold hu List.mem_cons_self
          exact ⟨this.distinct, this.emitted, this.followed⟩
      | @opens s past left n ahead r stack w unit needs hfresh hlogical hmade =>
          have hfollow := hacc.follow fun u hu =>
            hreg.emitted_ne_source hold hu List.mem_cons_self
          -- The unit is neither among the names so far nor the list of what is loaded ahead.
          have hnew : ∀ v, v ∈ Config.names ⟨⟨s, past, n :: left, ahead, r⟩ :: stack, w⟩ ∨
              v = preloadRequester → v ≠ unit.logical := by
            rintro v (hv | hv) heq
            · exact hreg.fresh (hlogical ▸ hfresh) (heq ▸ hv)
            · exact hp ((heq.symm.trans hv) ▸ mem_names_opening ..)
          have htop := hnew s (hreg.source_mem (List.mem_cons_self (l := stack)))
          refine hfollow.opened (List.forall_mem_cons.mpr ⟨htop, fun o ho => ?_⟩)
            (List.forall_mem_append.mpr ⟨fun e he => ?_, List.forall_mem_singleton.mpr htop⟩) _
          · exact hnew _ (hreg.source_mem (List.mem_cons_of_mem _ ho))
          · exact hnew _ (hreg.sources e he)
      | close =>
          exact hacc.closed (hreg.records _ List.mem_cons_self)
            (hbefore.followed.made _ List.mem_cons_self)
  | @entry w unit needs hbefore hfresh hlogical hmade ih =>
      have hold : preloadRequester ∉ Config.names ⟨[], w⟩ := fun hmem =>
        hp ((names_sublist_opening unit needs [] w _ _).subset hmem)
      have hreg := hbefore.registered
      refine (ih hold).opened (by simp) ?_ _
      rintro e he heq
      rcases hreg.sources e he with hs | hs
      · exact hreg.fresh hfresh (heq ▸ hs)
      · exact hp ((heq.symm.trans hs) ▸ mem_names_opening ..)

/-! ## Reaching all units -/

/-- Every unit is reached from the entry or from what is loaded ahead. -/
def Linked (entry : String) (c : Config) : Prop :=
  ∀ v ∈ c.names, Reaches c.walk.edges (LogicalName.normalize entry) v ∨
    Reaches c.walk.edges preloadRequester v

/-- A need of an open unit is reached where the unit is. -/
theorem Linked.need {b : Builder} (h : Linked entry c) (hreg : Registered b c) {o : Open}
    (ho : o ∈ c.stack) (hsub : c.walk.edges ⊆ edges) {v : String} (hv : Needs edges o.source v) :
    Reaches edges (LogicalName.normalize entry) v ∨ Reaches edges preloadRequester v := by
  rcases hreg.source_mem ho with hs | hs
  · rcases h _ hs with hr | hr
    · exact Or.inl ((Reaches.mono hsub hr).tail hv)
    · exact Or.inr ((Reaches.mono hsub hr).tail hv)
  · exact Or.inr (.single (hs ▸ hv))

/-- What was reached stays so when an edge is noted. -/
theorem Linked.mono (h : Linked entry c) (hsub : c.walk.edges ⊆ edges) {v : String}
    (hv : v ∈ c.names) :
    Reaches edges (LogicalName.normalize entry) v ∨ Reaches edges preloadRequester v :=
  (h v hv).imp (Reaches.mono hsub) (Reaches.mono hsub)

theorem Reached.linked {b : Builder} (h : b.Reached entry c) : Linked entry c := by
  induction h with
  | start => exact fun v hv => absurd hv (by simp [Config.names, openNames])
  | @step c c' hbefore hs ih =>
      have hreg := hbefore.registered
      cases hs with
      | @seen s past left n ahead r stack w hseen =>
          intro v hv
          rw [Config.names, openNames_follow s _ past _ (n :: left)] at hv
          exact ih.mono (List.subset_append_left _ _) hv
      | @prerequired s past left n ahead r stack w hfresh hloaded =>
          intro v hv
          rw [Config.names, openNames_follow s _ past _ (n :: left)] at hv
          exact ih.mono (List.subset_append_left _ _) hv
      | @opens s past left n ahead r stack w unit needs hfresh hlogical hmade =>
          intro v hv
          rw [Config.names, openNames_opening, openNames_follow s _ past _ (n :: left),
            List.mem_append, List.mem_cons, or_left_comm, ← List.mem_append] at hv
          rcases hv with rfl | hv
          · refine ih.need hreg List.mem_cons_self (List.subset_append_left _ _) ?_
            exact ⟨needEdge s n, List.mem_append_right _ List.mem_cons_self, rfl, hlogical.symm⟩
          · exact ih.mono (List.subset_append_left _ _) hv
      | @close s past ahead r stack w =>
          intro v hv
          rw [names_close s past ahead] at hv
          exact ih v hv
  | @entry w unit needs hbefore hfresh hlogical hmade ih =>
      intro v hv
      rw [Config.names, openNames_opening, List.mem_append, List.mem_cons, or_left_comm,
        ← List.mem_append] at hv
      rcases hv with rfl | hv
      · exact Or.inl (hlogical ▸ .refl)
      · exact ih v hv

/-! ## The closure -/

/-- A builder for two units that need each other. One of them needs a directory too, the other one a
name that the host has loaded, and an empty module is loaded ahead. -/
def circular : Builder where
  reader := (MemoryStore.ofFiles
    [(⟨"lib/main.rb"⟩, "require 'a'\nrequire 'host'"),
      (⟨"lib/a.rb"⟩, "require_tree 'tree'\nrequire 'main'"), (⟨"lib/tree/n.js"⟩, "1")]).reader
  options := { preload := ["early"], stubs := ["early"], prerequired := ["host"] }
  paths := [⟨"lib"⟩]

/-- The units that need each other are both emitted, the entry last. -/
theorem build_circular : ∃ a, circular.build "main" = .ok a ∧
    a.units = ["early", "tree/n", "a", "main"] ∧ ⟨"main", "a", .direct⟩ ∈ a.edges ∧
    ⟨"a", "main", .direct⟩ ∈ a.edges := by
  have hchecked : (circular.build "main").toOption.any (fun a => decide
      (a.units = ["early", "tree/n", "a", "main"] ∧ ⟨"main", "a", .direct⟩ ∈ a.edges ∧
        ⟨"a", "main", .direct⟩ ∈ a.edges)) = true := by
    decide +kernel
  cases hbuild : circular.build "main" with
  | error e =>
      rw [hbuild] at hchecked
      exact absurd hchecked Bool.false_ne_true
  | ok a =>
      rw [hbuild] at hchecked
      exact ⟨a, rfl, of_decide_eq_true hchecked⟩

/-- A bundle has exactly the edges that its units declare, they lead to its units and to names that
the host has loaded, and they lead to every unit from the entry or from what is loaded ahead. -/
theorem build_closure (b : Builder) (entry : String) (a : Artifact) (h : b.build entry = .ok a)
    (hp : preloadRequester ∉ a.units) :
    (∃ records, a = assemble records a.edges b.options.banner ∧
      ∀ r ∈ records, b.Makes r (edgesFrom r.logical a.edges)) ∧
    (∀ e ∈ a.edges, e.target ∈ a.units ∨ b.isPrerequired e.target = true) ∧
    ∀ u ∈ a.units, Reaches a.edges (LogicalName.normalize entry) u ∨
      Reaches a.edges preloadRequester u := by
  obtain ⟨w, hreached, rfl⟩ := build_reached h
  have hnames : Config.names ⟨[], w⟩ = (b.finish w).units := by
    simp [Config.names, openNames, finish, assemble]
  have hreg := hreached.registered
  refine ⟨⟨w.records, rfl, ?_⟩, ?_, ?_⟩
  · exact (hreached.accounted (hnames ▸ hp)).emitted
  · rw [← hnames]
    exact fun e he => hreg.named _ (hreg.targets e he)
  · rw [← hnames]
    exact hreached.linked

theorem build_closure_circular : ∃ a, circular.build "main" = .ok a ∧
    preloadRequester ∉ a.units ∧
    (∃ records, a = assemble records a.edges circular.options.banner ∧
      ∀ r ∈ records, circular.Makes r (edgesFrom r.logical a.edges)) ∧
    (∀ e ∈ a.edges, e.target ∈ a.units ∨ circular.isPrerequired e.target = true) ∧
    ∀ u ∈ a.units, Reaches a.edges (LogicalName.normalize "main") u ∨
      Reaches a.edges preloadRequester u := by
  obtain ⟨a, hbuild, hunits, -⟩ := build_circular
  have hp : preloadRequester ∉ a.units := by
    rw [hunits]
    decide
  exact ⟨a, hbuild, hp, build_closure circular "main" a hbuild hp⟩

end Builder

end RubyJs
