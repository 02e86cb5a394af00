import Mathlib.Data.Finset.Card
import RubyJs.Proofs.Build.Lookup

set_option autoImplicit false

/-! # Builds come to an end

The walk over the needs of units is bounded by a depth, and a walk that goes deeper fails as endless.
Over a store in memory this never happens. A unit that is visited inside of another one has a name
of the store that was not visited, so each visit inside of a visit has fewer names left:

    visit main    {main, a, b} left
      visit a     {a, b} left
        visit b   {b} left

The bound is no part of the result either. Two bounds that are both larger than the number of names
left lead to the same walk (`Builder.visit_settled`), so the bundle, or the failure, is the one that
the recursion without any bound would end with.
-/

namespace RubyJs

namespace Builder

/-! ## Names that are left -/

/-- How many of `names` were not visited. -/
def unvisited (names visited : List String) : Nat := (names.toFinset \ visited.toFinset).card

theorem unvisited_le (names visited : List String) : unvisited names visited ≤ names.length :=
  calc unvisited names visited
      ≤ names.toFinset.card := Finset.card_le_card Finset.sdiff_subset
    _ ≤ names.length := List.toFinset_card_le names

theorem unvisited_anti (names : List String) {visited visited' : List String}
    (h : visited ⊆ visited') : unvisited names visited' ≤ unvisited names visited := by
  refine Finset.card_le_card (Finset.sdiff_subset_sdiff (Finset.Subset.refl _) ?_)
  intro x hx
  exact List.mem_toFinset.mpr (h (List.mem_toFinset.mp hx))

/-- A visit to a name that was left leaves fewer. -/
theorem unvisited_cons_lt {names visited : List String} {x : String} (hx : x ∈ names)
    (hfresh : x ∉ visited) : unvisited names (x :: visited) < unvisited names visited := by
  apply Finset.card_lt_card
  rw [Finset.ssubset_iff_of_subset]
  · refine ⟨x, ?_, ?_⟩
    · simp [hx, hfresh]
    · simp
  · intro y hy
    simp only [Finset.mem_sdiff, List.mem_toFinset, List.mem_cons, not_or] at hy ⊢
    exact ⟨hy.1, hy.2.2⟩

/-! ## Walks that do not depend on the bound -/

/-- That two ways to go on from the walk `w` have one result, which is not for want of depth, and
that no name stops being visited. -/
structure Settled (w : Walk) (x y : Except Failure Walk) : Prop where
  eq : x = y
  ends : x ≠ .error .endless
  grows : ∀ w', x = .ok w' → w.visited ⊆ w'.visited

namespace Settled

theorem ok {w w' : Walk} (h : w.visited ⊆ w'.visited) : Settled w (.ok w') (.ok w') where
  eq := rfl
  ends := by simp
  grows v hv := Except.ok.inj hv ▸ h

/-- The second part goes on from where the first one ends. -/
theorem bind {w : Walk} {x y : Except Failure Walk} {f g : Walk → Except Failure Walk}
    (h : Settled w x y) (hfg : ∀ w', w.visited ⊆ w'.visited → Settled w' (f w') (g w')) :
    Settled w (x >>= f) (y >>= g) := by
  obtain ⟨rfl, hends, hgrows⟩ := h
  cases x with
  | error e =>
      have hfails : (Except.error e >>= f) = .error e := rfl
      rw [hfails]
      exact ⟨rfl, hends, fun w' h' => absurd h' (by simp)⟩
  | ok v =>
      have hv := hgrows v rfl
      have hrest := hfg v hv
      exact ⟨hrest.eq, hrest.ends, fun w' h' => List.Subset.trans hv (hrest.grows w' h')⟩

/-- What comes before may fail, though not for want of depth. -/
theorem after {α : Type} {w : Walk} {x : Except Failure α} {f g : α → Except Failure Walk}
    (hx : x ≠ .error .endless) (hfg : ∀ a, x = .ok a → Settled w (f a) (g a)) :
    Settled w (x >>= f) (x >>= g) := by
  cases x with
  | error e =>
      have hfails : (Except.error e >>= f) = .error e := rfl
      rw [hfails]
      refine ⟨rfl, fun h => hx ?_, fun w' h' => absurd h' (by simp)⟩
      rw [Except.error.inj h]
  | ok a => exact hfg a rfl

theorem of_subset {v w : Walk} {x y : Except Failure Walk} (hvw : v.visited ⊆ w.visited)
    (h : Settled w x y) : Settled v x y :=
  ⟨h.eq, h.ends, fun w' h' => List.Subset.trans hvw (h.grows w' h')⟩

end Settled

/-! ## Failures for other reasons -/

theorem compile_ne_endless (text : String) (o : CompileOptions) :
    compile text o ≠ .error .endless := by
  unfold compile parseUnit
  cases parse o.file text with
  | error e => simp
  | ok p =>
      simp only [compileProgram]
      cases generate p o.file <;> simp

theorem compileFor_ne_endless (u : SourceUnit) (role : Role) :
    compileFor u role ≠ .error .endless := by
  cases role with
  | entry => exact compile_ne_endless _ _
  | module preload => exact compile_ne_endless _ _

theorem resolve_ne_endless (r : Resolver) (name requester : String) :
    r.resolve name requester ≠ .error .endless := by
  intro h
  exact absurd (Resolver.resolve_error h) (by simp)

section Store

variable {b : Builder} {s : MemoryStore} (hs : b.reader = s.reader)
variable {source : String} {w : Walk}
include hs

theorem read_ne_endless (p : Path) : b.reader.read p ≠ .error .endless := by
  rw [hs]
  simp only [MemoryStore.reader]
  cases s.get? p <;> simp

theorem expandTree_ne_endless (dir requester : String) :
    b.resolver.expandTree dir requester ≠ .error .endless := by
  simp only [Resolver.expandTree]
  split
  · simp
  · rename_i base _
    have hwalk : b.reader.walk (base.join (LogicalName.fold dir)) ≠ .error .endless := by
      simp [hs, MemoryStore.reader]
    refine bind_ne_error hwalk fun files => bind_ne_error (fun h => ?_) fun _ => pure_ne_error _ _
    obtain ⟨name, p, q, he⟩ := Resolver.addUnits_error h
    exact absurd he (by simp)

theorem pending_ne_endless (source : String) (d : Declaration) :
    b.pending source d ≠ .error .endless := by
  unfold pending
  split
  · exact bind_ne_error (expandTree_ne_endless hs d.name source) fun _ => pure_ne_error _ _
  · exact pure_ne_error _ _

omit hs in
theorem fileOf_ne_endless (p : Pending) (source : String) :
    b.fileOf p source ≠ .error .endless := by
  cases p with
  | name n => exact resolve_ne_endless _ n source
  | unit u => simp [fileOf]

/-! ## Two bounds -/

/-- That two visits do the same with every unit that is found and was not visited, from any walk
that has visited `known`. -/
def VisitsSettled (b : Builder) (known : List String) (visit visit' : Visit) : Prop :=
  ∀ (file : Resolved) (text : String) (role : Role) (w : Walk), b.Finds file →
    known ⊆ w.visited → file.logical ∉ w.visited →
    Settled w (visit (SourceUnit.ofResolved file text) role w)
      (visit' (SourceUnit.ofResolved file text) role w)

variable {known : List String} {visit visit' : Visit}

theorem enter_settled (hv : b.VisitsSettled known visit visit') {kind : EdgeKind} {ahead : Bool}
    {p : Pending} (hk : b.Known p) (hknown : known ⊆ w.visited) :
    Settled w (b.enter visit source kind ahead p w) (b.enter visit' source kind ahead p w) := by
  simp only [enter]
  split
  · exact .ok (List.Subset.refl _)
  · rename_i hseen
    have hfresh : p.logical ∉ w.visited := by simpa [Walk.edge] using hseen
    split
    · exact .ok (List.subset_cons_self _ _)
    · split
      · refine .after (compile_ne_endless _ _) fun c _ => ?_
        exact .ok (List.subset_cons_self _ _)
      · refine .after (fileOf_ne_endless p source) fun file hfile => ?_
        refine .after (read_ne_endless hs file.path) fun text _ => ?_
        obtain ⟨hfound, hlogical⟩ := fileOf_ok hk hfile
        have hvisit := hv file text (.module ahead) (w.edge ⟨source, p.logical, kind⟩) hfound hknown
          (hlogical ▸ hfresh)
        exact hvisit.of_subset (show w.visited ⊆ (w.edge _).visited from List.Subset.refl _)

theorem enterAll_settled (hv : b.VisitsSettled known visit visit') {kind : EdgeKind} {ahead : Bool}
    {ps : List Pending} (hk : ∀ p ∈ ps, b.Known p) (hknown : known ⊆ w.visited) :
    Settled w (b.enterAll visit source kind ahead ps w)
      (b.enterAll visit' source kind ahead ps w) := by
  induction ps generalizing w with
  | nil => exact .ok (List.Subset.refl _)
  | cons p ps ih =>
      refine .bind (enter_settled hs hv (hk p List.mem_cons_self) hknown) fun v hwv => ?_
      exact ih (fun q hq => hk q (List.mem_cons_of_mem _ hq)) (List.Subset.trans hknown hwv)

theorem followAll_settled (hv : b.VisitsSettled known visit visit') {ds : List Declaration}
    (hknown : known ⊆ w.visited) :
    Settled w (b.followAll visit source ds w) (b.followAll visit' source ds w) := by
  induction ds generalizing w with
  | nil => exact .ok (List.Subset.refl _)
  | cons d ds ih =>
      refine .after (pending_ne_endless hs source d) fun ps hps => ?_
      have hk := (pending_edges hps).1
      refine .bind (enterAll_settled hs hv hk hknown) fun v hwv => ?_
      exact ih (List.Subset.trans hknown hwv)

/-- A visit does not depend on a bound that is larger than the number of names left. -/
theorem visit_settled {n m : Nat} {u : SourceUnit} {role : Role}
    (hn : unvisited (s.names b.paths) (u.logical :: w.visited) < n)
    (hm : unvisited (s.names b.paths) (u.logical :: w.visited) < m) :
    Settled w (b.visit n u role w) (b.visit m u role w) := by
  -- On the first bound. A unit inside is a name of the store that was left, so both of the smaller
  -- bounds are still larger than what is left after it.
  induction n generalizing m u role w with
  | zero => exact absurd hn (Nat.not_lt_zero _)
  | succ n ih =>
      cases m with
      | zero => exact absurd hm (Nat.not_lt_zero _)
      | succ m =>
          have hinside : b.VisitsSettled (u.logical :: w.visited) (b.visit n) (b.visit m) := by
            intro file text role' v hfound hknown hfresh
            have hless := unvisited_cons_lt (hfound.mem_names hs) hfresh
            have hleft := unvisited_anti (s.names b.paths) hknown
            have hlogical : (SourceUnit.ofResolved file text).logical = file.logical := rfl
            apply ih
            · rw [hlogical]
              omega
            · rw [hlogical]
              omega
          have hmark : w.visited ⊆ (w.mark u.logical).visited := List.subset_cons_self _ _
          rw [visit, visit]
          cases u.processor with
          | javascript => exact .ok hmark
          | ruby =>
              refine .after (compileFor_ne_endless u role) fun c _ => ?_
              refine (Settled.bind (followAll_settled hs hinside (List.Subset.refl _)) ?_).of_subset
                hmark
              exact fun v _ => .ok (List.Subset.refl _)

end Store

/-! ## Builds with another bound -/

/-- What `preload` does, with the bound `n`. -/
def preloadWithin (b : Builder) (n : Nat) : Except Failure Walk :=
  b.enterAll (b.visit n) preloadRequester .direct true
    ((distinctNames [] b.options.preload).map Pending.name) {}

/-- What `build` does, with the bound `n`. -/
def buildWithin (b : Builder) (n : Nat) (entry : String) : Except Failure Artifact := do
  let w ← b.preloadWithin n
  let file ← b.resolver.resolve entry entryRequester
  if w.visited.contains file.logical then pure (b.finish w)
  else
    let text ← b.reader.read file.path
    let w ← b.visit n (SourceUnit.ofResolved file text) .entry w
    pure (b.finish w)

/-- What `buildText` does, with the bound `n`. -/
def buildTextWithin (b : Builder) (n : Nat) (text filename : String) :
    Except Failure Artifact := do
  let w ← b.preloadWithin n
  let unit : SourceUnit :=
    { logical := LogicalName.normalize filename, path := ⟨filename⟩, text
      processor := b.options.defaultProcessor }
  let w ← b.visit n unit .entry w
  pure (b.finish w)

theorem buildWithin_depth (b : Builder) (entry : String) :
    b.buildWithin b.depth entry = b.build entry := rfl

theorem buildTextWithin_depth (b : Builder) (text filename : String) :
    b.buildTextWithin b.depth text filename = b.buildText text filename := rfl

section Store

variable {b : Builder} {s : MemoryStore} (hs : b.reader = s.reader) {n m : Nat}
  (hn : (s.names b.paths).length < n) (hm : (s.names b.paths).length < m)
include hs hn hm

theorem visit_settled_of_length (u : SourceUnit) (role : Role) (w : Walk) :
    Settled w (b.visit n u role w) (b.visit m u role w) := by
  have hleft := unvisited_le (s.names b.paths) (u.logical :: w.visited)
  exact visit_settled hs (by omega) (by omega)

theorem preloadWithin_settled : Settled {} (b.preloadWithin n) (b.preloadWithin m) := by
  refine enterAll_settled hs ?_ ?_ (List.nil_subset _)
  · exact fun file text role w _ _ _ => visit_settled_of_length hs hn hm _ role w
  · intro p hp
    obtain ⟨name, -, rfl⟩ := List.mem_map.mp hp
    trivial

theorem buildWithin_settled (entry : String) :
    b.buildWithin n entry = b.buildWithin m entry ∧ b.buildWithin n entry ≠ .error .endless := by
  have hpre := preloadWithin_settled hs hn hm
  have hvisit := visit_settled_of_length hs hn hm
  constructor
  · unfold buildWithin
    rw [hpre.eq]
    simp only [fun u w => (hvisit u .entry w).eq]
  · refine bind_ne_error hpre.ends fun w => bind_ne_error (resolve_ne_endless _ _ _) fun file => ?_
    split
    · exact pure_ne_error _ _
    · refine bind_ne_error (read_ne_endless hs _) fun text => ?_
      exact bind_ne_error (hvisit _ _ _).ends fun _ => pure_ne_error _ _

theorem buildTextWithin_settled (text filename : String) :
    b.buildTextWithin n text filename = b.buildTextWithin m text filename ∧
      b.buildTextWithin n text filename ≠ .error .endless := by
  have hpre := preloadWithin_settled hs hn hm
  have hvisit := visit_settled_of_length hs hn hm
  constructor
  · unfold buildTextWithin
    rw [hpre.eq]
    simp only [fun u w => (hvisit u .entry w).eq]
  · refine bind_ne_error hpre.ends fun w => ?_
    exact bind_ne_error (hvisit _ _ _).ends fun _ => pure_ne_error _ _

end Store

/-- The bound of a build is larger than the number of names of its store. -/
theorem length_names_lt_depth (s : MemoryStore) (options : BuildOptions) (paths : List Path) :
    (s.names paths).length < depth ⟨s.reader, options, paths⟩ := by
  have hbound : (2 * paths.length + 1) * s.files.length ≤
      4 * (paths.length + 1) * s.files.length :=
    Nat.mul_le_mul_right _ (by omega)
  have hdepth : depth ⟨s.reader, options, paths⟩ =
      4 * (paths.length + 1) * s.files.length + 2 := rfl
  rw [MemoryStore.length_names, hdepth]
  omega

/-- Over a store in memory every build comes to an end, whatever is loaded ahead, stubbed or loaded
by the host. Needs follow on needs at most once for each name that a file of the store has, so the
result is the same for every bound above that number. -/
theorem build_terminates (s : MemoryStore) (options : BuildOptions) (paths : List Path) :
    let b : Builder := ⟨s.reader, options, paths⟩
    let bound := (2 * paths.length + 1) * s.files.length + 1
    (∀ entry, b.build entry ≠ .error .endless ∧
      ∀ k, b.buildWithin (bound + k) entry = b.build entry) ∧
    ∀ text filename, b.buildText text filename ≠ .error .endless ∧
      ∀ k, b.buildTextWithin (bound + k) text filename = b.buildText text filename := by
  intro b bound
  have hdepth : (s.names b.paths).length < b.depth := length_names_lt_depth s options paths
  have hbound : ∀ k, (s.names b.paths).length < bound + k := by
    intro k
    rw [MemoryStore.length_names]
    show (2 * paths.length + 1) * s.files.length < (2 * paths.length + 1) * s.files.length + 1 + k
    omega
  refine ⟨fun entry => ⟨?_, fun k => ?_⟩, fun text filename => ⟨?_, fun k => ?_⟩⟩
  · rw [← buildWithin_depth]
    exact (buildWithin_settled rfl hdepth hdepth entry).2
  · rw [← buildWithin_depth]
    exact (buildWithin_settled rfl (hbound k) hdepth entry).1
  · rw [← buildTextWithin_depth]
    exact (buildTextWithin_settled rfl hdepth hdepth text filename).2
  · rw [← buildTextWithin_depth]
    exact (buildTextWithin_settled rfl (hbound k) hdepth text filename).1

end Builder

end RubyJs
