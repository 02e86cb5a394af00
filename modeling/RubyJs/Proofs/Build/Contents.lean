import RubyJs.Proofs.Build.Members

set_option autoImplicit false

/-! # The contents of bundles

Each function of the walk is followed in turn: a need, a list of needs, the declarations of a unit, a
visit (`Builder.visit_grows`). Together they tell the members of a build that succeeds
(`Builder.build_contains`).

A member that is loaded ahead was taken from the list of what is loaded ahead, where no need before it
had led to it (`Builder.LoadsAhead`); all others come as needs of units or as the entry.
-/

namespace RubyJs

namespace Builder

variable {entry : String} {a : Artifact}

/-! ## The members of walks -/

/-- Whether a name is the one of a need in the list, and new when that need is followed. -/
def Opens (b : Builder) (visit : Visit) (source : String) (kind : EdgeKind) (ahead : Bool)
    (ps : List Pending) (w : Walk) (n : String) : Prop :=
  ∃ before p after v, ps = before ++ p :: after ∧ p.logical = n ∧
    b.enterAll visit source kind ahead before w = .ok v ∧ n ∉ v.visited ∧ b.isPrerequired n = false

/-- That the members are modules, of which those with a name in `P` are loaded ahead. -/
def Modules (P : String → Prop) (ms : List Member) : Prop :=
  ∀ m ∈ ms, ∃ ahead, m.role = .module ahead ∧ (ahead = true ↔ P m.logical)

namespace Modules

variable {P Q : String → Prop} {ms ms' : List Member}

theorem nil : Modules P [] := fun _ hm => absurd hm List.not_mem_nil

theorem singleton {logical : String} {ahead : Bool} (origin : Origin)
    (h : ahead = true ↔ P logical) : Modules P [⟨logical, .module ahead, origin⟩] := by
  intro m hm
  obtain rfl := List.mem_singleton.mp hm
  exact ⟨ahead, rfl, h⟩

theorem append (h : Modules P ms) (h' : Modules P ms') : Modules P (ms ++ ms') :=
  List.forall_mem_append.mpr ⟨h, h'⟩

theorem congr (h : Modules P ms) (hPQ : ∀ m ∈ ms, (P m.logical ↔ Q m.logical)) : Modules Q ms := by
  intro m hm
  obtain ⟨ahead, hrole, hahead⟩ := h m hm
  exact ⟨ahead, hrole, hahead.trans (hPQ m hm)⟩

theorem ne_entry (h : Modules P ms) {m : Member} (hm : m ∈ ms) : m.role ≠ .entry := by
  obtain ⟨ahead, hrole, -⟩ := h m hm
  rw [hrole]
  exact Role.noConfusion

/-- Modules of which none is loaded ahead have one role. -/
theorem role_eq (h : Modules (fun _ => False) ms) {m : Member} (hm : m ∈ ms) :
    m.role = .module false := by
  obtain ⟨ahead, hrole, hahead⟩ := h m hm
  rw [hrole, Bool.eq_false_iff.mpr hahead.mp]

end Modules

/-- That a visit which succeeds emits its unit after modules that are not loaded ahead. -/
def VisitGrows (b : Builder) (go : Builder → Visit) : Prop :=
  ∀ (asks : Request → Prop) (f : Resolved) (text : String) (role : Role) (w w' : Walk),
    (∃ q, asks q ∧ b.Answers q f) → b.reader.read f.path = .ok text → f.logical ∉ w.visited →
    b.Supplies ⟨f.logical, role, .file f text⟩ →
    go b (SourceUnit.ofResolved f text) role w = .ok w' →
    ∃ deps, Modules (fun _ => False) deps ∧ Grows b asks
      (fun b => b.reader.read f.path >>= fun text => go b (SourceUnit.ofResolved f text) role w)
      w (deps ++ [⟨f.logical, role, .file f text⟩]) w'

/-- That the file of a need answers something in `asks`. -/
def IsAsked (b : Builder) (asks : Request → Prop) (source : String) (p : Pending) : Prop :=
  ∀ f, b.fileOf p source = .ok f → ∃ q, asks q ∧ b.Answers q f

/-- What a declaration asks for is asked for. -/
theorem pending_asked {b : Builder} {asks : Request → Prop} {source : String} {d : Declaration}
    {ps : List Pending} (h : b.pending source d = .ok ps) (hd : asks ⟨d, source⟩) :
    ∀ p ∈ ps, b.IsAsked asks source p := by
  intro p hp f hf
  refine ⟨⟨d, source⟩, hd, ?_⟩
  obtain ⟨name, kind⟩ := d
  cases kind with
  | tree =>
      obtain ⟨units, hunits, h⟩ := bind_eq_ok h
      obtain rfl := Except.ok.inj h
      obtain ⟨u, hu, rfl⟩ := List.mem_map.mp hp
      obtain rfl : u = f := Except.ok.inj hf
      exact ⟨units, hunits, hu⟩
  | direct | autoload =>
      obtain rfl := Except.ok.inj h
      obtain rfl := List.mem_singleton.mp hp
      exact hf

section Following

variable {b : Builder} {asks : Request → Prop} {go : Builder → Visit}
variable {source n : String} {kind : EdgeKind} {ps : List Pending} {ahead : Bool} {p : Pending}

theorem enter_grows (hv : b.VisitGrows go) {w w' : Walk} (hk : b.IsAsked asks source p)
    (h : b.enter (go b) source kind ahead p w = .ok w') :
    p.logical ∈ w'.visited ∧ ∃ ms, Modules (fun n => ahead = true ∧ n = p.logical) ms ∧
      Grows b asks (fun b => b.enter (go b) source kind ahead p w) w ms w' := by
  by_cases hseen : p.logical ∈ w.visited
  · rw [enter_seen hseen] at h
    obtain rfl := Except.ok.inj h
    have hnil : Grows b asks _ w [] (w.edge ⟨source, p.logical, kind⟩) :=
      .nil rfl (List.Subset.refl _)
    exact ⟨hseen, [], .nil, hnil.congr fun S => enter_seen hseen⟩
  cases hloaded : b.isPrerequired p.logical with
  | true =>
      rw [enter_prerequired hseen hloaded] at h
      obtain rfl := Except.ok.inj h
      have hnil : Grows b asks _ w [] ((w.edge ⟨source, p.logical, kind⟩).mark p.logical) :=
        .nil rfl (List.subset_cons_self _ _)
      refine ⟨List.mem_cons_self, [], .nil, hnil.congr fun S => ?_⟩
      exact enter_prerequired (b := b.only S) hseen hloaded
  | false =>
  cases hstub : b.isStub p.logical with
  | true =>
      rw [enter_stub hseen hloaded hstub] at h
      obtain ⟨c, hc, h⟩ := bind_eq_ok h
      obtain rfl := Except.ok.inj h
      have hfresh : p.logical ∉ (w.edge ⟨source, p.logical, kind⟩).visited := hseen
      refine ⟨List.mem_cons_self, _, .singleton .stub (and_iff_left rfl).symm,
        (Grows.stub hfresh hloaded hstub hc ahead).of_edge.congr fun S => ?_⟩
      rw [enter_stub (b := b.only S) hseen hloaded hstub, hc]
      rfl
  | false =>
      rw [enter_file hseen hloaded hstub] at h
      obtain ⟨f, hfile, h⟩ := bind_eq_ok h
      obtain ⟨text, htext, h⟩ := bind_eq_ok h
      have hlogical := fileOf_logical hfile
      have hsupplied : b.Supplies ⟨f.logical, .module ahead, .file f text⟩ :=
        supplies_file htext (.inr (hlogical ▸ hstub)) (.inr (hlogical ▸ hloaded))
      obtain ⟨deps, hdeps, hgrows⟩ :=
        hv asks f text _ _ w' (hk f hfile) htext (hlogical ▸ hseen) hsupplied h
      rw [← hlogical]
      refine ⟨?_, _, .append (hdeps.congr fun m hm => ?_) (.singleton _ (and_iff_left rfl).symm),
        hgrows.of_edge.congr fun S => ?_⟩
      · exact (hgrows.fresh _ (List.mem_append_right deps (List.mem_singleton_self _))).2
      · exact iff_of_false not_false fun hn => hgrows.ne_last hm hn.2
      · rw [enter_file (b := b.only S) hseen hloaded hstub]
        show (b.fileOf p source >>= _) = _
        rw [hfile]
        rfl

theorem enterAll_visited (hv : b.VisitGrows go) {w w' : Walk}
    (hk : ∀ p ∈ ps, b.IsAsked asks source p)
    (h : b.enterAll (go b) source kind ahead ps w = .ok w') : w.visited ⊆ w'.visited := by
  induction ps generalizing w with
  | nil =>
      obtain rfl := Except.ok.inj h
      exact List.Subset.refl _
  | cons p ps ih =>
      obtain ⟨v, hp, hps⟩ := bind_eq_ok h
      obtain ⟨hkp, hkps⟩ := List.forall_mem_cons.mp hk
      obtain ⟨-, _, -, hgrows⟩ := enter_grows hv hkp hp
      exact List.Subset.trans hgrows.visited (ih hkps hps)

/-- A name that is visited with the first need is opened by that need, if at all. -/
theorem opens_head (hv : b.VisitGrows go) {w v : Walk} (hk : ∀ q ∈ ps, b.IsAsked asks source q)
    (h : b.enter (go b) source kind ahead p w = .ok v) (hfresh : n ∉ w.visited)
    (hmem : n ∈ v.visited) (hloaded : b.isPrerequired n = false) :
    n = p.logical ↔ b.Opens (go b) source kind ahead (p :: ps) w n := by
  constructor
  · rintro rfl
    exact ⟨[], p, ps, w, rfl, rfl, rfl, hfresh, hloaded⟩
  · rintro ⟨before, q, after, v', hps, rfl, hbefore, hnew, -⟩
    cases before with
    | nil =>
        obtain ⟨rfl, -⟩ := List.cons.inj hps
        rfl
    | cons p' before =>
        obtain ⟨rfl, rfl⟩ := List.cons.inj hps
        rw [enterAll, h] at hbefore
        have hkb := (List.forall_mem_append.mp hk).1
        exact absurd (enterAll_visited hv hkb hbefore hmem) hnew

/-- A name that is new after the first need is opened by one of the others, if at all. -/
theorem opens_cons (hv : b.VisitGrows go) {w v : Walk} (hk : b.IsAsked asks source p)
    (h : b.enter (go b) source kind ahead p w = .ok v) (hn : n ∉ v.visited) :
    b.Opens (go b) source kind ahead (p :: ps) w n ↔ b.Opens (go b) source kind ahead ps v n := by
  constructor
  · rintro ⟨before, q, after, v', hps, hq, hbefore, hfresh⟩
    cases before with
    | nil =>
        obtain ⟨rfl, -⟩ := List.cons.inj hps
        exact absurd (hq ▸ (enter_grows hv hk h).1) hn
    | cons p' before =>
        obtain ⟨rfl, rfl⟩ := List.cons.inj hps
        rw [enterAll, h] at hbefore
        exact ⟨before, q, after, v', rfl, hq, hbefore, hfresh⟩
  · rintro ⟨before, q, after, v', rfl, hq, hbefore, hfresh⟩
    refine ⟨p :: before, q, after, v', rfl, hq, ?_, hfresh⟩
    rw [enterAll, h]
    exact hbefore

theorem enterAll_grows (hv : b.VisitGrows go) {w w' : Walk} (hk : ∀ p ∈ ps, b.IsAsked asks source p)
    (h : b.enterAll (go b) source kind ahead ps w = .ok w') :
    ∃ ms, Modules (fun n => ahead = true ∧ b.Opens (go b) source kind ahead ps w n) ms ∧
      Grows b asks (fun b => b.enterAll (go b) source kind ahead ps w) w ms w' := by
  induction ps generalizing w with
  | nil =>
      obtain rfl := Except.ok.inj h
      exact ⟨[], .nil, .nil rfl (List.Subset.refl _)⟩
  | cons p ps ih =>
      obtain ⟨v, hp, hps⟩ := bind_eq_ok h
      obtain ⟨hkp, hkps⟩ := List.forall_mem_cons.mp hk
      obtain ⟨-, first, hfirst, hgrows⟩ := enter_grows hv hkp hp
      obtain ⟨rest, hrest, hgrows'⟩ := ih hkps hps
      refine ⟨first ++ rest, .append
        (hfirst.congr fun m hm => and_congr_right fun _ => ?_)
        (hrest.congr fun m hm => and_congr_right fun _ => ?_), hgrows.bind hgrows'⟩
      · have hfresh := hgrows.fresh m hm
        have hloaded := (hgrows.supplied m hm).loaded.resolve_left (hfirst.ne_entry hm)
        exact opens_head hv hkps hp hfresh.1 hfresh.2 hloaded
      · exact (opens_cons hv hkp hp (hgrows'.fresh m hm).1).symm

/-- A name that a list of needs opens is visited in the end. -/
theorem Opens.visited (hv : b.VisitGrows go) {w w' : Walk} (hk : ∀ p ∈ ps, b.IsAsked asks source p)
    (h : b.enterAll (go b) source kind ahead ps w = .ok w')
    (hopens : b.Opens (go b) source kind ahead ps w n) : n ∈ w'.visited := by
  induction ps generalizing w with
  | nil =>
      obtain ⟨before, q, after, v, hps, -⟩ := hopens
      cases before <;> cases hps
  | cons p ps ih =>
      obtain ⟨v, hp, hps⟩ := bind_eq_ok h
      obtain ⟨hkp, hkps⟩ := List.forall_mem_cons.mp hk
      by_cases hn : n ∈ v.visited
      · exact enterAll_visited hv hkps hps hn
      · exact ih hkps hps ((opens_cons hv hkp hp hn).mp hopens)

theorem followAll_grows (hv : b.VisitGrows go) {ds : List Declaration} {w w' : Walk}
    (hds : ∀ d ∈ ds, asks ⟨d, source⟩) (h : b.followAll (go b) source ds w = .ok w') :
    ∃ ms, Modules (fun _ => False) ms ∧
      Grows b asks (fun b => b.followAll (go b) source ds w) w ms w' := by
  induction ds generalizing w with
  | nil =>
      obtain rfl := Except.ok.inj h
      exact ⟨[], .nil, .nil rfl (List.Subset.refl _)⟩
  | cons d ds ih =>
      obtain ⟨ps, hps, h⟩ := bind_eq_ok h
      obtain ⟨v, henter, h⟩ := bind_eq_ok h
      obtain ⟨hd, hds⟩ := List.forall_mem_cons.mp hds
      obtain ⟨first, hfirst, hgrows⟩ := enterAll_grows hv (pending_asked hps hd) henter
      obtain ⟨rest, hrest, hgrows'⟩ := ih hds h
      refine ⟨first ++ rest, .append (hfirst.congr fun m hm => ?_) hrest,
        (hgrows.bind hgrows').congr fun S => ?_⟩
      · exact iff_of_false (fun hn => Bool.noConfusion hn.1) not_false
      · show (b.pending source d >>= _) = _
        rw [hps]
        rfl

end Following

/-- A visit reads its unit, follows its needs and emits it. -/
theorem visit_grows (b : Builder) (depth : Nat) : b.VisitGrows (visit · depth) := by
  induction depth with
  | zero => exact fun asks f text role w w' _ _ _ _ h => absurd h (by simp [visit])
  | succ depth ih =>
      intro asks f text role w w' hasked hread hfresh hsupplied h
      replace h : b.visit (depth + 1) (SourceUnit.ofResolved f text) role w = .ok w' := h
      cases hp : f.processor with
      | javascript =>
          rw [visit_native (u := SourceUnit.ofResolved f text) hp] at h
          obtain rfl := Except.ok.inj h
          have hnil : Grows b (· ∈ Member.requests ⟨f.logical, role, .file f text⟩) _
              (w.mark f.logical) [] (w.mark f.logical) := .nil rfl (List.Subset.refl _)
          refine ⟨[], .nil, ?_⟩
          refine hnil.unit hread hfresh hsupplied hasked (native_written text role hp) fun S => ?_
          exact visit_native hp depth role
      | ruby =>
          rw [visit_ruby (u := SourceUnit.ofResolved f text) hp] at h
          obtain ⟨c, hc, h⟩ := bind_eq_ok h
          obtain ⟨v, hfollow, h⟩ := bind_eq_ok h
          obtain rfl := Except.ok.inj h
          have hrequests : ∀ d ∈ c.declarations,
              ⟨d, f.logical⟩ ∈ Member.requests ⟨f.logical, role, .file f text⟩ := by
            rw [requests_compiled hp hc]
            exact fun d hd => List.mem_map_of_mem hd
          obtain ⟨deps, hdeps, hgrows⟩ := followAll_grows ih hrequests hfollow
          refine ⟨deps, hdeps, ?_⟩
          refine hgrows.unit hread hfresh hsupplied hasked (compiled_written hp hc) fun S => ?_
          show visit (b.only S) (depth + 1) (SourceUnit.ofResolved f text) role w = _
          rw [visit_ruby (u := SourceUnit.ofResolved f text) hp, hc]
          rfl

/-! ## The members of bundles -/

/-- Whether a name is taken from the list of what is loaded ahead, and not met before. -/
def LoadsAhead (b : Builder) (n : String) : Prop :=
  b.Opens (b.visit b.depth) preloadRequester .direct true
    ((distinctNames [] b.options.preload).map Pending.name) {} n

/-- Whether a name is the entry's and does not come with what is loaded ahead. -/
def Starts (b : Builder) (entry n : String) : Prop :=
  n = LogicalName.normalize entry ∧ ∃ w, b.preload = .ok w ∧ n ∉ w.visited

/-- The walk over the entry, after `w` over what is loaded ahead. -/
def walkEntry (b : Builder) (entry : String) (w : Walk) : Except Failure Walk := do
  let file ← b.resolver.resolve entry entryRequester
  if w.visited.contains file.logical then pure w
  else
    let text ← b.reader.read file.path
    b.visit b.depth (SourceUnit.ofResolved file text) .entry w

/-- A build is a walk that is made into a bundle. -/
theorem build_eq_walk (b : Builder) (entry : String) :
    b.build entry = (b.preload >>= b.walkEntry entry) >>= fun w => .ok (b.finish w) := by
  unfold build walkEntry
  cases b.preload with
  | error e => rfl
  | ok w =>
  cases b.resolver.resolve entry entryRequester with
  | error e => rfl
  | ok file =>
  show (if w.visited.contains file.logical then _ else _) =
    ((if w.visited.contains file.logical then _ else _) >>= _)
  split
  · rfl
  · cases b.reader.read file.path <;> rfl

/-- A build that succeeds has walked over what is loaded ahead, and then over the entry. -/
theorem build_eq_ok {b : Builder} (h : b.build entry = .ok a) :
    ∃ w w', b.preload = .ok w ∧ b.walkEntry entry w = .ok w' ∧ b.finish w' = a := by
  rw [build_eq_walk] at h
  obtain ⟨w', hwalk, h⟩ := bind_eq_ok h
  obtain ⟨w, hpre, hentry⟩ := bind_eq_ok hwalk
  exact ⟨w, w', hpre, hentry, Except.ok.inj h⟩

/-- What is asked for from outside: the entry, and the names that are to be loaded ahead. -/
def Given (b : Builder) (entry : String) (q : Request) : Prop :=
  q = ⟨⟨entry, .direct⟩, entryRequester⟩ ∨
    ∃ n ∈ b.options.preload, q = ⟨⟨n, .direct⟩, preloadRequester⟩

/-- That the members of a build of `entry` that gives `a` are `ms`. -/
structure Contains (b : Builder) (entry : String) (a : Artifact) (ms : List Member) : Prop where
  records : ∃ records edges, a = assemble records edges b.options.banner ∧
    List.Forall₂ Member.Written ms records
  enough : ∀ S, (∀ m ∈ ms, m.allowed S) → (b.only S).build entry = .ok a
  needed : ∀ S, (∃ m ∈ ms, ¬ m.allowed S) → ∃ e, (b.only S).build entry = .error e
  supplied : ∀ m ∈ ms, b.Supplies m
  asked : b.Asked (b.Given entry) ms
  ahead : ∀ m ∈ ms, m.role = .module true ↔ b.LoadsAhead m.logical
  starts : ∀ m ∈ ms, m.role = .entry ↔ b.Starts entry m.logical

/-- The units of a bundle are its members. -/
theorem Contains.units {b : Builder} {ms : List Member} (h : b.Contains entry a ms) :
    ms.map (·.logical) = a.units := by
  obtain ⟨records, edges, rfl, hwritten⟩ := h.records
  show _ = records.map (·.logical)
  clear h
  induction hwritten with
  | nil => rfl
  | cons hm _ ih => rw [List.map_cons, List.map_cons, ih, hm.1]

theorem distinctNames_subset (seen names : List String) : distinctNames seen names ⊆ names := by
  induction names generalizing seen with
  | nil => exact List.Subset.refl _
  | cons n ns ih =>
      rw [distinctNames]
      split
      · exact List.subset_cons_of_subset n (ih seen)
      · exact List.cons_subset_cons n (ih _)

theorem preload_grows {b : Builder} (entry : String) {w : Walk} (h : b.preload = .ok w) :
    (∀ n, b.LoadsAhead n → n ∈ w.visited) ∧
      ∃ ms, Modules b.LoadsAhead ms ∧ Grows b (b.Given entry) preload {} ms w := by
  have hk : ∀ p ∈ (distinctNames [] b.options.preload).map Pending.name,
      b.IsAsked (b.Given entry) preloadRequester p := by
    intro p hp f hf
    obtain ⟨n, hn, rfl⟩ := List.mem_map.mp hp
    exact ⟨⟨⟨n, .direct⟩, preloadRequester⟩, .inr ⟨n, distinctNames_subset _ _ hn, rfl⟩, hf⟩
  have hv := b.visit_grows b.depth
  obtain ⟨ms, hms, hgrows⟩ := enterAll_grows hv hk h
  exact ⟨fun n hn => Opens.visited hv hk h hn, ms, hms.congr fun m hm => and_iff_right rfl,
    hgrows.congr fun S => rfl⟩

/-- The entry comes last, after modules that are not loaded ahead, unless it was visited before. -/
theorem walkEntry_grows {b : Builder} {w w' : Walk} (h : b.walkEntry entry w = .ok w') :
    ∃ ms, Grows b (b.Given entry) (walkEntry · entry w) w ms w' ∧
      ∀ m ∈ ms, m.role = .module false ∧ m.logical ≠ LogicalName.normalize entry ∨
        m.role = .entry ∧ m.logical = LogicalName.normalize entry := by
  obtain ⟨f, hfile, h⟩ := bind_eq_ok h
  have hname := Resolver.resolve_logical hfile
  split at h
  · rename_i hseen
    obtain rfl := Except.ok.inj h
    have hnil : Grows b (b.Given entry) _ w [] w := .nil rfl (List.Subset.refl _)
    refine ⟨[], hnil.congr fun S => ?_, fun _ hm => absurd hm List.not_mem_nil⟩
    show (b.resolver.resolve entry entryRequester >>= _) = _
    rw [hfile]
    exact if_pos hseen
  · rename_i hseen
    obtain ⟨text, hread, h⟩ := bind_eq_ok h
    obtain ⟨deps, hdeps, hgrows⟩ := b.visit_grows b.depth (b.Given entry) f text .entry w w'
      ⟨_, .inl rfl, hfile⟩ hread (fun hmem => hseen (List.contains_iff_mem.mpr hmem))
      (supplies_file hread (.inl rfl) (.inl rfl)) h
    refine ⟨_, hgrows.congr fun S => ?_, List.forall_mem_append.mpr ⟨fun m hm => .inl ?_, ?_⟩⟩
    · show (b.resolver.resolve entry entryRequester >>= _) = _
      rw [hfile]
      exact if_neg hseen
    · exact ⟨hdeps.role_eq hm, fun heq => hgrows.ne_last hm (heq.trans hname.symm)⟩
    · intro m hm
      obtain rfl := List.mem_singleton.mp hm
      exact .inr ⟨rfl, hname⟩

/-- A build that succeeds has its members. -/
theorem build_contains {b : Builder} (h : b.build entry = .ok a) : ∃ ms, b.Contains entry a ms := by
  obtain ⟨w, w', hpre, hentry, rfl⟩ := build_eq_ok h
  obtain ⟨hvisited, first, hfirst, hgrows⟩ := preload_grows entry hpre
  obtain ⟨rest, hgrows', hrest⟩ := walkEntry_grows hentry
  have hall := hgrows.bind hgrows'
  refine ⟨first ++ rest, ?_, fun S hS => ?_, fun S hS => ?_, hall.supplied, hall.asked,
    List.forall_mem_append.mpr ⟨fun m hm => ?_, fun m hm => ?_⟩,
    List.forall_mem_append.mpr ⟨fun m hm => ?_, fun m hm => ?_⟩⟩
  · obtain ⟨new, hnew, hwritten⟩ := hall.records
    refine ⟨new, w'.edges, ?_, hwritten⟩
    have hnew : w'.records = new := hnew
    rw [finish, hnew]
  · rw [build_eq_walk, hall.enough S hS]
    rfl
  · obtain ⟨e, he⟩ := hall.needed S hS
    rw [build_eq_walk, he]
    exact ⟨e, rfl⟩
  · obtain ⟨ahead, hrole, hahead⟩ := hfirst m hm
    rw [hrole, ← hahead]
    exact ⟨Role.module.inj, congrArg Role.module⟩
  · -- A name that is loaded ahead is not new when the entry is walked to.
    refine iff_of_false ?_ fun hn => (hgrows'.fresh m hm).1 (hvisited _ hn)
    rcases hrest m hm with ⟨hrole, -⟩ | ⟨hrole, -⟩ <;> rw [hrole] <;> nofun
  · refine iff_of_false (hfirst.ne_entry hm) ?_
    rintro ⟨-, v, hv, hfresh⟩
    obtain rfl := Except.ok.inj (hpre.symm.trans hv)
    exact hfresh (hgrows.fresh m hm).2
  · rcases hrest m hm with ⟨hrole, hne⟩ | ⟨hrole, hname⟩
    · exact iff_of_false (by rw [hrole]; nofun) fun hstarts => hne hstarts.1
    · exact iff_of_true hrole ⟨hname, w, hpre, (hgrows'.fresh m hm).1⟩

end Builder

end RubyJs
