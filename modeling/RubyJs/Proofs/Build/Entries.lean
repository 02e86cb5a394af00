import RubyJs.Proofs.Build.Concatenation
import RubyJs.Proofs.Build.Visited

set_option autoImplicit false

/-! # The entry of a bundle

The units of a bundle stand in three stretches: what is loaded ahead with all it needs, what the
entry needs besides, and the entry.

    ahead ++ needs ++ [entry]

So the entry is the last one, and it is compiled to run at once. That holds unless the entry is met
while the first stretch is walked: a named entry is then not visited again, and it stays what it is
there, a module that waits to be required (`Builder.build_entry_last`). An entry given as text is
visited in any case, and its name stands in the bundle twice (`Builder.buildText_units`).

    preload p, p needs main, build main        main p
    preload p, p needs main, main as text      main p main
-/

namespace RubyJs

variable {text : String} {m : Member}

/-! ## Members in order -/

namespace Walk

/-- That the walk `w'` has emitted the members `ms` since `w`. -/
def Adds (w : Walk) (ms : List Member) (w' : Walk) : Prop :=
  ∃ new, w'.records = w.records ++ new ∧ List.Forall₂ Member.Written ms new

namespace Adds

variable {w w₁ w₂ : Walk} {ms ms' : List Member}

theorem trans (h : w.Adds ms w₁) (h' : w₁.Adds ms' w₂) : w.Adds (ms ++ ms') w₂ := by
  obtain ⟨new, hnew, hwritten⟩ := h
  obtain ⟨new', hnew', hwritten'⟩ := h'
  exact ⟨new ++ new', by rw [hnew', hnew, List.append_assoc], List.rel_append hwritten hwritten'⟩

theorem emit {r : Record} (h : m.Written r) (w : Walk) : w.Adds [m] (w.emit r) :=
  ⟨[r], rfl, .cons h .nil⟩

/-- The records that are added have the names of the members. -/
theorem names (h : w.Adds ms w₁) :
    w₁.records.map (·.logical) = w.records.map (·.logical) ++ ms.map (·.logical) := by
  obtain ⟨new, hnew, hwritten⟩ := h
  have hnames : new.map (·.logical) = ms.map (·.logical) := by
    clear hnew
    induction hwritten with
    | nil => rfl
    | cons hm _ ih => rw [List.map_cons, List.map_cons, ih, hm.1]
  rw [hnew, List.map_append, hnames]

end Adds

end Walk

/-- That the units of a bundle are these members, in their order. -/
structure Artifact.Holds (a : Artifact) (banner : Bool) (ms : List Member) : Prop where
  units : ms.map (·.logical) = a.units
  text : ∃ texts, ms.mapM Member.text = .ok texts ∧
    a.text = (if banner then bundleBanner a.units.length else "") ++ String.join texts

/-- A member of a bundle has its text between the texts before it and those of the members after
it. -/
theorem Artifact.Holds.text_middle {a : Artifact} {banner : Bool} {front back : List Member}
    (h : a.Holds banner (front ++ m :: back)) :
    ∃ before text texts, m.text = .ok text ∧ back.mapM Member.text = .ok texts ∧
      a.text = before ++ text ++ String.join texts := by
  obtain ⟨texts, htexts, htext⟩ := h.text
  rw [List.mapM_append, List.mapM_cons] at htexts
  obtain ⟨first, -, htexts⟩ := bind_eq_ok htexts
  obtain ⟨others, hothers, htexts⟩ := bind_eq_ok htexts
  obtain ⟨text, hm, hothers⟩ := bind_eq_ok hothers
  obtain ⟨rest, hrest, hothers⟩ := bind_eq_ok hothers
  obtain rfl := Except.ok.inj hothers
  obtain rfl := Except.ok.inj htexts
  refine ⟨(if banner then bundleBanner a.units.length else "") ++ String.join first, text, rest, hm,
    hrest, ?_⟩
  rw [htext, String.join_append, String.join_cons, String.append_assoc, String.append_assoc]

/-- The text of the last member ends the bundle. -/
theorem Artifact.Holds.text_last {a : Artifact} {banner : Bool} {front : List Member}
    (h : a.Holds banner (front ++ [m])) :
    ∃ before text, m.text = .ok text ∧ a.text = before ++ text := by
  obtain ⟨before, text, texts, hm, htexts, htext⟩ := h.text_middle
  rw [List.mapM_nil] at htexts
  obtain rfl := Except.ok.inj htexts
  rw [String.join_nil, String.append_empty] at htext
  exact ⟨before, text, hm, htext⟩

namespace Builder

variable {b : Builder} {w w' : Walk} {n : String} {depth : Nat}

/-- A walk from the start makes a bundle of the members that it emits. -/
theorem finish_holds {ms : List Member} (h : Walk.Adds {} ms w) :
    (b.finish w).Holds b.options.banner ms := by
  refine ⟨h.names.symm, ?_⟩
  obtain ⟨new, hnew, hwritten⟩ := h
  have hnew : w.records = new := hnew
  refine ⟨_, mapM_text_of_written hwritten, ?_⟩
  show _ = (if b.options.banner then bundleBanner (w.records.map (·.logical)).length else "") ++ _
  rw [List.length_map, ← hnew]
  rfl

/-- A walk over what is loaded ahead and the entry makes the bundle of the entry. -/
theorem build_eq_finish {entry : String} (h : (b.preload >>= b.walkEntry entry) = .ok w) :
    b.build entry = .ok (b.finish w) := by
  rw [build_eq_walk, h]
  rfl

/-! ## Scripts of units -/

/-- A script that runs where it stands. -/
def RunsAtOnce (script : String) : Prop :=
  ∃ body, script = "(function(Opal) \x7b\n" ++ body ++ "\x7d)(Opal);\n"

/-- A script that only puts a function into the module table, under the name `n`. -/
def Registers (n script : String) : Prop :=
  ∃ body, script = "Opal.modules[" ++ Script.stringLiteral n ++ "] = function(Opal) \x7b\n" ++ body
    ++ "\x7d;\n"

/-- The script of an entry that is compiled runs at once. -/
theorem runsAtOnce_compile {c : Compiled} (h : compile text ⟨n, false, false⟩ = .ok c) :
    RunsAtOnce c.javascript := by
  obtain ⟨body, hbody⟩ := compile_javascript h
  exact ⟨body, hbody⟩

/-- The script of a module that is compiled registers it. -/
theorem registers_compile {c : Compiled} (h : compile text ⟨n, true, false⟩ = .ok c) :
    Registers n c.javascript := by
  obtain ⟨body, hbody⟩ := compile_javascript h
  refine ⟨body, hbody.trans ?_⟩
  simp [CompileOptions.opening, CompileOptions.closing]

/-- The text of an entry that is compiled runs at once. -/
theorem runsAtOnce_text {f : Resolved} {script : String} (hp : f.processor = .ruby)
    (h : Member.text ⟨n, .entry, .file f text⟩ = .ok script) : RunsAtOnce script := by
  obtain ⟨s, hs, rfl⟩ := map_eq_ok h
  simp only [Member.script, hp] at hs
  obtain ⟨c, hc, rfl⟩ := map_eq_ok hs
  simpa [Member.isModule] using runsAtOnce_compile hc

/-- The script of a module registers it. -/
theorem registers_script {script : String} (hrole : m.role ≠ .entry) (hm : m.isModule = true)
    (h : m.script = .ok script) : Registers m.logical script := by
  obtain ⟨n, role, origin⟩ := m
  have hoptions : Member.options ⟨n, role, origin⟩ = ⟨n, true, false⟩ := by
    rw [Member.options, bne_iff_ne.mpr hrole]
  obtain ⟨text, hscript⟩ : ∃ text, Member.script ⟨n, role, origin⟩ =
      (compile text ⟨n, true, false⟩).map (·.javascript) := by
    cases origin with
    | stub => exact ⟨"", by rw [← hoptions]; rfl⟩
    | file f text =>
        refine ⟨text, ?_⟩
        have hp : f.processor = .ruby := by
          simp only [Member.isModule, Bool.and_eq_true, beq_iff_eq] at hm
          exact hm.1
        simp only [Member.script, hp, hoptions]
  obtain ⟨c, hc, rfl⟩ := map_eq_ok (hscript ▸ h)
  exact registers_compile hc

/-! ## The stretches of a walk -/

/-- Every name that is visited while names are loaded ahead is emitted then, or the host has loaded
it. -/
theorem named_of_visited {before after : List String}
    (hsplit : distinctNames [] b.options.preload = before ++ after)
    (h : b.enterAll (b.visit b.depth) preloadRequester .direct true (before.map Pending.name) {} = .ok w)
    (hn : n ∈ w.visited) : n ∈ w.records.map (·.logical) ∨ b.isPrerequired n = true := by
  have hrun := enterAll_run (b.visit_runs b.depth) (by simp [Known]) h []
    (after.map fun n => (.direct, .name n)) none []
  have hneeds : b.preloadNeeds = (before.map Pending.name).map (EdgeKind.direct, ·) ++
      after.map fun n => (.direct, .name n) := by
    rw [preloadNeeds, hsplit, List.map_append, List.map_map]
    rfl
  rw [← hneeds] at hrun
  have hstart : b.Reached "" ⟨[⟨preloadRequester, [], b.preloadNeeds, true, none⟩], {}⟩ := .start
  have hnamed := (hstart.run hrun).registered.named n hn
  simpa [Config.names, openNames] using hnamed

/-- The units that are loaded ahead are those whose names are visited then, less the names that the
host has loaded. -/
theorem mem_ahead_iff (h : b.preload = .ok w) :
    n ∈ w.records.map (·.logical) ↔ n ∈ w.visited ∧ b.isPrerequired n = false := by
  obtain ⟨-, ms, hmodules, hgrows⟩ := preload_grows "" h
  have hadds : Walk.Adds {} ms w := hgrows.records
  constructor
  · intro hn
    rw [hadds.names] at hn
    obtain ⟨m, hm, rfl⟩ := List.mem_map.mp hn
    exact ⟨(hgrows.fresh m hm).2,
      (hgrows.supplied m hm).loaded.resolve_left (hmodules.ne_entry hm)⟩
  · rintro ⟨hn, hloaded⟩
    refine (named_of_visited (List.append_nil _).symm h hn).resolve_right ?_
    rw [hloaded]
    exact Bool.false_ne_true

/-- New names after those that are loaded ahead are all distinct. -/
theorem nodup_ahead_append (h : b.preload = .ok w) {names : List String}
    (hnew : ∀ n ∈ names, n ∉ w.visited) (hdistinct : names.Nodup) :
    (w.records.map (·.logical) ++ names).Nodup := by
  obtain ⟨-, ms, -, hgrows⟩ := preload_grows "" h
  have hadds : Walk.Adds {} ms w := hgrows.records
  have hahead : w.records.map (·.logical) = ms.map (·.logical) := hadds.names
  refine List.nodup_append.mpr ⟨hahead ▸ hgrows.distinct, hdistinct, fun n hn n' hn' heq => ?_⟩
  exact hnew n' hn' (heq ▸ ((mem_ahead_iff h).mp hn).1)

/-- Following declarations emits modules that were not visited. -/
theorem followAll_adds {source : String} {ds : List Declaration}
    (h : b.followAll (b.visit depth) source ds w = .ok w') :
    ∃ ms, w.Adds ms w' ∧ (∀ m ∈ ms, m.role = .module false ∧ m.logical ∉ w.visited)
      ∧ (ms.map (·.logical)).Nodup := by
  obtain ⟨ms, hmodules, hgrows⟩ := @followAll_grows b (fun _ => True) (visit · depth) source
    (b.visit_grows depth) ds w w' (fun _ _ => trivial) h
  exact ⟨ms, hgrows.records, fun m hm => ⟨hmodules.role_eq hm, (hgrows.fresh m hm).1⟩,
    hgrows.distinct⟩

/-- A need for a name that is new emits modules, and then the unit of that name. -/
theorem enter_name_adds {source name : String} {kind : EdgeKind} {ahead : Bool}
    (hfresh : LogicalName.normalize name ∉ w.visited)
    (hloaded : b.isPrerequired (LogicalName.normalize name) = false)
    (h : b.enter (b.visit depth) source kind ahead (.name name) w = .ok w') :
    ∃ deps origin, w.Adds (deps ++ [⟨LogicalName.normalize name, .module ahead, origin⟩]) w'
      ∧ (∀ m ∈ deps, m.role = .module false)
      ∧ (b.isStub (LogicalName.normalize name) = true ∧ origin = .stub
        ∨ b.isStub (LogicalName.normalize name) = false
          ∧ ∃ f text, b.resolver.resolve name source = .ok f ∧ b.reader.read f.path = .ok text
            ∧ origin = .file f text) := by
  have hfresh : (Pending.name name).logical ∉ w.visited := hfresh
  cases hstub : b.isStub (LogicalName.normalize name) with
  | true =>
      rw [enter_stub hfresh hloaded hstub] at h
      obtain ⟨c, hc, h⟩ := bind_eq_ok h
      obtain rfl := Except.ok.inj h
      exact ⟨[], .stub, ⟨[_], rfl, .cons (stub_written hc ahead) .nil⟩, by simp, .inl ⟨rfl, rfl⟩⟩
  | false =>
      rw [enter_file hfresh hloaded hstub] at h
      obtain ⟨f, hfile, h⟩ := bind_eq_ok h
      obtain ⟨text, hread, h⟩ := bind_eq_ok h
      have hname : f.logical = LogicalName.normalize name := Resolver.resolve_logical hfile
      obtain ⟨deps, hdeps, hgrows⟩ := b.visit_grows depth (fun _ => True) f text _ _ w'
        ⟨⟨⟨name, .direct⟩, source⟩, trivial, hfile⟩ hread (hname ▸ hfresh)
        (supplies_file hread (.inr (hname ▸ hstub)) (.inr (hname ▸ hloaded))) h
      exact ⟨deps, .file f text, hname ▸ hgrows.records, fun m hm => hdeps.role_eq hm,
        .inr ⟨rfl, f, text, hfile, hread, rfl⟩⟩

/-- A visit to an entry emits modules that were not visited, and then the entry. -/
theorem visit_entry_adds {f : Resolved}
    (h : b.visit depth (SourceUnit.ofResolved f text) .entry w = .ok w') :
    ∃ needs, w.Adds (needs ++ [⟨f.logical, .entry, .file f text⟩]) w'
      ∧ (∀ m ∈ needs, m.role = .module false ∧ m.logical ∉ w.visited ∧ m.logical ≠ f.logical)
      ∧ (needs.map (·.logical)).Nodup := by
  cases depth with
  | zero => exact absurd h (by simp [visit])
  | succ depth =>
  cases hp : f.processor with
  | javascript =>
      rw [visit_native (u := SourceUnit.ofResolved f text) hp] at h
      obtain rfl := Except.ok.inj h
      exact ⟨[], .emit (native_written text .entry hp) _, by simp, List.nodup_nil⟩
  | ruby =>
      rw [visit_ruby (u := SourceUnit.ofResolved f text) hp] at h
      obtain ⟨c, hc, h⟩ := bind_eq_ok h
      obtain ⟨v, hfollow, h⟩ := bind_eq_ok h
      obtain rfl := Except.ok.inj h
      obtain ⟨needs, hadds, hmodules, hdistinct⟩ := followAll_adds hfollow
      have hadds : w.Adds needs v := hadds
      refine ⟨needs, hadds.trans (.emit (compiled_written hp hc) _), fun m hm => ?_, hdistinct⟩
      obtain ⟨hrole, hnew⟩ := hmodules m hm
      obtain ⟨hother, hfresh⟩ := not_or.mp (mt List.mem_cons.mpr hnew)
      exact ⟨hrole, hfresh, hother⟩

/-! ## Entries that are named -/

/-- A walk to the entry ends at once if its name is visited. If not, it emits modules of other names that
were not visited, and then the entry. -/
theorem walkEntry_adds {entry : String} (h : b.walkEntry entry w = .ok w') :
    ∃ file, b.resolver.resolve entry entryRequester = .ok file
      ∧ (LogicalName.normalize entry ∈ w.visited ∧ w' = w
        ∨ LogicalName.normalize entry ∉ w.visited ∧ ∃ text needs, b.reader.read file.path = .ok text
          ∧ w.Adds (needs ++ [⟨LogicalName.normalize entry, .entry, .file file text⟩]) w'
          ∧ ∀ m ∈ needs, m.logical ≠ LogicalName.normalize entry) := by
  obtain ⟨file, hfile, h⟩ := bind_eq_ok h
  have hname := Resolver.resolve_logical hfile
  refine ⟨file, hfile, ?_⟩
  rw [← hname]
  split at h
  · rename_i hseen
    exact .inl ⟨List.contains_iff_mem.mp hseen, (Except.ok.inj h).symm⟩
  · rename_i hfresh
    obtain ⟨text, hread, hvisit⟩ := bind_eq_ok h
    obtain ⟨needs, hneeds, hothers, -⟩ := visit_entry_adds hvisit
    exact .inr ⟨mt List.contains_iff_mem.mpr hfresh, text, needs, hread, hneeds,
      fun m hm => (hothers m hm).2.2⟩

/-- **The entry comes last and runs, unless it comes with what is loaded ahead.** If it was not
visited then, it is the last unit and no other unit has its name; it is made from the file that its
name resolves to, and if it is compiled, its text at the end of the bundle runs at once. If it was
visited, the bundle is the one of what is loaded ahead: it has a unit of that name exactly if the host
has not loaded it, and none of its modules is more than registered. -/
theorem build_entry_last (b : Builder) (entry : String) (a : Artifact) (h : b.build entry = .ok a) :
    ∃ (ahead : Walk) (file : Resolved) (ms : List Member), b.preload = .ok ahead
      ∧ b.resolver.resolve entry entryRequester = .ok file ∧ a.Holds b.options.banner ms
      ∧ (LogicalName.normalize entry ∉ ahead.visited → ∃ front text before script,
          ms = front ++ [⟨LogicalName.normalize entry, .entry, .file file text⟩]
          ∧ b.reader.read file.path = .ok text
          ∧ a.units.getLast? = some (LogicalName.normalize entry)
          ∧ LogicalName.normalize entry ∉ front.map (·.logical)
          ∧ a.text = before ++ script
          ∧ Member.text ⟨LogicalName.normalize entry, .entry, .file file text⟩ = .ok script
          ∧ (file.processor = .ruby → RunsAtOnce script))
      ∧ (LogicalName.normalize entry ∈ ahead.visited → a = b.finish ahead
          ∧ (LogicalName.normalize entry ∈ a.units ↔
            b.isPrerequired (LogicalName.normalize entry) = false)
          ∧ ∀ m ∈ ms, m.role ≠ .entry ∧ ∀ script, m.script = .ok script → m.isModule = true →
            Registers m.logical script) := by
  obtain ⟨w, w', hpre, hentry, rfl⟩ := build_eq_ok h
  obtain ⟨-, ahead, hahead, hgrows⟩ := preload_grows entry hpre
  have hadds : Walk.Adds {} ahead w := hgrows.records
  obtain ⟨file, hfile, ⟨hseen, rfl⟩ | ⟨hfresh, text, needs, hread, hneeds, hothers⟩⟩ :=
    walkEntry_adds hentry
  · have hheld := finish_holds (b := b) hadds
    refine ⟨w', file, ahead, hpre, hfile, hheld, fun hnew => absurd hseen hnew, fun _ =>
      ⟨rfl, (mem_ahead_iff hpre).trans (and_iff_right hseen), fun m hm => ?_⟩⟩
    exact ⟨hahead.ne_entry hm, fun script hscript hmodule =>
      registers_script (hahead.ne_entry hm) hmodule hscript⟩
  · have hheld := finish_holds (b := b) (hadds.trans hneeds)
    rw [← List.append_assoc] at hheld
    obtain ⟨before, script, hscript, htext⟩ := hheld.text_last
    refine ⟨w, file, _, hpre, hfile, hheld, fun _ => ?_, fun hseen => absurd hseen hfresh⟩
    refine ⟨_, text, before, script, rfl, hread, ?_, ?_, htext, hscript,
      fun hp => runsAtOnce_text hp hscript⟩
    · rw [← hheld.units, List.map_append]
      exact List.getLast?_append_cons ..
    · -- What is loaded ahead is visited before the entry, and what the entry needs has other names.
      intro hmem
      obtain ⟨m, hm, heq⟩ := List.mem_map.mp hmem
      rcases List.mem_append.mp hm with hm | hm
      · exact hfresh (heq ▸ (hgrows.fresh m hm).2)
      · exact hothers m hm heq

/-- The entry of the assorted builder is new after what is loaded ahead. -/
theorem build_entry_last_assorted : ∃ a before script, assorted.build "main" = .ok a
    ∧ a.units.getLast? = some "main" ∧ a.text = before ++ script ∧ RunsAtOnce script := by
  obtain ⟨a, hbuild, -⟩ : ∃ a, assorted.build "main" = .ok a
      ∧ a.units = ["d", "a", "n", "s", "main"] := exists_ok_of_any (by decide +kernel)
  obtain ⟨w, hpre, hnew⟩ : ∃ w, assorted.preload = .ok w ∧
      LogicalName.normalize "main" ∉ w.visited := exists_ok_of_any (by decide +kernel)
  obtain ⟨f, hfile, hp⟩ : ∃ f, assorted.resolver.resolve "main" entryRequester = .ok f ∧
      f.processor = .ruby := exists_ok_of_any (by decide +kernel)
  obtain ⟨ahead, file, ms, hahead, hresolved, -, hlast, -⟩ :=
    build_entry_last assorted "main" a hbuild
  obtain rfl := Except.ok.inj (hpre.symm.trans hahead)
  obtain rfl := Except.ok.inj (hfile.symm.trans hresolved)
  obtain ⟨front, text, before, script, -, -, hunits, -, htext, -, hruns⟩ := hlast hnew
  exact ⟨a, before, script, hbuild, hunits, htext, hruns hp⟩

/-- A builder that loads a module ahead which can ask for the entry later. -/
def overtaking : Builder where
  reader := (MemoryStore.ofFiles
    [(⟨"lib/main.rb"⟩, "2"), (⟨"lib/p.rb"⟩, "def later\n require 'main'\nend")]).reader
  options := { preload := ["p"] }
  paths := [⟨"lib"⟩]

/-- An entry that something loaded ahead needs is not the last unit. It is a module there, and no line
runs it. -/
theorem build_entry_overtaken : ∃ w, overtaking.build "main" = .ok (overtaking.finish w)
    ∧ w.records.map (fun r => (r.logical, r.kind, r.preload)) =
      [("main", .module, false), ("p", .module, true)]
    ∧ (overtaking.finish w).units.getLast? ≠ some (LogicalName.normalize "main")
    ∧ overtaking.resolver.resolve "main" entryRequester =
      .ok ⟨"main", ⟨"lib/main.rb"⟩, .ruby⟩ := by
  obtain ⟨w, hwalk, hrecords, hlast⟩ : ∃ w,
      (overtaking.preload >>= overtaking.walkEntry "main") = .ok w
        ∧ w.records.map (fun r => (r.logical, r.kind, r.preload)) =
          [("main", .module, false), ("p", .module, true)]
        ∧ (w.records.map (·.logical)).getLast? ≠ some (LogicalName.normalize "main") :=
    exists_ok_of_any (by decide +kernel)
  obtain ⟨f, hfile, rfl⟩ : ∃ f, overtaking.resolver.resolve "main" entryRequester = .ok f
      ∧ f = ⟨"main", ⟨"lib/main.rb"⟩, .ruby⟩ := exists_ok_of_any (by decide +kernel)
  exact ⟨w, build_eq_finish hwalk, hrecords, hlast, hfile⟩

/-! ## Entries given as text -/

/-- **An entry given as text comes last, also if its name is there already.** No other name stands in
the bundle twice, and the name of the entry does exactly if it was visited with what is loaded ahead
and is not one that the host has loaded. -/
theorem buildText_units (b : Builder) (text filename : String) (a : Artifact)
    (h : b.buildText text filename = .ok a) :
    ∃ (ahead : Walk) (needs : List String), b.preload = .ok ahead
      ∧ a.units = ahead.records.map (·.logical) ++ needs ++ [LogicalName.normalize filename]
      ∧ (ahead.records.map (·.logical) ++ needs).Nodup ∧ LogicalName.normalize filename ∉ needs
      ∧ (a.units.Nodup ↔ ¬ (LogicalName.normalize filename ∈ ahead.visited ∧
          b.isPrerequired (LogicalName.normalize filename) = false)) := by
  obtain ⟨w, hpre, h⟩ := bind_eq_ok h
  obtain ⟨w', hvisit, h⟩ := bind_eq_ok h
  obtain rfl := Except.ok.inj h
  let f : Resolved := ⟨LogicalName.normalize filename, ⟨filename⟩, b.options.defaultProcessor⟩
  obtain ⟨needs, hneeds, hothers, hdistinct⟩ := visit_entry_adds (f := f) hvisit
  have hunits : (b.finish w').units = w.records.map (·.logical) ++ needs.map (·.logical) ++
      [LogicalName.normalize filename] := by
    show w'.records.map (·.logical) = _
    rw [hneeds.names, List.map_append, List.append_assoc]
    rfl
  have hnot : LogicalName.normalize filename ∉ needs.map (·.logical) := by
    intro hmem
    obtain ⟨m, hm, heq⟩ := List.mem_map.mp hmem
    exact (hothers m hm).2.2 heq
  have hnodup : (w.records.map (·.logical) ++ needs.map (·.logical)).Nodup := by
    refine nodup_ahead_append hpre (fun n hn => ?_) hdistinct
    obtain ⟨m, hm, rfl⟩ := List.mem_map.mp hn
    exact (hothers m hm).2.1
  refine ⟨w, needs.map (·.logical), hpre, hunits, hnodup, hnot, ?_⟩
  rw [hunits, ← mem_ahead_iff hpre, List.nodup_append_comm, List.singleton_append, List.nodup_cons,
    and_iff_left hnodup, List.mem_append, or_iff_left hnot]

theorem buildText_units_fresh : ∃ a, overtaking.buildText "require 'main'" "inline.rb" = .ok a
    ∧ a.units = ["main", "p", "inline"] ∧ a.units.Nodup := by
  obtain ⟨a, hbuild, hunits⟩ : ∃ a, overtaking.buildText "require 'main'" "inline.rb" = .ok a
      ∧ a.units = ["main", "p", "inline"] := exists_ok_of_any (by decide +kernel)
  obtain ⟨w, hpre, hnew⟩ : ∃ w, overtaking.preload = .ok w ∧
      LogicalName.normalize "inline.rb" ∉ w.visited := exists_ok_of_any (by decide +kernel)
  obtain ⟨ahead, needs, hahead, -, -, -, hiff⟩ :=
    buildText_units overtaking "require 'main'" "inline.rb" a hbuild
  obtain rfl := Except.ok.inj (hpre.symm.trans hahead)
  exact ⟨a, hbuild, hunits, hiff.mpr fun hseen => hnew hseen.1⟩

/-- A text under the name of a unit that is loaded ahead is a second unit of that name. -/
theorem buildText_units_twice : ∃ a, overtaking.buildText "2" "./main.rb" = .ok a
    ∧ a.units = ["main", "p", "main"] ∧ ¬ a.units.Nodup := by
  obtain ⟨a, hbuild, hunits⟩ : ∃ a, overtaking.buildText "2" "./main.rb" = .ok a
      ∧ a.units = ["main", "p", "main"] := exists_ok_of_any (by decide +kernel)
  refine ⟨a, hbuild, hunits, ?_⟩
  rw [hunits]
  decide

end Builder

end RubyJs
