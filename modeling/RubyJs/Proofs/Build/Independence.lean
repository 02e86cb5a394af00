import Mathlib.Data.List.Sort
import RubyJs.Proofs.Build.Contents
import RubyJs.Proofs.Build.Lookup
import RubyJs.Proofs.Build.Simulation

set_option autoImplicit false

/-! # What a bundle depends on

A build looks at which files there are, and reads the texts of some of them. `Builder.Reads` says
which texts these are: those without which it does not succeed. Over a store with the same paths and
the same texts there, the build gives the same bundle; all other texts may be anything
(`Builder.build_eq_of_reads`).

The proof refuses the texts that are not read and lets a builder over the other store simulate what
is left. Two stores with the same paths may spell them in different ways, so files are compared by
their components.
-/

namespace RubyJs

variable {units : List Resolved} {p q : Path}

/-- That two paths are the same, however they are spelled. -/
abbrev Path.SameAs (p q : Path) : Prop := p.components = q.components

theorem Path.same_iff : p.same q = true ↔ p.SameAs q := beq_iff_eq

/-! ## Stores with the same paths -/

namespace MemoryStore

variable {s s' : MemoryStore}

/-- The paths of a store, whatever their spelling. -/
def keys (s : MemoryStore) : List (List Component) := s.files.map (·.1.components)

theorem get?_congr (h : p.SameAs q) : s.get? p = s.get? q := by
  have hsame : ∀ f : Path × String, f.1.same p = f.1.same q := fun f => by
    rw [Path.same, Path.same, h]
  rw [get?, get?, funext hsame]

/-- A text that is put under a path is found there, and no other text is lost. -/
theorem get?_insert (s : MemoryStore) (p q : Path) (text : String) :
    (s.insert p text).get? q = if p.same q then some text else s.get? q := by
  show ((insertFile p text s.files).find? _).map _ = if _ then _ else (s.files.find? _).map _
  induction s.files with
  | nil =>
      rw [insertFile, List.find?_cons]
      cases p.same q <;> rfl
  | cons f rest ih =>
      obtain ⟨r, t⟩ := f
      rw [insertFile]
      split
      · rw [List.find?_cons]
        cases p.same q <;> rfl
      · rename_i heq
        have hsame : p.same q = r.same q := by
          rw [Path.same, Path.same, Path.order_eq_iff.mp heq]
        rw [List.find?_cons, List.find?_cons, hsame]
        cases r.same q <;> rfl
      · rename_i hgt
        rw [List.find?_cons, List.find?_cons]
        cases hr : r.same q with
        | false => exact ih
        | true =>
            -- The file that stands before is not the one that is put in.
            have hne : p.same q = false := by
              refine Bool.eq_false_iff.mpr fun hp => ?_
              have heq : p.order r = .eq :=
                Path.order_eq_iff.mpr ((Path.same_iff.mp hp).trans (Path.same_iff.mp hr).symm)
              rw [heq] at hgt
              cases hgt
            rw [hne]
            rfl

/-- A text that replaces another one leaves the paths of a store as they are. -/
theorem isFile_insert (h : s.reader.isFile p = true) (text : String) (q : Path) :
    (s.insert p text).reader.isFile q = s.reader.isFile q := by
  show ((s.insert p text).get? q).isSome = (s.get? q).isSome
  rw [get?_insert]
  split
  · rename_i hsame
    rw [← get?_congr (Path.same_iff.mp hsame)]
    exact h.symm
  · rfl

theorem read_eq_ok_iff {text : String} : s.reader.read p = .ok text ↔ s.get? p = some text := by
  simp only [reader]
  cases s.get? p with
  | none => exact iff_of_false nofun nofun
  | some t => rw [Except.ok.injEq, Option.some.injEq]

theorem isFile_iff : s.reader.isFile p = true ↔ p.components ∈ s.keys := by
  constructor
  · intro h
    obtain ⟨f, hf, hsame⟩ := isFile_eq_true h
    exact List.mem_map.mpr ⟨f, hf, hsame⟩
  · intro h
    obtain ⟨f, hf, hsame⟩ := List.mem_map.mp h
    show (Option.map _ _).isSome = true
    rw [Option.isSome_map, List.find?_isSome]
    exact ⟨f, hf, Path.same_iff.mpr hsame⟩

theorem keys_sorted (s : MemoryStore) : s.keys.Pairwise (compare · · = .lt) :=
  List.pairwise_map.mpr s.sorted

/-- Stores with the same paths have them in the same order. -/
theorem keys_eq (h : ∀ p, s.reader.isFile p = s'.reader.isFile p) : s.keys = s'.keys := by
  have hmem : ∀ (s s' : MemoryStore), (∀ p, s.reader.isFile p = s'.reader.isFile p) →
      ∀ c ∈ s.keys, c ∈ s'.keys := by
    intro s s' h c hc
    obtain ⟨f, hf, rfl⟩ := List.mem_map.mp hc
    exact isFile_iff.mp ((h f.1) ▸ isFile_iff.mpr hc)
  have hanti : Std.Antisymm fun c d : List Component => compare c d = .lt :=
    ⟨fun c d hcd hdc => absurd hdc (Std.OrientedCmp.not_lt_of_lt hcd)⟩
  have hirrefl : Std.Irrefl fun c d : List Component => compare c d = .lt :=
    ⟨fun c hlt => Std.OrientedCmp.not_lt_of_lt hlt hlt⟩
  exact s.keys_sorted.eq_of_mem_iff s'.keys_sorted
    fun c => ⟨hmem s s' h c, hmem s' s (fun p => (h p).symm) c⟩

theorem below_components (s : MemoryStore) (dir : Path) : (s.below dir).map Path.components =
    s.keys.filter fun c => !(c == dir.components) && dir.components.isPrefixOf c := by
  rw [below, keys, List.map_map, List.filter_map]
  rfl

theorem isDir_congr (h : s.keys = s'.keys) (p : Path) : s.reader.isDir p = s'.reader.isDir p := by
  have hempty : ∀ s : MemoryStore, s.reader.isDir p = !((s.below p).map Path.components).isEmpty :=
    fun s => by rw [List.isEmpty_map]; rfl
  rw [hempty, hempty, below_components, below_components, h]

theorem size_congr (h : s.keys = s'.keys) : s.reader.size = s'.reader.size := by
  have hlength := congrArg List.length h
  rwa [keys, keys, List.length_map, List.length_map] at hlength

end MemoryStore

/-! ## Lookups -/

namespace Resolver

/-- A unit of a tree, whatever the spelling of its path. -/
def key (u : Resolved) : String × List Component × Processor :=
  (u.logical, u.path.components, u.processor)

theorem forall₂_alike_iff {units' : List Resolved} :
    List.Forall₂ (Resolved.Alike Path.SameAs) units units' ↔ units.map key = units'.map key := by
  rw [← List.forall₂_eq_eq_eq, List.forall₂_map_left_iff, List.forall₂_map_right_iff]
  have halike : ∀ u u', u.Alike Path.SameAs u' ↔ key u = key u' := by
    intro u u'
    constructor
    · intro h
      rw [key, key, h.logical, h.processor, h.path]
    · intro h
      obtain ⟨hlogical, h⟩ := Prod.mk.inj h
      obtain ⟨hpath, hprocessor⟩ := Prod.mk.inj h
      exact ⟨hlogical.symm, hprocessor.symm, hpath⟩
  exact ⟨fun h => h.imp fun u u' => (halike u u').mp, fun h => h.imp fun u u' => (halike u u').mpr⟩

theorem treeUnit?_congr (base : Path) (h : p.SameAs q) :
    (treeUnit? base p).map key = (treeUnit? base q).map key := by
  have hprocessor : p.processor? = q.processor? := by
    rw [Path.processor?, Path.processor?, Path.extension?, Path.extension?, Path.fileName?,
      Path.fileName?, h]
  have hbelow : p.below? base = q.below? base := by
    rw [Path.below?, Path.below?, Path.isWithin, Path.isWithin, h]
  rw [treeUnit?, treeUnit?, hprocessor, hbelow]
  split
  · rw [Option.map_some, Option.map_some, key, key, h]
  · rfl

theorem find?_logical_eq_none_iff {found : List Resolved} {n : String} :
    found.find? (·.logical == n) = none ↔ n ∉ (found.map key).map (·.1) := by
  rw [List.find?_eq_none, List.map_map, List.mem_map]
  simp [key]

/-- Files with the same components make the same units. -/
theorem addUnits_congr (base : Path) {files files' : List Path}
    (hfiles : files.map Path.components = files'.map Path.components) {found found' : List Resolved}
    (hfound : found.map key = found'.map key) (h : addUnits base found files = .ok units) :
    ∃ units', addUnits base found' files' = .ok units' ∧ units.map key = units'.map key := by
  induction files generalizing files' found found' with
  | nil =>
      obtain rfl := List.map_eq_nil_iff.mp hfiles.symm
      obtain rfl := Except.ok.inj h
      exact ⟨found', rfl, hfound⟩
  | cons p files ih =>
      obtain ⟨q, files', rfl, hq, hfiles⟩ := List.map_eq_cons_iff.mp hfiles.symm
      have hunit := treeUnit?_congr base hq.symm
      rw [addUnits] at h ⊢
      cases hp : treeUnit? base p with
      | none =>
          have hq : treeUnit? base q = none := by
            rw [hp] at hunit
            exact Option.map_eq_none_iff.mp hunit.symm
          simp only [hp] at h
          simp only [hq]
          exact ih hfiles.symm hfound h
      | some u =>
          rw [hp] at hunit
          obtain ⟨u', hq, hu'⟩ := Option.map_eq_some_iff.mp hunit.symm
          have hname : u'.logical = u.logical := congrArg Prod.fst hu'
          simp only [hp] at h
          simp only [hq, hname]
          split at h
          · exact absurd h (by simp)
          · rename_i hnone
            have hnone' : found'.find? (·.logical == u.logical) = none := by
              rw [find?_logical_eq_none_iff, ← hfound]
              exact find?_logical_eq_none_iff.mp hnone
            rw [hnone']
            refine ih hfiles.symm ?_ h
            rw [List.map_append, List.map_append, hfound, List.map_singleton, List.map_singleton,
              hu']

theorem sortUnits_congr {units' : List Resolved} (h : units.map key = units'.map key) :
    (sortUnits units).map key = (sortUnits units').map key := by
  have hsort : ∀ units : List Resolved, (sortUnits units).map key =
      (units.map key).mergeSort fun a b => compare a.2.1 b.2.1 != .gt :=
    fun units => List.map_mergeSort fun _ _ _ _ => rfl
  rw [hsort, hsort, h]

end Resolver

/-! ## Builds -/

namespace Builder

variable {s s' : MemoryStore} {options : BuildOptions} {paths : List Path} {entry : String}

/-- Whether a build reads the text at a path: it does not succeed without that text. -/
def Reads (b : Builder) (entry : String) (p : Path) : Prop :=
  ∀ a, (b.only fun q => !q.same p).build entry ≠ .ok a

/-- A builder over a store in memory. -/
abbrev ofStore (s : MemoryStore) (options : BuildOptions) (paths : List Path) : Builder :=
  ⟨s.reader, options, paths⟩

theorem resolve_congr (h : ∀ p, s.reader.isFile p = s'.reader.isFile p) (name requester : String) :
    (ofStore s options paths).resolver.resolve name requester =
      (ofStore s' options paths).resolver.resolve name requester := by
  unfold Resolver.resolve resolver
  simp only [h]
  rfl

theorem expandTree_congr (h : s.keys = s'.keys) {dir requester : String}
    (hunits : (ofStore s options paths).resolver.expandTree dir requester = .ok units) :
    ∃ units', (ofStore s' options paths).resolver.expandTree dir requester = .ok units' ∧
      List.Forall₂ (Resolved.Alike Path.SameAs) units units' := by
  simp only [Resolver.expandTree, resolver, MemoryStore.isDir_congr h] at hunits ⊢
  split at hunits
  · exact absurd hunits (by simp)
  · rename_i base hbase
    obtain ⟨files, hwalk, hunits⟩ := bind_eq_ok hunits
    obtain rfl := Except.ok.inj hwalk
    obtain ⟨found, hfound, hunits⟩ := bind_eq_ok hunits
    obtain rfl := Except.ok.inj hunits
    have hfiles : (s.below (base.join (LogicalName.fold dir))).map Path.components =
        (s'.below (base.join (LogicalName.fold dir))).map Path.components := by
      rw [MemoryStore.below_components, MemoryStore.below_components, h]
    obtain ⟨found', hfound', hkeys⟩ := Resolver.addUnits_congr base hfiles rfl hfound
    refine ⟨Resolver.sortUnits found', ?_, ?_⟩
    · show (Resolver.addUnits base [] (s'.below _) >>= _) = _
      rw [hfound']
      rfl
    · exact Resolver.forall₂_alike_iff.mpr (Resolver.sortUnits_congr hkeys)

/-- A builder over a store with the same paths does what one does with the texts in `S` only, if they
are the same there. -/
theorem simulates_only (hfiles : ∀ p, s.reader.isFile p = s'.reader.isFile p) {S : Path → Bool}
    (htexts : ∀ p, S p = true → s.get? p = s'.get? p) :
    Simulates Path.SameAs ((ofStore s options paths).only S) (ofStore s' options paths) where
  options := rfl
  depth := by
    show 4 * (paths.length + 1) * s.reader.size + 2 ≤ 4 * (paths.length + 1) * s'.reader.size + 2
    rw [MemoryStore.size_congr (MemoryStore.keys_eq hfiles)]
  resolve name requester f hf :=
    ⟨f, (resolve_congr hfiles name requester).symm.trans hf, rfl, rfl, rfl⟩
  expandTree dir requester units hunits :=
    expandTree_congr (MemoryStore.keys_eq hfiles) hunits
  read p p' text hp hread := by
    by_cases hS : S p = true
    · rw [read_only_of_mem hS] at hread
      refine MemoryStore.read_eq_ok_iff.mpr ?_
      rw [← MemoryStore.get?_congr hp, ← htexts p hS]
      exact MemoryStore.read_eq_ok_iff.mp hread
    · rw [read_only_of_notMem hS] at hread
      cases hread

/-- The texts that are read are those of the files of members. -/
theorem Contains.reads_iff {b : Builder} {entry : String} {a : Artifact} {ms : List Member}
    (h : b.Contains entry a ms) (p : Path) :
    b.Reads entry p ↔ ∃ m ∈ ms, ∃ f text, m.origin = .file f text ∧ f.path.SameAs p := by
  constructor
  · intro hreads
    by_contra hno
    refine hreads a (h.enough _ fun m hm => Member.allowed_iff.mpr fun f text hf => ?_)
    rw [Bool.not_eq_true']
    exact Bool.eq_false_iff.mpr fun hsame => hno ⟨m, hm, f, text, hf, Path.same_iff.mp hsame⟩
  · rintro ⟨m, hm, f, text, hf, hsame⟩ a' hbuild
    obtain ⟨e, he⟩ := h.needed (fun q => !q.same p) ⟨m, hm, fun hallowed => by
      have hnot := Member.allowed_iff.mp hallowed f text hf
      rw [Path.same_iff.mpr hsame] at hnot
      cases hnot⟩
    rw [hbuild] at he
    cases he

/-- **A bundle depends on the texts of the units it includes only.** Let two stores have the same
paths, and the same texts wherever a build over the first one reads. If that build succeeds, the one
over the second store gives the same bundle.

What is read are the files of those units of the bundle that are no stubs. None of these units but
the entry has a name that is stubbed or that the host has loaded, and their files are those which the
search finds for the entry, for a name that is loaded ahead or for a need of a unit of the bundle. -/
theorem build_eq_of_reads (s s' : MemoryStore) (options : BuildOptions) (paths : List Path)
    (entry : String) (a : Artifact) (hfiles : ∀ p, s.reader.isFile p = s'.reader.isFile p)
    (h : (ofStore s options paths).build entry = .ok a)
    (htexts : ∀ p, (ofStore s options paths).Reads entry p → s.get? p = s'.get? p) :
    (ofStore s' options paths).build entry = .ok a
      ∧ ∃ ms : List Member, ms.map (·.logical) = a.units
        ∧ (∀ p, (ofStore s options paths).Reads entry p ↔
          ∃ m ∈ ms, ∃ f text, m.origin = .file f text ∧ f.path.SameAs p)
        ∧ (∀ m ∈ ms, (ofStore s options paths).Supplies m)
        ∧ (ofStore s options paths).Asked ((ofStore s options paths).Given entry) ms := by
  obtain ⟨ms, hms⟩ := build_contains h
  refine ⟨?_, ms, hms.units, hms.reads_iff, hms.supplied, hms.asked⟩
  -- All that is read is left when everything else is refused.
  classical
  let S : Path → Bool := fun p => decide ((ofStore s options paths).Reads entry p)
  have hleft : ((ofStore s options paths).only S).build entry = .ok a := by
    refine hms.enough S fun m hm => Member.allowed_iff.mpr fun f text hf => ?_
    exact decide_eq_true ((hms.reads_iff f.path).mpr ⟨m, hm, f, text, hf, rfl⟩)
  exact (simulates_only hfiles fun p hp => htexts p (of_decide_eq_true hp)).build hleft

/-- A build that succeeds without a text does not read it, however its path is spelled. -/
theorem not_reads_of_build {b : Builder} {entry : String} {a : Artifact}
    (h : (b.only fun r => !r.same p).build entry = .ok a) (hpq : p.same q = true) :
    ¬ b.Reads entry q := by
  intro hreads
  refine hreads a ?_
  have hsame : (fun r : Path => !r.same q) = fun r => !r.same p := by
    funext r
    rw [Path.same, Path.same, Path.same_iff.mp hpq]
  rw [hsame]
  exact h

/-- A store with a file that is shadowed by another one, a file for a name that is stubbed, one for a
name that the host has loaded and one that nothing needs. -/
def covered : MemoryStore :=
  .ofFiles [(⟨"main.rb"⟩, "require 'a'\nrequire 's'\nrequire 'p'"), (⟨"a.rb"⟩, "1"),
    (⟨"a.js"⟩, "1"), (⟨"s.rb"⟩, "2"), (⟨"p.rb"⟩, "3"), (⟨"n.txt"⟩, "4")]

/-- The paths of these four files. -/
def unread : List Path := [⟨"a.js"⟩, ⟨"s.rb"⟩, ⟨"p.rb"⟩, ⟨"n.txt"⟩]

/-- The store with texts in the four files that cannot be compiled. -/
def spoiled : MemoryStore :=
  (((covered.insert ⟨"a.js"⟩ "(").insert ⟨"s.rb"⟩ "(").insert ⟨"p.rb"⟩ "(").insert ⟨"n.txt"⟩ "("

theorem build_eq_of_reads_covered : ∃ a,
    (ofStore covered { stubs := ["s"], prerequired := ["p"] } [⟨""⟩]).build "main" = .ok a
      ∧ a.units = ["a", "s", "main"]
      ∧ (ofStore spoiled { stubs := ["s"], prerequired := ["p"] } [⟨""⟩]).build "main" = .ok a := by
  obtain ⟨a, hbuild, hunits⟩ : ∃ a,
      (ofStore covered { stubs := ["s"], prerequired := ["p"] } [⟨""⟩]).build "main" = .ok a
        ∧ a.units = ["a", "s", "main"] := exists_ok_of_any (by decide +kernel)
  have hleft : ∀ p ∈ unread, ∃ a,
      ((ofStore covered { stubs := ["s"], prerequired := ["p"] } [⟨""⟩]).only fun q =>
        !q.same p).build "main" = .ok a ∧ a.units = ["a", "s", "main"] := by
    intro p hp
    simp only [unread, List.mem_cons, List.not_mem_nil, or_false] at hp
    rcases hp with rfl | rfl | rfl | rfl <;> exact exists_ok_of_any (by decide +kernel)
  have hfiles : ∀ p, covered.reader.isFile p = spoiled.reader.isFile p := by
    intro p
    rw [spoiled, MemoryStore.isFile_insert (by decide +kernel),
      MemoryStore.isFile_insert (by decide +kernel), MemoryStore.isFile_insert (by decide +kernel),
      MemoryStore.isFile_insert (by decide +kernel)]
  refine ⟨a, hbuild, hunits, ?_⟩
  refine (build_eq_of_reads covered spoiled _ _ "main" a hfiles hbuild fun p hreads => ?_).1
  have hne : ∀ q ∈ unread, ¬ q.same p = true := by
    intro q hq hsame
    obtain ⟨a', ha', -⟩ := hleft q hq
    exact not_reads_of_build ha' hsame hreads
  rw [spoiled, MemoryStore.get?_insert, if_neg (hne _ (by simp [unread])), MemoryStore.get?_insert,
    if_neg (hne _ (by simp [unread])), MemoryStore.get?_insert, if_neg (hne _ (by simp [unread])),
    MemoryStore.get?_insert, if_neg (hne _ (by simp [unread]))]

end Builder

end RubyJs
