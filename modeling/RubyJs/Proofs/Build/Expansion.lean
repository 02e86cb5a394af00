import RubyJs.Proofs.Build.Trees

set_option autoImplicit false

/-! # The units of a whole tree

The files of a tree are those below its directory that end in `.rb` or `.js`. Each has a name, and
the tree has its units if no two files have one name (`Resolver.expandTree_exact`): all of them, in
the order of their paths. Else two files with one name are blamed.

    lib/t/a.rb, lib/t/sub/b.js     the units t/a and t/sub/b of the tree t
    lib/t/a.rb, lib/t/a.js         two files for t/a
    lib/t/.rb                      a file without an extension, no part of the tree
-/

namespace RubyJs

open LogicalName

/-! ## Files -/

namespace Path

/-- That `p` stands below a directory. -/
def StrictlyBelow (p dir : Path) : Prop :=
  ∃ rest, rest ≠ [] ∧ p.components = dir.components ++ rest

/-- That the last name of `p` is some name with the extension for a processor behind it. -/
def EndsFor (p : Path) (processor : Processor) : Prop :=
  ∃ front stem, stem ≠ "" ∧ p.components = front ++ [.normal (stem ++ ("." ++ processor.extension))]

theorem processor?_eq_some_iff {p : Path} {processor : Processor} :
    p.processor? = some processor ↔ p.EndsFor processor := by
  constructor
  · exact processor?_eq_some
  · rintro ⟨front, stem, hstem, h⟩
    exact processor?_of_components hstem h

/-- The logical name of a file, seen from `base`. -/
def treeName (base p : Path) : String :=
  normalize (joinNames (p.components.drop base.components.length))

end Path

namespace MemoryStore

/-- That `p` is a file below `root` that is compiled or copied. -/
structure TreeFile (s : MemoryStore) (root p : Path) : Prop where
  stored : ∃ text, (p, text) ∈ s.files
  below : p.StrictlyBelow root
  ends : ∃ processor, p.EndsFor processor

theorem mem_below_iff {s : MemoryStore} {root p : Path} :
    p ∈ s.below root ↔ (∃ text, (p, text) ∈ s.files) ∧ p.StrictlyBelow root := by
  have hstrict : (!p.same root && p.isWithin root) = true ↔ p.StrictlyBelow root := by
    rw [Bool.and_eq_true, Bool.not_eq_true', Bool.eq_false_iff, Ne, Path.same_iff, Path.isWithin,
      List.isPrefixOf_iff_prefix]
    constructor
    · rintro ⟨hne, rest, heq⟩
      refine ⟨rest, ?_, heq.symm⟩
      rintro rfl
      rw [List.append_nil] at heq
      exact hne heq.symm
    · rintro ⟨rest, hrest, heq⟩
      refine ⟨fun hsame => hrest ?_, rest, heq.symm⟩
      rw [hsame] at heq
      simpa using heq
  rw [below, List.mem_map]
  constructor
  · rintro ⟨⟨q, text⟩, hmem, rfl⟩
    obtain ⟨hfile, hbelow⟩ := List.mem_filter.mp hmem
    exact ⟨⟨text, hfile⟩, hstrict.mp hbelow⟩
  · rintro ⟨⟨text, hfile⟩, hbelow⟩
    exact ⟨(p, text), List.mem_filter.mpr ⟨hfile, hstrict.mpr hbelow⟩, rfl⟩

/-- The files below a directory are in the order of their paths. -/
theorem below_pairwise (s : MemoryStore) (root : Path) :
    (s.below root).Pairwise fun p q => p.order q = .lt :=
  List.pairwise_map.mpr (s.sorted.filter _)

end MemoryStore

/-! ## Units -/

namespace Resolver

/-- A file below `base` is one unit if it has a known extension. -/
theorem treeUnit?_eq_some_iff {base p : Path} {u : Resolved} (h : p.isWithin base = true) :
    treeUnit? base p = some u ↔
      u.path = p ∧ p.EndsFor u.processor ∧ u.logical = base.treeName p := by
  have hbelow : p.below? base = some (p.components.drop base.components.length) := if_pos h
  rw [← Path.processor?_eq_some_iff, treeUnit?, hbelow]
  cases hprocessor : p.processor? with
  | none => simp
  | some processor =>
      obtain ⟨logical, path, processor'⟩ := u
      simp only [Option.some.injEq, Resolved.mk.injEq, Path.treeName]
      constructor
      · rintro ⟨hlogical, hpath, hprocessor⟩
        exact ⟨hpath.symm, hprocessor, hlogical.symm⟩
      · rintro ⟨hpath, hprocessor, hlogical⟩
        exact ⟨hlogical.symm, hpath.symm, hprocessor⟩

/-- The units of the files of a tree, whether two of them have one name or not. -/
def treeUnits (s : MemoryStore) (base root : Path) : List Resolved :=
  (s.below root).filterMap (treeUnit? base)

section Units

variable {s : MemoryStore} {base root : Path}

theorem mem_treeUnits_iff (hroot : base.components <+: root.components) {u : Resolved} :
    u ∈ treeUnits s base root ↔
      s.TreeFile root u.path ∧ u.path.EndsFor u.processor ∧ u.logical = base.treeName u.path := by
  have hwithin : ∀ p : Path, p.StrictlyBelow root → p.isWithin base = true := by
    rintro p ⟨rest, -, hp⟩
    exact List.isPrefixOf_iff_prefix.mpr (hp ▸ hroot.trans (List.prefix_append _ _))
  rw [treeUnits, List.mem_filterMap]
  constructor
  · rintro ⟨p, hp, hunit⟩
    obtain ⟨hstored, hbelow⟩ := MemoryStore.mem_below_iff.mp hp
    obtain ⟨rfl, hends, hlogical⟩ := (treeUnit?_eq_some_iff (hwithin p hbelow)).mp hunit
    exact ⟨⟨hstored, hbelow, _, hends⟩, hends, hlogical⟩
  · rintro ⟨hfile, hends, hlogical⟩
    refine ⟨u.path, MemoryStore.mem_below_iff.mpr ⟨hfile.stored, hfile.below⟩, ?_⟩
    exact (treeUnit?_eq_some_iff (hwithin _ hfile.below)).mpr ⟨rfl, hends, hlogical⟩

theorem treeUnits_pairwise (s : MemoryStore) (base root : Path) :
    (treeUnits s base root).Pairwise fun u v => u.path.order v.path = .lt := by
  refine List.pairwise_filterMap.mpr ((s.below_pairwise root).imp ?_)
  intro p q hlt u hu v hv
  rw [(treeUnit?_path hu).2, (treeUnit?_path hv).2]
  exact hlt

end Units

/-- Files are added one by one until one has the name of a file before it. -/
theorem addUnits_cases (base : Path) (files : List Path) {found : List Resolved}
    (hfound : (found.map (·.logical)).Nodup) :
    (addUnits base found files = .ok (found ++ files.filterMap (treeUnit? base))
      ∧ ((found ++ files.filterMap (treeUnit? base)).map (·.logical)).Nodup)
    ∨ ∃ u v, [u, v].Sublist (found ++ files.filterMap (treeUnit? base)) ∧ u.logical = v.logical
      ∧ addUnits base found files = .error (.ambiguous v.logical u.path v.path) := by
  induction files generalizing found with
  | nil =>
      left
      rw [List.filterMap_nil, List.append_nil]
      exact ⟨rfl, hfound⟩
  | cons p files ih =>
      cases hunit : treeUnit? base p with
      | none =>
          rw [List.filterMap_cons_none hunit, addUnits, hunit]
          exact ih hfound
      | some v =>
          rw [List.filterMap_cons_some hunit, addUnits, hunit]
          dsimp only
          cases hfind : found.find? (·.logical == v.logical) with
          | some u =>
              right
              have hname : u.logical = v.logical := by simpa using List.find?_some hfind
              refine ⟨u, v, ?_, hname, by rw [(treeUnit?_path hunit).2]⟩
              have hu : [u].Sublist found :=
                List.singleton_sublist.mpr (List.mem_of_find?_eq_some hfind)
              have hv : [v].Sublist (v :: files.filterMap (treeUnit? base)) :=
                List.singleton_sublist.mpr List.mem_cons_self
              exact hu.append hv
          | none =>
              have hfresh : ((found ++ [v]).map (·.logical)).Nodup := by
                rw [List.map_append, List.map_singleton, List.nodup_append]
                refine ⟨hfound, List.nodup_singleton _, ?_⟩
                intro n hn m hm heq
                obtain ⟨u, hu, rfl⟩ := List.mem_map.mp hn
                have hdiff := List.find?_eq_none.mp hfind u hu
                exact hdiff (beq_iff_eq.mpr (heq.trans (List.mem_singleton.mp hm)))
              have hrest := ih hfresh
              rw [List.append_assoc, List.singleton_append] at hrest
              exact hrest

/-- Units that are in the order of their paths stay as they are. -/
theorem sortUnits_of_pairwise {units : List Resolved}
    (h : units.Pairwise fun u v => u.path.order v.path = .lt) : sortUnits units = units := by
  refine List.mergeSort_of_pairwise (h.imp ?_)
  intro u v hlt
  rw [hlt]
  rfl

/-- That no two files of a tree have one name. -/
def NamesApart (s : MemoryStore) (base root : Path) : Prop :=
  ∀ p q, s.TreeFile root p → s.TreeFile root q → base.treeName p = base.treeName q → p = q

section Units

variable {s : MemoryStore} {base root : Path}

/-- Names that occur once each belong to one file each. -/
theorem namesApart_of_nodup (hroot : base.components <+: root.components)
    (h : ((treeUnits s base root).map (·.logical)).Nodup) : NamesApart s base root := by
  have hunit : ∀ p, s.TreeFile root p →
      ∃ u ∈ treeUnits s base root, u.path = p ∧ u.logical = base.treeName p := by
    intro p hp
    obtain ⟨processor, hends⟩ := hp.ends
    obtain ⟨u, hpath, hprocessor, hlogical⟩ : ∃ u : Resolved,
        u.path = p ∧ u.processor = processor ∧ u.logical = base.treeName p :=
      ⟨⟨_, _, _⟩, rfl, rfl, rfl⟩
    refine ⟨u, (mem_treeUnits_iff hroot).mpr ?_, hpath, hlogical⟩
    rw [hpath, hprocessor]
    exact ⟨hp, hends, hlogical⟩
  intro p q hp hq hname
  obtain ⟨u, hu, rfl, hulogical⟩ := hunit p hp
  obtain ⟨v, hv, rfl, hvlogical⟩ := hunit q hq
  have heq : u.logical = v.logical := by rw [hulogical, hvlogical, hname]
  exact congrArg Resolved.path (List.inj_on_of_nodup_map h hu hv heq)

/-- What becomes of the files of a tree: all are units, or two with one name are blamed. -/
theorem addUnits_below (hroot : base.components <+: root.components) :
    (addUnits base [] (s.below root) = .ok (treeUnits s base root)
      ∧ ((treeUnits s base root).map (·.logical)).Nodup)
    ∨ ∃ p q, s.TreeFile root p ∧ s.TreeFile root q ∧ p.order q = .lt
      ∧ base.treeName p = base.treeName q
      ∧ addUnits base [] (s.below root) = .error (.ambiguous (base.treeName p) p q) := by
  have hnone : (([] : List Resolved).map (·.logical)).Nodup := List.nodup_nil
  rcases addUnits_cases base (s.below root) hnone with hok | ⟨u, v, hsub, hname, herror⟩
  · exact .inl hok
  · right
    have hlt := (treeUnits_pairwise s base root).sublist hsub
    obtain ⟨hu, -, hu'⟩ := (mem_treeUnits_iff hroot).mp (hsub.subset List.mem_cons_self)
    obtain ⟨hv, -, hv'⟩ := (mem_treeUnits_iff hroot).mp
      (hsub.subset (List.mem_cons_of_mem _ List.mem_cons_self))
    refine ⟨u.path, v.path, hu, hv, List.rel_of_pairwise_cons hlt List.mem_cons_self, ?_, ?_⟩
    · rw [← hu', ← hv', hname]
    · rw [herror, ← hname, hu']

end Units

/-- **A tree is expanded to all of its files, each once and in the order of their paths**, if no two
of them have one name; else two that do are blamed. A directory that no search path has is
unresolved. -/
theorem expandTree_exact (s : MemoryStore) (paths : List Path) (processor : Processor)
    (dir requester : String) (hdir : isAbsolute dir = false) :
    (∀ before base after, paths = before ++ base :: after →
      (∀ b ∈ before, s.reader.isDir (b.join (fold dir)) = false) →
      s.reader.isDir (base.join (fold dir)) = true →
      ((∃ units, expandTree ⟨s.reader, paths, processor⟩ dir requester = .ok units) ↔
        NamesApart s base (base.join (fold dir)))
      ∧ (∀ units, expandTree ⟨s.reader, paths, processor⟩ dir requester = .ok units →
        (∀ u, u ∈ units ↔ s.TreeFile (base.join (fold dir)) u.path
          ∧ u.path.EndsFor u.processor ∧ u.logical = base.treeName u.path)
        ∧ (units.Pairwise fun u v => u.path.order v.path = .lt)
        ∧ (units.map (·.logical)).Nodup)
      ∧ (¬ NamesApart s base (base.join (fold dir)) →
        ∃ p q, s.TreeFile (base.join (fold dir)) p ∧ s.TreeFile (base.join (fold dir)) q
          ∧ p.order q = .lt ∧ base.treeName p = base.treeName q
          ∧ expandTree ⟨s.reader, paths, processor⟩ dir requester =
            .error (.ambiguous (base.treeName p) p q)))
    ∧ ((∀ base ∈ paths, s.reader.isDir (base.join (fold dir)) = false) →
      expandTree ⟨s.reader, paths, processor⟩ dir requester =
        .error (.unresolved (fold dir) requester)) := by
  constructor
  · rintro before base after hpaths hbefore hbase
    -- The directory is reached from the search path, so every file below it is seen from there.
    have hroot : base.components <+: (base.join (fold dir)).components := by
      rw [fold, hdir, Path.components_join (canonical_foldSegments dir)]
      exact List.prefix_append _ _
    have hfind : paths.find? (fun b => s.reader.isDir (b.join (fold dir))) = some base :=
      List.find?_eq_some_iff_append.mpr ⟨hbase, before, after, hpaths, fun b hb => by
        rw [hbefore b hb]
        rfl⟩
    have heq : expandTree ⟨s.reader, paths, processor⟩ dir requester =
        addUnits base [] (s.below (base.join (fold dir))) >>=
          fun units => pure (sortUnits units) := by
      rw [expandTree]
      dsimp only
      rw [hfind]
      rfl
    rw [heq]
    generalize base.join (fold dir) = root at hroot
    rcases addUnits_below hroot with ⟨hok, hnodup⟩ | ⟨p, q, hp, hq, hlt, hname, herror⟩
    · have hapart := namesApart_of_nodup hroot hnodup
      have hall : addUnits base [] (s.below root) >>= (fun units => pure (sortUnits units)) =
          .ok (treeUnits s base root) := by
        rw [hok]
        exact congrArg Except.ok (sortUnits_of_pairwise (treeUnits_pairwise s base root))
      rw [hall]
      refine ⟨iff_of_true ⟨_, rfl⟩ hapart, ?_, fun hnot => absurd hapart hnot⟩
      intro units hunits
      obtain rfl := Except.ok.inj hunits
      exact ⟨fun u => mem_treeUnits_iff hroot, treeUnits_pairwise s base root, hnodup⟩
    · have hnot : ¬ NamesApart s base root := by
        intro hapart
        rw [hapart p q hp hq hname] at hlt
        exact absurd hlt (by rw [Path.order_eq_iff.mpr rfl]; decide)
      have hblamed : addUnits base [] (s.below root) >>= (fun units => pure (sortUnits units)) =
          .error (.ambiguous (base.treeName p) p q) := by
        rw [herror]
        rfl
      rw [hblamed]
      refine ⟨iff_of_false ?_ hnot, ?_, fun _ => ⟨p, q, hp, hq, hlt, hname, rfl⟩⟩
      · rintro ⟨units, h⟩
        cases h
      · intro units h
        cases h
  · intro hnone
    have hfind : paths.find? (fun b => s.reader.isDir (b.join (fold dir))) = none :=
      List.find?_eq_none.mpr fun b hb => by simp [hnone b hb]
    rw [expandTree]
    dsimp only
    rw [hfind]

/-- A tree in the second search path, with a file that has no extension. -/
def orchard : MemoryStore := MemoryStore.ofFiles
  [(⟨"vendor/t.rb"⟩, ""), (⟨"lib/t/b.rb"⟩, ""), (⟨"lib/t/a/c.js"⟩, ""), (⟨"lib/t/.rb"⟩, "")]

/-- The tree has its two files; a third one with the name of one of them is blamed together with
that. -/
theorem expandTree_exact_orchard :
    (∃ units, expandTree ⟨orchard.reader, [⟨"vendor"⟩, ⟨"lib"⟩], .ruby⟩ "t" "main" = .ok units
      ∧ (∃ u ∈ units, u.path = ⟨"lib/t/a/c.js"⟩)
      ∧ units.Pairwise fun u v => u.path.order v.path = .lt)
    ∧ (∃ p q, expandTree ⟨(orchard.insert ⟨"lib/t/b.js"⟩ "").reader, [⟨"vendor"⟩, ⟨"lib"⟩], .ruby⟩
        "t" "main" = .error (.ambiguous ((⟨"lib"⟩ : Path).treeName p) p q))
    ∧ expandTree ⟨orchard.reader, [⟨"vendor"⟩], .ruby⟩ "t" "main" =
      .error (.unresolved (fold "t") "main") := by
  have hvendor : ∀ b ∈ [(⟨"vendor"⟩ : Path)],
      orchard.reader.isDir (b.join (fold "t")) = false := by decide +kernel
  refine ⟨?_, ?_, ?_⟩
  · obtain ⟨found, hfound, -⟩ : ∃ found, addUnits ⟨"lib"⟩ [] (orchard.below ⟨"lib/t"⟩) = .ok found
        ∧ found.length = 2 := exists_ok_of_any (by decide +kernel)
    have hbase : treeBase? ⟨orchard.reader, [⟨"vendor"⟩, ⟨"lib"⟩], .ruby⟩ "t" = some ⟨"lib"⟩ := by
      decide +kernel
    have hok := expandTree_of_addUnits hbase rfl hfound "main"
    obtain ⟨-, hunits, -⟩ := (expandTree_exact orchard [⟨"vendor"⟩, ⟨"lib"⟩] .ruby "t" "main"
      (by decide +kernel)).1 [⟨"vendor"⟩] ⟨"lib"⟩ [] rfl hvendor (by decide +kernel)
    obtain ⟨hmem, hsorted, -⟩ := hunits _ hok
    have hends : (⟨"lib/t/a/c.js"⟩ : Path).EndsFor .javascript :=
      ⟨[.normal "lib", .normal "t", .normal "a"], "c", by decide, by decide +kernel⟩
    have hbelow : (⟨"lib/t/a/c.js"⟩ : Path).StrictlyBelow ((⟨"lib"⟩ : Path).join (fold "t")) :=
      ⟨[.normal "a", .normal "c.js"], by decide, by decide +kernel⟩
    exact ⟨_, hok, ⟨⟨"t/a/c", ⟨"lib/t/a/c.js"⟩, .javascript⟩, (hmem _).mpr
      ⟨⟨⟨"", by decide +kernel⟩, hbelow, _, hends⟩, hends, by decide +kernel⟩, rfl⟩, hsorted⟩
  · have hfile : ∀ processor : Processor, (orchard.insert ⟨"lib/t/b.js"⟩ "").TreeFile
        ((⟨"lib"⟩ : Path).join (fold "t")) ⟨"lib/t/b." ++ processor.extension⟩ := by
      intro processor
      cases processor with
      | ruby => exact ⟨⟨"", by decide +kernel⟩,
          ⟨[.normal "b.rb"], by decide, by decide +kernel⟩,
          .ruby, [.normal "lib", .normal "t"], "b", by decide, by decide +kernel⟩
      | javascript => exact ⟨⟨"", by decide +kernel⟩,
          ⟨[.normal "b.js"], by decide, by decide +kernel⟩,
          .javascript, [.normal "lib", .normal "t"], "b", by decide, by decide +kernel⟩
    obtain ⟨-, -, hblamed⟩ := (expandTree_exact (orchard.insert ⟨"lib/t/b.js"⟩ "")
      [⟨"vendor"⟩, ⟨"lib"⟩] .ruby "t" "main" (by decide +kernel)).1 [⟨"vendor"⟩] ⟨"lib"⟩ [] rfl
      (by decide +kernel) (by decide +kernel)
    obtain ⟨p, q, -, -, -, -, herror⟩ := hblamed fun hapart =>
      absurd (hapart _ _ (hfile .ruby) (hfile .javascript) (by decide +kernel)) (by decide +kernel)
    exact ⟨p, q, herror⟩
  · exact (expandTree_exact orchard [⟨"vendor"⟩] .ruby "t" "main" (by decide +kernel)).2 hvendor

end Resolver

end RubyJs
