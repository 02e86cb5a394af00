import RubyJs.Proofs.Build.Independence
import RubyJs.Proofs.Build.Literals

set_option autoImplicit false

/-! # Members of a tree

A tree names each of its files by the path to it from the search path, without the extension. Looked
up, this name leads back to the file: no directory that is searched before has a file for it, since
it would have the tree too, and a second file with another extension is refused with the tree. What
can stand in the way is a file of that very name without an extension, which a lookup prefers
(`Resolver.resolve_tree_member`).

    lib/t/a.rb              the name t/a, found again
    lib/t/a.rb, lib/t/a     the name t/a, which means lib/t/a
-/

namespace RubyJs

open LogicalName

variable {processor : Processor} {units found : List Resolved} {name : String}

/-! ## Names without their extensions -/

theorem LogicalName.ofSegments_append_last (front : List String) (last ext : String) :
    ofSegments false (front ++ [last]) ++ ext = ofSegments false (front ++ [last ++ ext]) := by
  simp only [ofSegments, Bool.false_eq_true, if_false, String.empty_append, intercalate_append_last]

/-- An extension can be put after canonical segments. -/
theorem LogicalName.Canonical.extend {front : List String} {stem : String}
    (h : Canonical (front ++ [stem])) (p : Processor) :
    Canonical (front ++ [stem ++ ("." ++ p.extension)]) := by
  obtain ⟨hfront, hstep, -⟩ := h.left
  have hslash : '/' ∉ (stem ++ ("." ++ p.extension)).toList := by
    cases p <;> simpa [Processor.extension] using hstep.2.2
  have hlast : ∀ c, (stem ++ ("." ++ p.extension)).toList.getLast? = some c → c ≠ '.' := by
    cases p <;> simp [Processor.extension]
  refine hfront.append ⟨?_, ?_, hslash⟩ ?_
  · intro hempty
    cases p <;> simp [Processor.extension] at hempty
  · intro hdot
    exact hlast '.' (by rw [hdot]; rfl) rfl
  · intro hup
    exact absurd rfl (hlast '.' (by rw [hup]; rfl))

/-- The segments of a folded name are canonical. -/
theorem LogicalName.canonical_of_fold {segs : List String} (hne : segs ≠ [])
    (hsegs : ∀ s ∈ segs, s ≠ "" ∧ '/' ∉ s.toList)
    (h : fold (ofSegments false segs) = ofSegments false segs) : Canonical segs := by
  have hsegments : segments (ofSegments false segs) = segs := by
    rw [ofSegments, if_neg Bool.false_ne_true, String.empty_append]
    exact segments_intercalate hne fun s hs => (hsegs s hs).2
  obtain ⟨canon, hcanon, hname⟩ := exists_canonical h
  have hvoid : "" ∉ segs := fun hmem => (hsegs _ hmem).1 rfl
  have hboth := congrArg segments hname
  rw [hsegments, segments_ofSegments hcanon.1] at hboth
  cases habs : isAbsolute (ofSegments false segs) with
  | true =>
      rw [habs] at hboth
      exact absurd (hboth ▸ List.mem_cons_self) hvoid
  | false =>
      rw [habs, if_neg Bool.false_ne_true, List.nil_append] at hboth
      split at hboth
      · exact absurd (hboth ▸ List.mem_singleton_self _) hvoid
      · exact hboth ▸ hcanon

/-! ## Names on a path -/

namespace Path

/-- That `p` is reached from `base` by names alone, without `..`. -/
def PlainlyBelow (p base : Path) : Prop :=
  ∃ names : List String, p.components = base.components ++ names.map .normal

theorem isStep_of_componentOf? {s : String} (hs : '/' ∉ s.toList)
    (h : componentOf? s = some (.normal name)) : IsStep name ∧ name ≠ ".." := by
  unfold componentOf? at h
  split at h
  · cases h
  · rename_i hvoid
    split at h
    · cases h
    · rename_i hup
      obtain rfl : s = name := by simpa using h
      have hne : s ≠ "" ∧ s ≠ "." := by simpa using hvoid
      exact ⟨⟨hne.1, hne.2, hs⟩, by simpa using hup⟩

theorem isStep_of_mem_components {p : Path} (h : .normal name ∈ p.components) :
    IsStep name ∧ name ≠ ".." := by
  have hmem : ∃ s ∈ segments p.text, componentOf? s = some (.normal name) := by
    unfold components at h
    split at h
    · cases h
    · rename_i first rest hsegments
      rw [hsegments]
      rcases List.mem_append.mp h with hfront | hrest
      · refine ⟨first, List.mem_cons_self, ?_⟩
        split at hfront
        · simp at hfront
        · split at hfront
          · simp at hfront
          · exact Option.mem_toList.mp hfront
      · obtain ⟨s, hs, hname⟩ := List.mem_filterMap.mp hrest
        exact ⟨s, List.mem_cons_of_mem _ hs, hname⟩
  obtain ⟨s, hs, hname⟩ := hmem
  exact isStep_of_componentOf? (notMem_of_mem_segments hs) hname

theorem componentOf?_of_isStep {s : String} (h : IsStep s) (hup : s ≠ "..") :
    componentOf? s = some (.normal s) := by
  unfold componentOf?
  rw [if_neg (by simpa using ⟨h.1, h.2.1⟩), if_neg (by simpa using hup)]

theorem filterMap_componentOf? {names : List String} (h : ∀ s ∈ names, IsStep s ∧ s ≠ "..") :
    names.filterMap componentOf? = names.map .normal := by
  rw [← List.filterMap_eq_map]
  exact List.filterMap_congr fun s hs => componentOf?_of_isStep (h s hs).1 (h s hs).2

theorem joinNames_map_normal (names : List String) :
    joinNames (names.map .normal) = ofSegments false names := by
  rw [joinNames, List.filterMap_map, ofSegments, if_neg Bool.false_ne_true, String.empty_append]
  exact congrArg _ (List.filterMap_some)

/-! ## Extensions -/

theorem extensionOf?_eq_some {ext : String} (h : extensionOf? name = some ext) :
    ∃ stem, stem ≠ "" ∧ name = stem ++ ("." ++ ext) := by
  simp only [extensionOf?] at h
  split at h
  · cases h
  · rename_i hlong
    obtain rfl := Option.some.inj h
    have hsplit := List.takeWhile_append_dropWhile (p := (· != '.')) (l := name.toList.reverse)
    cases hdrop : name.toList.reverse.dropWhile (· != '.') with
    | nil =>
        rw [hdrop, List.append_nil] at hsplit
        rw [hsplit, List.reverse_reverse] at hlong
        omega
    | cons dot before =>
        have hdot : dot = '.' := by
          have := List.head_dropWhile_not (· != '.') (l := name.toList.reverse) (by simp [hdrop])
          simpa [hdrop] using this
        subst hdot
        rw [hdrop] at hsplit
        have hname := congrArg List.reverse hsplit
        rw [List.reverse_append, List.reverse_cons, List.reverse_reverse] at hname
        refine ⟨String.ofList before.reverse, ?_, ?_⟩
        · rintro hempty
          have hnil : before.reverse = [] := by simpa using congrArg String.toList hempty
          have hlength := congrArg List.length hname
          rw [hnil] at hlength
          simp only [List.nil_append, List.length_append, List.length_cons, List.length_nil]
            at hlength
          omega
        · rw [← String.toList_inj]
          refine hname.symm.trans ?_
          simp

/-- A path with a known extension ends in a name with that extension. -/
theorem processor?_eq_some {p : Path} (h : p.processor? = some processor) :
    ∃ front stem, stem ≠ "" ∧
      p.components = front ++ [.normal (stem ++ ("." ++ processor.extension))] := by
  obtain ⟨ext, hext, hprocessor⟩ := Option.bind_eq_some_iff.mp h
  obtain ⟨name, hname, hname'⟩ := Option.bind_eq_some_iff.mp hext
  obtain ⟨stem, hstem, rfl⟩ := extensionOf?_eq_some hname'
  have hextension : ext = processor.extension := by
    unfold Processor.ofExtension? at hprocessor
    split at hprocessor
    · rename_i hrb
      rw [← Option.some.inj hprocessor, beq_iff_eq.mp hrb]
      rfl
    · split at hprocessor
      · rename_i hjs
        rw [← Option.some.inj hprocessor, beq_iff_eq.mp hjs]
        rfl
      · cases hprocessor
  unfold fileName? at hname
  split at hname
  · rename_i last hlast
    obtain ⟨front, hfront⟩ := List.getLast?_eq_some_iff.mp hlast
    exact ⟨front, stem, hstem, by rw [hfront, Option.some.inj hname, hextension]⟩
  · cases hname

theorem processor?_of_components {p : Path} {front : List Component} {stem : String}
    (hstem : stem ≠ "")
    (h : p.components = front ++ [.normal (stem ++ ("." ++ processor.extension))]) :
    p.processor? = some processor := by
  have hname : p.fileName? = some (stem ++ ("." ++ processor.extension)) := by
    rw [fileName?, h, List.getLast?_concat]
  have hext : extensionOf? (stem ++ ("." ++ processor.extension)) = some processor.extension := by
    have hlong : stem.toList.length ≠ 0 := by simpa using hstem
    cases processor <;> simp [extensionOf?, Processor.extension] <;> omega
  rw [processor?, extension?, hname, Option.bind_some, hext, Option.bind_some]
  cases processor <;> rfl

end Path

/-! ## Files below a directory -/

namespace MemoryStore

variable {s : MemoryStore} {dir p : Path}

theorem mem_below_components {c : List Component} : c ∈ (s.below dir).map Path.components ↔
    c ∈ s.keys ∧ ∃ rest, rest ≠ [] ∧ c = dir.components ++ rest := by
  rw [below_components, List.mem_filter, Bool.and_eq_true, List.isPrefixOf_iff_prefix]
  refine and_congr_right fun _ => ?_
  constructor
  · rintro ⟨hne, rest, rfl⟩
    exact ⟨rest, fun hnil => by simp [hnil] at hne, rfl⟩
  · rintro ⟨rest, hrest, rfl⟩
    exact ⟨by simpa using hrest, rest, rfl⟩

theorem isDir_iff : s.reader.isDir dir = true ↔
    ∃ c ∈ s.keys, ∃ rest, rest ≠ [] ∧ c = dir.components ++ rest := by
  have hdir : s.reader.isDir dir = !((s.below dir).map Path.components).isEmpty := by
    rw [List.isEmpty_map]
    rfl
  rw [hdir, Bool.not_eq_true', List.isEmpty_eq_false_iff_exists_mem]
  exact exists_congr fun c => mem_below_components

end MemoryStore

/-! ## The units of a tree -/

namespace Resolver

variable {base path : Path} {files : List Path} {r : Resolver}

/-- The search path that has a directory. -/
def treeBase? (r : Resolver) (dir : String) : Option Path :=
  r.paths.find? fun base => r.reader.isDir (base.join (fold dir))

theorem addUnits_eq_ok (h : addUnits base found files = .ok units) :
    units = found ++ files.filterMap (treeUnit? base) := by
  induction files generalizing found with
  | nil => rw [← Except.ok.inj h, List.filterMap_nil, List.append_nil]
  | cons path files ih =>
      rw [addUnits] at h
      split at h
      · rename_i hnone
        rw [List.filterMap_cons_none hnone]
        exact ih h
      · rename_i u hsome
        split at h
        · cases h
        · rw [List.filterMap_cons_some hsome, ih h, List.append_assoc]
          rfl

/-- No two units of a tree have one name. -/
theorem nodup_addUnits (h : addUnits base found files = .ok units)
    (hfound : (found.map (·.logical)).Nodup) : (units.map (·.logical)).Nodup := by
  induction files generalizing found with
  | nil => exact Except.ok.inj h ▸ hfound
  | cons path files ih =>
      rw [addUnits] at h
      split at h
      · exact ih h hfound
      · rename_i u _
        split at h
        · cases h
        · rename_i hfresh
          refine ih h ?_
          rw [List.map_append]
          refine List.nodup_append.mpr ⟨hfound, List.nodup_singleton _, ?_⟩
          intro n hn m hm heq
          obtain ⟨v, hv, rfl⟩ := List.mem_map.mp hn
          have hdiff := List.find?_eq_none.mp hfresh v hv
          exact hdiff (beq_iff_eq.mpr (heq.trans (List.mem_singleton.mp hm)))

theorem expandTree_units {dir requester : String} (h : r.expandTree dir requester = .ok units) :
    ∃ base, r.treeBase? dir = some base
      ∧ (∃ files, r.reader.walk (base.join (fold dir)) = .ok files
        ∧ ∀ u, u ∈ units ↔ ∃ path ∈ files, treeUnit? base path = some u)
      ∧ (units.map (·.logical)).Nodup := by
  simp only [expandTree] at h
  split at h
  · cases h
  · rename_i base hbase
    obtain ⟨files, hfiles, h⟩ := bind_eq_ok h
    obtain ⟨found, hfound, h⟩ := bind_eq_ok h
    have hperm : units.Perm found := by
      rw [← Except.ok.inj h]
      exact List.mergeSort_perm _ _
    refine ⟨base, hbase, ⟨files, hfiles, fun u => ?_⟩, ?_⟩
    · rw [hperm.mem_iff, addUnits_eq_ok hfound, List.nil_append, List.mem_filterMap]
    · exact (hperm.map _).nodup_iff.mpr (nodup_addUnits hfound List.nodup_nil)

theorem expandTree_of_addUnits {dir : String} (hbase : r.treeBase? dir = some base)
    (hfiles : r.reader.walk (base.join (fold dir)) = .ok files)
    (hfound : addUnits base [] files = .ok found) (requester : String) :
    r.expandTree dir requester = .ok (sortUnits found) := by
  unfold treeBase? at hbase
  simp only [expandTree, hbase, hfiles]
  show (addUnits base [] files >>= _) = _
  rw [hfound]
  rfl

/-- A file that is reached by names alone has them as its name, the last one less its extension. -/
theorem treeUnit?_eq_some {front : List String} {stem : String} (hstem : stem ≠ "")
    (h : path.components =
      base.components ++ (front ++ [stem ++ ("." ++ processor.extension)]).map .normal) :
    treeUnit? base path = some ⟨ofSegments false (front ++ [stem]), path, processor⟩ := by
  have hprocessor : path.processor? = some processor := by
    have hcomponents : path.components = (base.components ++ front.map .normal) ++
        [.normal (stem ++ ("." ++ processor.extension))] := by
      rw [h, List.map_append, List.append_assoc]
      rfl
    exact Path.processor?_of_components hstem hcomponents
  have hbelow : path.below? base =
      some ((front ++ [stem ++ ("." ++ processor.extension)]).map .normal) := by
    rw [Path.below?, Path.isWithin, h, List.drop_left,
      if_pos (List.isPrefixOf_iff_prefix.mpr (List.prefix_append _ _))]
  have hsteps : ∀ s ∈ front ++ [stem ++ ("." ++ processor.extension)], IsStep s ∧ s ≠ ".." := by
    intro s hs
    refine Path.isStep_of_mem_components (p := path) ?_
    rw [h]
    exact List.mem_append_right _ (List.mem_map_of_mem hs)
  have hcanon : Canonical (front ++ [stem ++ ("." ++ processor.extension)]) :=
    ⟨fun s hs => (hsteps s hs).1, 0, _, rfl, fun hup => (hsteps _ hup).2 rfl⟩
  simp only [treeUnit?, hprocessor, hbelow, Path.joinNames_map_normal, LogicalName.normalize,
    fold_ofSegments hcanon]
  rw [← ofSegments_append_last, splitExtension_append]

theorem treeUnit?_path {u : Resolved} (h : treeUnit? base path = some u) :
    path.processor? = some u.processor ∧ u.path = path := by
  unfold treeUnit? at h
  split at h
  · rename_i processor _ hprocessor _
    obtain rfl := Option.some.inj h
    exact ⟨hprocessor, rfl⟩
  · cases h

theorem treeUnit?_plain {u : Resolved} (h : treeUnit? base path = some u)
    (hplain : path.PlainlyBelow base) (hne : path.components ≠ base.components) :
    ∃ front stem, stem ≠ ""
      ∧ path.components = base.components ++
          (front ++ [stem ++ ("." ++ u.processor.extension)]).map .normal
      ∧ u = ⟨ofSegments false (front ++ [stem]), path, u.processor⟩ := by
  obtain ⟨names, hnames⟩ := hplain
  obtain ⟨before, stem, hstem, hlast⟩ := Path.processor?_eq_some (treeUnit?_path h).1
  -- The last component of the path is the last of the names.
  obtain ⟨front, rfl⟩ : ∃ front, names = front ++ [stem ++ ("." ++ u.processor.extension)] := by
    rcases List.eq_nil_or_concat' names with rfl | ⟨front, last, rfl⟩
    · exact absurd (by simpa using hnames) hne
    · rw [hnames, List.map_append, ← List.append_assoc] at hlast
      have hname := (List.append_inj' hlast rfl).2
      simp only [List.map_cons, List.map_nil, List.cons.injEq, Component.normal.injEq] at hname
      exact ⟨front, by rw [hname.1]⟩
  exact ⟨front, stem, hstem, hnames, Option.some.inj (h.symm.trans (treeUnit?_eq_some hstem hnames))⟩

/-! ## Looking up a member -/

/-- A name without an extension means the file of that very name, or else the one with `.rb`, or else
the one with `.js`. -/
theorem pick_of_normalized (h : LogicalName.normalize name = name) (base : Path) :
    r.pick name base =
      if r.reader.isFile (base.join name) then some (base.join name, r.defaultProcessor)
      else if r.reader.isFile (base.join (name ++ ".rb")) then some (base.join (name ++ ".rb"), .ruby)
      else if r.reader.isFile (base.join (name ++ ".js")) then
        some (base.join (name ++ ".js"), .javascript)
      else none := by
  obtain ⟨hfold, hext⟩ := normalize_eq_self_iff.mp h
  rw [pick, hfold, hext, candidates]
  simp only [List.find?_cons, List.find?_nil]
  cases r.reader.isFile (base.join name) <;> cases r.reader.isFile (base.join (name ++ ".rb")) <;>
    cases r.reader.isFile (base.join (name ++ ".js")) <;> rfl

end Resolver

/-- A directory that has a file has all directories on the way to it. -/
theorem MemoryStore.isDir_of_isFile {s : MemoryStore} {base : Path} {dirs names : List String}
    (hdirs : Canonical dirs) (hcanon : Canonical (dirs ++ names)) (hne : names ≠ [])
    (h : s.reader.isFile (base.join (ofSegments false (dirs ++ names))) = true) :
    s.reader.isDir (base.join (ofSegments false dirs)) = true := by
  refine isDir_iff.mpr ⟨_, isFile_iff.mp h, names.filterMap Path.componentOf?, ?_, ?_⟩
  · intro hnil
    have hback := Path.map_segment_filterMap fun t ht => hcanon.1 t (List.mem_append_right _ ht)
    rw [hnil] at hback
    exact hne hback.symm
  · rw [Path.components_join hcanon, Path.components_join hdirs, List.filterMap_append,
      List.append_assoc]

namespace Resolver

section Member

variable {r : Resolver} {s : MemoryStore} {base : Path} {dirs front : List String} {stem : String}

/-- A directory that does not have the tree has no file for the name of a member. -/
theorem pick_eq_none_of_isDir (hs : r.reader = s.reader)
    (hdirs : Canonical dirs) (hcanon : Canonical (dirs ++ front ++ [stem]))
    (hname : LogicalName.normalize (ofSegments false (dirs ++ front ++ [stem])) =
      ofSegments false (dirs ++ front ++ [stem]))
    (h : s.reader.isDir (base.join (ofSegments false dirs)) = false) :
    r.pick (ofSegments false (dirs ++ front ++ [stem])) base = none := by
  rw [Option.eq_none_iff_forall_ne_some]
  intro c hc
  obtain ⟨hmem, hfile⟩ := mem_of_pick hc
  rw [hs] at hfile
  have hcase : ∀ last, Canonical (dirs ++ front ++ [last]) →
      c.1 = base.join (ofSegments false (dirs ++ front ++ [last])) → False := by
    intro last hlast hc
    rw [hc, List.append_assoc] at hfile
    rw [List.append_assoc] at hlast
    rw [MemoryStore.isDir_of_isFile hdirs hlast (by simp) hfile] at h
    cases h
  rcases (mem_candidates hname).mp hmem with rfl | ⟨p, rfl⟩
  · exact hcase stem hcanon rfl
  · exact hcase _ (hcanon.extend p) (by rw [ofSegments_append_last])

/-- The path that the name of a member leads to once its extension is put back. -/
theorem components_join_member (hcanon : Canonical (front ++ [stem])) (hplain : ∀ s ∈ front, s ≠ "..")
    (base : Path) (p : Processor) :
    (base.join (ofSegments false (front ++ [stem]) ++ ("." ++ p.extension))).components =
      base.components ++ (front ++ [stem ++ ("." ++ p.extension)]).map .normal := by
  have hextended := hcanon.extend p
  rw [ofSegments_append_last, Path.components_join hextended, Path.filterMap_componentOf?]
  intro t ht
  refine ⟨hextended.1 t ht, ?_⟩
  rcases List.mem_append.mp ht with hfront | hlast
  · exact hplain t hfront
  · rw [List.mem_singleton.mp hlast]
    intro hup
    have hend := congrArg (fun s => s.toList.getLast?) hup
    cases p <;> simp [Processor.extension] at hend

/-- Where only one extension leads to a file, the name means that file or the one without. -/
theorem pick_of_unique (hname : LogicalName.normalize name = name)
    (hfile : r.reader.isFile (base.join (name ++ ("." ++ processor.extension))) = true)
    (hunique : ∀ p : Processor,
      r.reader.isFile (base.join (name ++ ("." ++ p.extension))) = true → p = processor) :
    r.pick name base = some (if r.reader.isFile (base.join name) then
      (base.join name, r.defaultProcessor)
      else (base.join (name ++ ("." ++ processor.extension)), processor)) := by
  rw [pick_of_normalized hname]
  split
  · rfl
  · cases processor with
    | ruby => exact if_pos hfile
    | javascript =>
        exact (if_neg fun hrb => nomatch hunique .ruby hrb).trans (if_pos hfile)

end Member

/-- What is known of a member of a tree that is reached by names alone. The names lead through the
directory of the tree, and no file of the tree differs in its extension only. -/
theorem mem_expandTree {r : Resolver} {s : MemoryStore} (hs : r.reader = s.reader)
    {dir requester : String} (hdir : isAbsolute dir = false)
    (h : r.expandTree dir requester = .ok units) : ∃ base, r.treeBase? dir = some base
      ∧ ∃ dirs, Canonical dirs ∧ fold dir = ofSegments false dirs
      ∧ ∀ u ∈ units, u.path.PlainlyBelow base → ∃ front stem, stem ≠ ""
        ∧ u.path.components = base.components ++
          (dirs ++ front ++ [stem ++ ("." ++ u.processor.extension)]).map .normal
        ∧ u.logical = ofSegments false (dirs ++ front ++ [stem])
        ∧ s.reader.isFile u.path = true
        ∧ ∀ (path : Path) (p : Processor), s.reader.isFile path = true →
          path.components = base.components ++
            (dirs ++ front ++ [stem ++ ("." ++ p.extension)]).map .normal → p = u.processor := by
  obtain ⟨base, hbase, ⟨files, hfiles, hunits⟩, hnodup⟩ := expandTree_units h
  have hcanon := canonical_foldSegments dir
  have hfold : fold dir = ofSegments false (foldSegments (segments dir)) := by rw [fold, hdir]
  refine ⟨base, hbase, _, hcanon, hfold, fun u hu hplain => ?_⟩
  rw [hs] at hfiles
  obtain rfl := Except.ok.inj hfiles
  rw [hfold] at hunits
  generalize foldSegments (segments dir) = dirs at hcanon hunits
  have hroot := Path.components_join hcanon base
  obtain ⟨path, hpath, hunit⟩ := (hunits u).mp hu
  obtain ⟨hkey, rest, hrest, hbelow⟩ :=
    MemoryStore.mem_below_components.mp (List.mem_map_of_mem (f := Path.components) hpath)
  rw [hroot, List.append_assoc] at hbelow
  have hne : path.components ≠ base.components := by
    rw [hbelow]
    simpa using fun _ => hrest
  obtain ⟨names, stem, hstem, hcomponents, hlogical⟩ :=
    treeUnit?_plain hunit ((treeUnit?_path hunit).2 ▸ hplain) hne
  -- The names begin with those of the directory.
  obtain ⟨front, rfl⟩ : ∃ front, names = dirs ++ front := by
    have hnames := congrArg (List.map Component.segment)
      (List.append_cancel_left (hcomponents.symm.trans hbelow))
    rw [List.map_map, show Component.segment ∘ Component.normal = id from rfl, List.map_id,
      List.map_append, Path.map_segment_filterMap hcanon.1] at hnames
    rcases List.eq_nil_or_concat' rest with rfl | ⟨front, last, rfl⟩
    · exact absurd rfl hrest
    · rw [List.map_append, ← List.append_assoc] at hnames
      exact ⟨_, (List.append_inj' hnames rfl).1⟩
  have hsteps : ∀ t ∈ dirs, IsStep t ∧ t ≠ ".." := by
    intro t ht
    refine Path.isStep_of_mem_components (p := path) ?_
    rw [hcomponents]
    exact List.mem_append_right _ (List.mem_map_of_mem (by simp [ht]))
  refine ⟨front, stem, hstem, (treeUnit?_path hunit).2 ▸ hcomponents, congrArg _ hlogical,
    (treeUnit?_path hunit).2 ▸ MemoryStore.isFile_iff.mpr hkey, fun q p hq hcomps => ?_⟩
  have hmem : q.components ∈ (s.below (base.join (ofSegments false dirs))).map Path.components := by
    refine MemoryStore.mem_below_components.mpr ⟨MemoryStore.isFile_iff.mp hq,
      (front ++ [stem ++ ("." ++ p.extension)]).map .normal, by simp, ?_⟩
    rw [hcomps, hroot, Path.filterMap_componentOf? hsteps, List.append_assoc, List.append_assoc,
      List.map_append]
  obtain ⟨q', hq', hsame⟩ := List.mem_map.mp hmem
  have hother := (hunits _).mpr ⟨q', hq', treeUnit?_eq_some hstem (hsame.trans hcomps)⟩
  have heq := List.inj_on_of_nodup_map hnodup hother hu (congrArg Resolved.logical hlogical).symm
  exact congrArg Resolved.processor heq

/-- **A member of a tree is found again by its name**, unless a file of that very name without an
extension stands in the search path. Such a file is found in its place. This is about the members
whose names are normal, and which are reached by names alone. -/
theorem resolve_tree_member {r : Resolver} {s : MemoryStore} (hs : r.reader = s.reader)
    {dir requester : String} (hdir : isAbsolute dir = false) {units : List Resolved}
    (h : r.expandTree dir requester = .ok units) : ∃ base, r.treeBase? dir = some base
      ∧ ∀ u ∈ units, LogicalName.normalize u.logical = u.logical → u.path.PlainlyBelow base →
        ∀ source, ∃ v, r.resolve u.logical source = .ok v ∧ v.logical = u.logical
          ∧ (u.Alike Path.SameAs v ↔ r.reader.isFile (base.join u.logical) = false)
          ∧ (r.reader.isFile (base.join u.logical) = true →
            v.path = base.join u.logical ∧ v.processor = r.defaultProcessor) := by
  obtain ⟨base, hbase, dirs, hdirs, hfold, hmember⟩ := mem_expandTree hs hdir h
  refine ⟨base, hbase, fun u hu hname hplain source => ?_⟩
  obtain ⟨front, stem, hstem, hpath, hlogical, hfile, hunique⟩ := hmember u hu hplain
  have hsteps : ∀ t ∈ dirs ++ front ++ [stem ++ ("." ++ u.processor.extension)],
      IsStep t ∧ t ≠ ".." := by
    intro t ht
    refine Path.isStep_of_mem_components (p := u.path) ?_
    rw [hpath]
    exact List.mem_append_right _ (List.mem_map_of_mem ht)
  have hcanon : Canonical (dirs ++ front ++ [stem]) := by
    refine canonical_of_fold (by simp) ?_ (hlogical ▸ (normalize_eq_self_iff.mp hname).1)
    intro t ht
    rcases List.mem_append.mp ht with ht | ht
    · have hstep := (hsteps t (List.mem_append_left _ ht)).1
      exact ⟨hstep.1, hstep.2.2⟩
    · obtain rfl := List.mem_singleton.mp ht
      have hslash := (hsteps _ (List.mem_append_right _ (List.mem_singleton_self _))).1.2.2
      exact ⟨hstem, fun hmem => hslash (by simp [hmem])⟩
  have hjoin : ∀ p : Processor, (base.join (u.logical ++ ("." ++ p.extension))).components =
      base.components ++ (dirs ++ front ++ [stem ++ ("." ++ p.extension)]).map .normal := fun p =>
    hlogical ▸ components_join_member hcanon (fun t ht => (hsteps t (List.mem_append_left _ ht)).2)
      base p
  have hhere : r.reader.isFile (base.join (u.logical ++ ("." ++ u.processor.extension))) = true :=
    hs ▸ MemoryStore.isFile_iff.mpr (hjoin _ ▸ hpath ▸ MemoryStore.isFile_iff.mp hfile)
  have hpick := pick_of_unique hname hhere fun p hp => hunique _ p (hs ▸ hp) (hjoin p)
  -- No directory before this one has the tree, so none has a file for the name.
  obtain ⟨-, before, after, hpaths, hbefore⟩ := List.find?_eq_some_iff_append.mp hbase
  have hnone : before.findSome? (r.pick u.logical) = none := by
    refine List.findSome?_eq_none_iff.mpr fun b hb => ?_
    rw [hlogical]
    refine pick_eq_none_of_isDir hs hdirs hcanon (hlogical ▸ hname) ?_
    rw [← hfold, ← hs]
    simpa using hbefore b hb
  have hfound : ∀ c, r.pick u.logical base = some c →
      r.resolve u.logical source = .ok ⟨u.logical, c.1, c.2⟩ := by
    intro c hc
    rw [resolve_eq_findSome?, hpaths, List.findSome?_append, hnone, Option.none_or,
      List.findSome?_cons, hc, hname]
    rfl
  cases hbare : r.reader.isFile (base.join u.logical) with
  | false =>
      rw [hbare, if_neg Bool.false_ne_true] at hpick
      exact ⟨_, hfound _ hpick, rfl, iff_of_true ⟨rfl, rfl, hpath.trans (hjoin _).symm⟩ rfl, nofun⟩
  | true =>
      rw [hbare, if_pos rfl] at hpick
      refine ⟨_, hfound _ hpick, rfl, iff_of_false (fun halike => ?_) nofun, fun _ => ⟨rfl, rfl⟩⟩
      -- The last name of the member has an extension, that of the file has not.
      have hsame : u.path.components = (base.join u.logical).components := halike.path
      rw [hpath, hlogical, Path.components_join hcanon] at hsame
      have hnames := congrArg (List.map Component.segment) (List.append_cancel_left hsame)
      rw [List.map_map, show Component.segment ∘ Component.normal = id from rfl, List.map_id,
        Path.map_segment_filterMap hcanon.1] at hnames
      have hlast := (List.cons.inj (List.append_cancel_left hnames)).1
      have hlength := congrArg (fun t => t.toList.length) hlast
      simp at hlength

/-- The files of a tree in the second search path. Beside `a.rb` there is a file without an extension,
`c.rb` has its extension twice, and the key of the last one climbs out of the tree. -/
def crowdedFiles : MemoryStore := MemoryStore.ofFiles
  [(⟨"vendor/a.rb"⟩, ""), (⟨"lib/t/a.rb"⟩, ""), (⟨"lib/t/a"⟩, ""), (⟨"lib//t/sub/b.js"⟩, ""),
    (⟨"lib/t/c.rb.rb"⟩, ""), (⟨"lib/t/../d.rb"⟩, "")]

def crowded : Resolver where
  reader := crowdedFiles.reader
  paths := [⟨"vendor"⟩, ⟨"lib"⟩]
  defaultProcessor := .javascript

theorem crowded_expandTree : ∃ units, crowded.expandTree "t" "main" = .ok units ∧ ∀ u, u ∈ units ↔
    u ∈ [⟨"t/d", ⟨"lib/t/../d.rb"⟩, .ruby⟩, ⟨"t/a", ⟨"lib/t/a.rb"⟩, .ruby⟩,
      ⟨"t/c.rb", ⟨"lib/t/c.rb.rb"⟩, .ruby⟩, ⟨"t/sub/b", ⟨"lib//t/sub/b.js"⟩, .javascript⟩] := by
  obtain ⟨found, hfound, rfl⟩ : ∃ found, addUnits ⟨"lib"⟩ [] (crowdedFiles.below ⟨"lib/t"⟩) =
      .ok found ∧ found = [⟨"t/d", ⟨"lib/t/../d.rb"⟩, .ruby⟩, ⟨"t/a", ⟨"lib/t/a.rb"⟩, .ruby⟩,
        ⟨"t/c.rb", ⟨"lib/t/c.rb.rb"⟩, .ruby⟩, ⟨"t/sub/b", ⟨"lib//t/sub/b.js"⟩, .javascript⟩] :=
    exists_ok_of_any (by decide +kernel)
  have hbase : crowded.treeBase? "t" = some ⟨"lib"⟩ := by decide +kernel
  have hroot : (⟨"lib"⟩ : Path).join (fold "t") = ⟨"lib/t"⟩ := by decide +kernel
  refine ⟨_, expandTree_of_addUnits hbase (hroot ▸ rfl) hfound "main", fun u => ?_⟩
  exact (List.mergeSort_perm _ _).mem_iff

theorem resolve_tree_member_sub : ∃ units v, crowded.expandTree "t" "main" = .ok units
    ∧ ⟨"t/sub/b", ⟨"lib//t/sub/b.js"⟩, .javascript⟩ ∈ units
    ∧ crowded.resolve "t/sub/b" "main" = .ok v
    ∧ Resolved.Alike Path.SameAs ⟨"t/sub/b", ⟨"lib//t/sub/b.js"⟩, .javascript⟩ v := by
  obtain ⟨units, hunits, hmem⟩ := crowded_expandTree
  have hsub := (hmem ⟨"t/sub/b", ⟨"lib//t/sub/b.js"⟩, .javascript⟩).mpr (by simp)
  obtain ⟨base, hbase, hmember⟩ :=
    resolve_tree_member (s := crowdedFiles) rfl (by decide +kernel) hunits
  obtain rfl : ⟨"lib"⟩ = base := Option.some.inj (.trans (by decide +kernel) hbase)
  obtain ⟨v, hv, -, halike, -⟩ := hmember _ hsub (by decide +kernel)
    ⟨["t", "sub", "b.js"], by decide +kernel⟩ "main"
  exact ⟨units, v, hunits, hsub, hv, halike.mpr (by decide +kernel)⟩

/-- A file without an extension is found in place of a member. The names of the other two members of
this tree lead to no file. -/
theorem resolve_tree_member_shadowed : ∃ units, crowded.expandTree "t" "main" = .ok units
    ∧ (∃ u ∈ units, u.logical = "t/a" ∧ ∃ v, crowded.resolve u.logical "main" = .ok v
      ∧ ¬ u.Alike Path.SameAs v)
    ∧ (∃ u ∈ units, u.logical = "t/c.rb" ∧ ∀ v, crowded.resolve u.logical "main" ≠ .ok v)
    ∧ ∃ u ∈ units, u.logical = "t/d" ∧ ∀ v, crowded.resolve u.logical "main" ≠ .ok v := by
  obtain ⟨units, hunits, hmem⟩ := crowded_expandTree
  obtain ⟨v, hv, hpath⟩ : ∃ v, crowded.resolve "t/a" "main" = .ok v ∧ v.path = ⟨"lib/t/a"⟩ :=
    exists_ok_of_any (by decide +kernel)
  have hlost : ∀ name ∈ ["t/c.rb", "t/d"], (crowded.resolve name "main").toOption = none := by
    decide +kernel
  refine ⟨units, hunits, ⟨_, (hmem ⟨"t/a", ⟨"lib/t/a.rb"⟩, .ruby⟩).mpr (by simp), rfl, v, hv, ?_⟩,
    ⟨_, (hmem ⟨"t/c.rb", ⟨"lib/t/c.rb.rb"⟩, .ruby⟩).mpr (by simp), rfl, fun v hv => ?_⟩,
    _, (hmem ⟨"t/d", ⟨"lib/t/../d.rb"⟩, .ruby⟩).mpr (by simp), rfl, fun v hv => ?_⟩
  · intro halike
    have hsame : (⟨"lib/t/a.rb"⟩ : Path).components = v.path.components := halike.path
    rw [hpath] at hsame
    exact absurd hsame (by decide +kernel)
  · exact nomatch (hlost "t/c.rb" (by simp)).symm.trans (congrArg Except.toOption hv)
  · exact nomatch (hlost "t/d" (by simp)).symm.trans (congrArg Except.toOption hv)

end Resolver

end RubyJs
