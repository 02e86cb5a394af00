import RubyJs.Proofs.Build.Steps
import RubyJs.Proofs.Names.Joining
import RubyJs.Store.Memory

set_option autoImplicit false

/-! # What can be looked up

Units name each other, and a name may grow with every unit (`../` before the name of the unit that
names it). Yet a file is found under few names: a found file stands where a folded name leads to
from a search path, so the search path and the file tell the name. A store with finitely many files
has finitely many logical names (`MemoryStore.names`), and whatever a builder over it finds has one
of them (`Builder.Finds.mem_names`).
-/

namespace RubyJs

open LogicalName

variable {files : List Path} {base : Path}

/-! ## Names that are resolved -/

/-- A name with an extension after it is folded if the name is. -/
theorem LogicalName.fold_append_known {name ext : String} (h : fold name = name)
    (hext : ext = ".rb" ∨ ext = ".js") : fold (name ++ ext) = name ++ ext := by
  -- No text that ends in such an extension is `.` or `..`.
  have hlast : ∀ t : String, t ++ ext ≠ "." ∧ t ++ ext ≠ ".." := by
    intro t
    constructor <;> intro heq
    all_goals
      have hend := congrArg (fun s => s.toList.getLast?) heq
      rcases hext with rfl | rfl <;> simp at hend
  refine fold_append_extension h ?_ hlast ?_
  · rcases hext with rfl | rfl <;> decide
  · rcases hext with rfl | rfl <;> decide

namespace Resolver

variable {r : Resolver}

/-- A resolved file stands where a folded name leads to from a search path, and it has the logical
name which that name stands for. -/
theorem resolve_eq_ok {name requester : String} {file : Resolved}
    (h : r.resolve name requester = .ok file) :
    ∃ base ∈ r.paths, ∃ full, fold full = full ∧ file.path = base.join full ∧
      file.logical = LogicalName.normalize full ∧ r.reader.isFile file.path = true := by
  simp only [resolve] at h
  split at h
  case h_2 => exact absurd h (by simp)
  rename_i path processor hfind
  obtain rfl := Except.ok.inj h
  have hfile := List.find?_some hfind
  obtain ⟨base, hbase, hcand⟩ := List.mem_flatMap.mp (List.mem_of_find?_eq_some hfind)
  have hfold := fold_fold name
  refine ⟨base, hbase, ?_⟩
  have hself : ∃ full, fold full = full ∧ base.join (fold name) = base.join full ∧
      (splitExtension (fold name)).1 = LogicalName.normalize full :=
    ⟨fold name, hfold, rfl, by rw [LogicalName.normalize, hfold]⟩
  unfold candidates at hcand
  split at hcand
  · obtain ⟨rfl, -⟩ := Prod.mk.inj (List.mem_singleton.mp hcand)
    obtain ⟨full, hfull, hjoin, hlogical⟩ := hself
    exact ⟨full, hfull, hjoin, hlogical, hfile⟩
  · rename_i hnone
    have hstem := splitExtension_stem hnone
    simp only [List.mem_cons, List.not_mem_nil, or_false, Prod.mk.injEq] at hcand
    rcases hcand with ⟨rfl, -⟩ | ⟨rfl, -⟩ | ⟨rfl, -⟩
    · obtain ⟨full, hfull, hjoin, hlogical⟩ := hself
      exact ⟨full, hfull, hjoin, hlogical, hfile⟩
    · have hext : fold (fold name ++ ".rb") = fold name ++ ".rb" :=
        fold_append_known hfold (Or.inl rfl)
      exact ⟨_, hext, rfl, by rw [hstem, LogicalName.normalize, hext, splitExtension_rb], hfile⟩
    · have hext : fold (fold name ++ ".js") = fold name ++ ".js" :=
        fold_append_known hfold (Or.inr rfl)
      exact ⟨_, hext, rfl, by rw [hstem, LogicalName.normalize, hext, splitExtension_js], hfile⟩

theorem resolve_error {name requester : String} {e : Failure}
    (h : r.resolve name requester = .error e) :
    e = .unresolved (LogicalName.normalize name) requester := by
  simp only [resolve] at h
  split at h
  · exact absurd h (by simp)
  · exact (Except.error.inj h).symm

/-! ## Units of trees -/

theorem mem_addUnits {found units : List Resolved} (h : addUnits base found files = .ok units)
    {u : Resolved} (hu : u ∈ units) : u ∈ found ∨ ∃ path ∈ files, treeUnit? base path = some u := by
  induction files generalizing found with
  | nil =>
      obtain rfl := Except.ok.inj h
      exact Or.inl hu
  | cons path files ih =>
      rw [addUnits] at h
      cases hpath : treeUnit? base path with
      | none =>
          simp only [hpath] at h
          rcases ih h with hfound | ⟨q, hq, hunit⟩
          · exact Or.inl hfound
          · exact Or.inr ⟨q, List.mem_cons_of_mem _ hq, hunit⟩
      | some v =>
          simp only [hpath] at h
          split at h
          · exact absurd h (by simp)
          · rcases ih h with hfound | ⟨q, hq, hunit⟩
            · rcases List.mem_append.mp hfound with hfound | hv
              · exact Or.inl hfound
              · exact Or.inr ⟨path, List.mem_cons_self, by rw [hpath, List.mem_singleton.mp hv]⟩
            · exact Or.inr ⟨q, List.mem_cons_of_mem _ hq, hunit⟩

theorem addUnits_error {found : List Resolved} {e : Failure}
    (h : addUnits base found files = .error e) : ∃ name p q, e = .ambiguous name p q := by
  induction files generalizing found with
  | nil => exact absurd h (by simp [addUnits])
  | cons path files ih =>
      rw [addUnits] at h
      split at h
      · exact ih h
      · split at h
        · exact ⟨_, _, _, (Except.error.inj h).symm⟩
        · exact ih h

/-- A unit of a tree is a file below the directory, named from a search path. -/
theorem expandTree_eq_ok {dir requester : String} {units : List Resolved}
    (h : r.expandTree dir requester = .ok units) :
    ∃ base ∈ r.paths, ∃ files, r.reader.walk (base.join (fold dir)) = .ok files ∧
      ∀ u ∈ units, ∃ path ∈ files, treeUnit? base path = some u := by
  simp only [expandTree] at h
  split at h
  · exact absurd h (by simp)
  · rename_i base hbase
    obtain ⟨files, hfiles, h⟩ := bind_eq_ok h
    obtain ⟨found, hfound, h⟩ := bind_eq_ok h
    refine ⟨base, List.mem_of_find?_eq_some hbase, files, hfiles, fun u hu => ?_⟩
    rw [← Except.ok.inj h, sortUnits, List.mem_mergeSort] at hu
    rcases mem_addUnits hfound hu with hnil | hpath
    · exact absurd hnil List.not_mem_nil
    · exact hpath

/-- The name of a unit of a tree is told by its path and the search path. -/
theorem treeUnit?_logical {path : Path} {u : Resolved} (h : treeUnit? base path = some u) :
    u.logical =
      LogicalName.normalize (Path.joinNames (path.components.drop base.components.length)) := by
  unfold treeUnit? at h
  split at h
  · rename_i rest _ hrest
    unfold Path.below? at hrest
    split at hrest
    · rw [← Option.some.inj h, Option.some.inj hrest]
    · exact absurd hrest (by simp)
  · exact absurd h (by simp)

end Resolver

/-! ## The names of a store -/

namespace MemoryStore

variable {s : MemoryStore}

/-- The logical names that one file can be found under: by its absolute name, and seen from each of
the search paths by a name or in a tree. -/
def fileNames (paths : List Path) (file : Path) : List String :=
  LogicalName.normalize (Path.nameFrom ⟨""⟩ file true) ::
    paths.flatMap fun base =>
      [LogicalName.normalize (base.nameFrom file false),
        LogicalName.normalize (Path.joinNames (file.components.drop base.components.length))]

/-- The logical names that the files of a store can be found under. -/
def names (s : MemoryStore) (paths : List Path) : List String :=
  s.files.flatMap fun f => fileNames paths f.1

theorem length_fileNames (paths : List Path) (file : Path) :
    (fileNames paths file).length = 2 * paths.length + 1 := by
  have hflat : (paths.flatMap fun base =>
      [LogicalName.normalize (base.nameFrom file false),
        LogicalName.normalize
          (Path.joinNames (file.components.drop base.components.length))]).length =
      2 * paths.length := by
    induction paths with
    | nil => rfl
    | cons base paths ih =>
        rw [List.flatMap_cons, List.length_append, ih, List.length_cons]
        show 2 + 2 * paths.length = 2 * (paths.length + 1)
        omega
  rw [fileNames, List.length_cons, hflat]

theorem length_names (s : MemoryStore) (paths : List Path) :
    (s.names paths).length = (2 * paths.length + 1) * s.files.length := by
  unfold names
  induction s.files with
  | nil => rfl
  | cons f files ih =>
      rw [List.flatMap_cons, List.length_append, length_fileNames, ih, List.length_cons,
        Nat.mul_add_one, Nat.add_comm]

theorem isFile_eq_true {p : Path} (h : s.reader.isFile p = true) :
    ∃ f ∈ s.files, f.1.components = p.components := by
  obtain ⟨text, htext⟩ := Option.isSome_iff_exists.mp h
  obtain ⟨f, hf, -⟩ := Option.map_eq_some_iff.mp htext
  have hsame := List.find?_some hf
  exact ⟨f, List.mem_of_find?_eq_some hf, beq_iff_eq.mp hsame⟩

theorem mem_walk {dir : Path} (h : s.reader.walk dir = .ok files)
    {path : Path} (hp : path ∈ files) : ∃ f ∈ s.files, f.1 = path := by
  obtain rfl := Except.ok.inj h
  obtain ⟨f, hf, hpath⟩ := List.mem_map.mp hp
  exact ⟨f, (List.mem_filter.mp hf).1, hpath⟩

/-- A folded name that leads to a file stands for one of the names of the store. -/
theorem mem_names_of_join {paths : List Path} (hb : base ∈ paths) {full : String}
    (hfold : fold full = full) (h : s.reader.isFile (base.join full) = true) :
    LogicalName.normalize full ∈ s.names paths := by
  obtain ⟨f, hf, hsame⟩ := isFile_eq_true h
  refine List.mem_flatMap.mpr ⟨f, hf, ?_⟩
  have hname := Path.nameFrom_join hfold hsame
  rw [← hname]
  cases habs : isAbsolute full with
  | true =>
      -- An absolute name is the same from everywhere.
      exact List.mem_cons_self
  | false =>
      refine List.mem_cons_of_mem _ (List.mem_flatMap.mpr ⟨base, hb, ?_⟩)
      exact List.mem_cons_self

end MemoryStore

/-- Whatever is found in a store has one of the names of the store. -/
theorem Builder.Finds.mem_names {b : Builder} {s : MemoryStore} (hs : b.reader = s.reader)
    {file : Resolved} (h : b.Finds file) : file.logical ∈ s.names b.paths := by
  rcases h with ⟨name, requester, h⟩ | ⟨dir, requester, units, h, hmem⟩
  · obtain ⟨base, hbase, full, hfold, hpath, hlogical, hfile⟩ := Resolver.resolve_eq_ok h
    rw [hlogical]
    refine MemoryStore.mem_names_of_join hbase hfold ?_
    rw [← hpath, ← hs]
    exact hfile
  · obtain ⟨base, hbase, files, hfiles, hunits⟩ := Resolver.expandTree_eq_ok h
    obtain ⟨path, hpath, hunit⟩ := hunits file hmem
    have hwalk : s.reader.walk (base.join (fold dir)) = .ok files := hs ▸ hfiles
    obtain ⟨f, hf, rfl⟩ := MemoryStore.mem_walk hwalk hpath
    rw [Resolver.treeUnit?_logical hunit]
    refine List.mem_flatMap.mpr ⟨f, hf, List.mem_cons_of_mem _ ?_⟩
    exact List.mem_flatMap.mpr ⟨base, hbase, by simp⟩

end RubyJs
