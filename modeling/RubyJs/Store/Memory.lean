import RubyJs.Store

set_option autoImplicit false

/-! # Texts in memory

Texts by path, in the order of the paths. A path that is there already keeps its spelling when a new
text is put under it. There are no directories but those that files stand in.
-/

namespace RubyJs

namespace MemoryStore

/-- Files with their texts. -/
abbrev Files := List (Path × String)

/-- Puts a text into files that are in the order of their paths. -/
def insertFile (p : Path) (text : String) : Files → Files
  | [] => [(p, text)]
  | (q, t) :: rest =>
    match p.order q with
    | .lt => (p, text) :: (q, t) :: rest
    | .eq => (q, text) :: rest
    | .gt => (q, t) :: insertFile p text rest

/-- That files are in the order of their paths, no two of them the same. -/
def Sorted (files : Files) : Prop := files.Pairwise fun a b => a.1.order b.1 = .lt

end MemoryStore

/-- A store of texts in memory. -/
structure MemoryStore where
  files : MemoryStore.Files := []
  sorted : MemoryStore.Sorted files := by exact List.Pairwise.nil

namespace MemoryStore

open Std (TransOrd OrientedOrd TransCmp OrientedCmp)

theorem order_trans {p q r : Path} (h : p.order q = .lt) (h' : q.order r = .lt) :
    p.order r = .lt :=
  TransCmp.lt_trans h h'

theorem order_swap {p q : Path} (h : p.order q = .gt) : q.order p = .lt :=
  OrientedCmp.lt_of_gt h

/-- The files after an insertion are the new one under some spelling, and old ones. -/
theorem mem_insertFile {p : Path} {text : String} {files : Files} {f : Path × String}
    (h : f ∈ insertFile p text files) : p.order f.1 = .eq ∨ f ∈ files := by
  induction files with
  | nil =>
    rw [insertFile, List.mem_singleton] at h
    exact Or.inl (h ▸ Std.ReflCmp.compare_self)
  | cons g rest ih =>
    obtain ⟨q, t⟩ := g
    rw [insertFile] at h
    split at h
    · rcases List.mem_cons.mp h with h | h
      · exact Or.inl (h ▸ Std.ReflCmp.compare_self)
      · exact Or.inr h
    · rename_i heq
      rcases List.mem_cons.mp h with h | h
      · exact Or.inl (h ▸ heq)
      · exact Or.inr (List.mem_cons_of_mem _ h)
    · rcases List.mem_cons.mp h with h | h
      · exact Or.inr (h ▸ List.mem_cons_self)
      · rcases ih h with h | h
        · exact Or.inl h
        · exact Or.inr (List.mem_cons_of_mem _ h)

theorem sorted_insertFile (p : Path) (text : String) {files : Files} (h : Sorted files) :
    Sorted (insertFile p text files) := by
  induction files with
  | nil => exact List.pairwise_singleton _ _
  | cons g rest ih =>
    obtain ⟨q, t⟩ := g
    obtain ⟨hq, hrest⟩ := List.pairwise_cons.mp h
    rw [insertFile]
    split
    · rename_i hlt
      refine List.pairwise_cons.mpr ⟨?_, h⟩
      intro f hf
      rcases List.mem_cons.mp hf with rfl | hf
      · exact hlt
      · exact order_trans hlt (hq f hf)
    · exact List.pairwise_cons.mpr ⟨hq, hrest⟩
    · rename_i hgt
      refine List.pairwise_cons.mpr ⟨?_, ih hrest⟩
      intro f hf
      rcases mem_insertFile hf with heq | hf
      · exact TransCmp.lt_of_lt_of_eq (order_swap hgt) heq
      · exact hq f hf

/-- Puts a text under a path. -/
def insert (s : MemoryStore) (p : Path) (text : String) : MemoryStore :=
  ⟨insertFile p text s.files, sorted_insertFile p text s.sorted⟩

/-- The store with these files, a later one replacing an earlier one at the same path. -/
def ofFiles (files : List (Path × String)) : MemoryStore :=
  files.foldl (fun s f => s.insert f.1 f.2) {}

/-- The text under a path. -/
def get? (s : MemoryStore) (p : Path) : Option String := (s.files.find? (·.1.same p)).map (·.2)

/-- The files below a directory. -/
def below (s : MemoryStore) (dir : Path) : List Path :=
  (s.files.filter fun f => !f.1.same dir && f.1.isWithin dir).map (·.1)

/-- Read access to a store in memory. -/
def reader (s : MemoryStore) : Reader where
  isFile p := (s.get? p).isSome
  isDir p := !(s.below p).isEmpty
  read p :=
    match s.get? p with
    | some text => .ok text
    | none => .error (.source p .notStored)
  walk dir := .ok (s.below dir)
  size := s.files.length

end MemoryStore

end RubyJs
