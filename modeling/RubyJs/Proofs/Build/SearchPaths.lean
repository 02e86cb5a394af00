import RubyJs.Proofs.Build.Simulation
import RubyJs.Store.Memory

set_option autoImplicit false

/-! # More search paths

The first directory that has a file, or a tree, for a name wins. So directories that are searched
after the others are asked only for names that would not be found without them, and a build that
finds all of its names does not ask them at all.
-/

namespace RubyJs

/-! ## Lookups -/

namespace Resolver

variable {r : Resolver} {name requester : String}

/-- A name that is found is found in the same place if more directories are searched. -/
theorem resolve_append {file : Resolved} (h : r.resolve name requester = .ok file)
    (more : List Path) :
    ({ r with paths := r.paths ++ more } : Resolver).resolve name requester = .ok file := by
  simp only [resolve] at h ⊢
  split at h
  · rename_i path processor hfind
    -- the candidates of the first directories stand before all others
    have hfirst : ((r.paths ++ more).flatMap (r.candidates (LogicalName.fold name)
        (LogicalName.splitExtension (LogicalName.fold name)).2)).find? (r.reader.isFile ·.1)
          = some (path, processor) := by
      rw [List.flatMap_append, List.find?_append, hfind, Option.some_or]
    have hcandidates : candidates { r with paths := r.paths ++ more } = r.candidates := rfl
    rw [hcandidates, hfirst]
    exact h
  · exact absurd h (by simp)

/-- A tree that is found is found in the same place if more directories are searched. -/
theorem expandTree_append {units : List Resolved} (h : r.expandTree name requester = .ok units)
    (more : List Path) :
    ({ r with paths := r.paths ++ more } : Resolver).expandTree name requester = .ok units := by
  simp only [expandTree] at h ⊢
  split at h
  · exact absurd h (by simp)
  · rename_i base hfind
    have hfirst : (r.paths ++ more).find? (fun base => r.reader.isDir
        (base.join (LogicalName.fold name))) = some base := by
      rw [List.find?_append, hfind, Option.some_or]
    rw [hfirst]
    exact h

end Resolver

/-! ## Builds -/

namespace Builder

/-- A builder that searches more directories does what it does without them. -/
theorem simulates_append (b : Builder) (more : List Path) :
    Simulates Eq b { b with paths := b.paths ++ more } where
  options := rfl
  depth := by
    have hlength : b.paths.length + 1 ≤ (b.paths ++ more).length + 1 := by
      rw [List.length_append]
      omega
    have hbound := Nat.mul_le_mul_right b.reader.size (Nat.mul_le_mul_left 4 hlength)
    show 4 * (b.paths.length + 1) * b.reader.size + 2
      ≤ 4 * ((b.paths ++ more).length + 1) * b.reader.size + 2
    omega
  resolve name requester f hf := ⟨f, Resolver.resolve_append hf more, rfl, rfl, rfl⟩
  expandTree dir requester units hunits := by
    refine ⟨units, Resolver.expandTree_append hunits more, ?_⟩
    exact List.forall₂_same.mpr fun u _ => ⟨rfl, rfl, rfl⟩
  read p p' text hp hread := hp ▸ hread

/-- **Directories that are searched last do not change a build that succeeds without them**, over any
store, whether its entry is named or given as text. -/
theorem build_append_paths (b : Builder) (more : List Path) :
    (∀ entry a, b.build entry = .ok a →
      ({ b with paths := b.paths ++ more } : Builder).build entry = .ok a)
      ∧ ∀ text filename a, b.buildText text filename = .ok a →
        ({ b with paths := b.paths ++ more } : Builder).buildText text filename = .ok a :=
  ⟨fun _ _ h => (b.simulates_append more).build h,
    fun _ _ _ h => (b.simulates_append more).buildText h⟩

/-- A builder over a store with two directories that both have the unit and the tree that is needed.
The tree of the second one is ambiguous. -/
def shadowing : Builder where
  reader := (MemoryStore.ofFiles
    [(⟨"lib/main.rb"⟩, "require 'a'\nrequire_tree 't'"), (⟨"lib/a.rb"⟩, "1"),
      (⟨"lib/t/n.js"⟩, "1"), (⟨"more/a.rb"⟩, "require 'b'"), (⟨"more/t/n.js"⟩, "2"),
      (⟨"more/t/n.rb"⟩, "2")]).reader
  options := { preload := ["a"] }
  paths := [⟨"lib"⟩]

theorem build_append_paths_shadowing : ∃ a, shadowing.build "main" = .ok a ∧
    a.units = ["a", "t/n", "main"] ∧
    ({ shadowing with paths := shadowing.paths ++ [⟨"more"⟩] } : Builder).build "main" = .ok a := by
  obtain ⟨a, hbuild, hunits⟩ : ∃ a, shadowing.build "main" = .ok a ∧
      a.units = ["a", "t/n", "main"] := exists_ok_of_any (by decide +kernel)
  exact ⟨a, hbuild, hunits, (build_append_paths shadowing [⟨"more"⟩]).1 "main" a hbuild⟩

end Builder

end RubyJs
