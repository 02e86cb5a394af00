import RubyJs.Proofs.Build.Contents
import RubyJs.Store.Memory

set_option autoImplicit false

/-! # The texts of bundles

A bundle is the texts of its members in their order, after a line that counts them if one is asked
for. Each text comes from its member alone: a unit is compiled the same way whatever stands around it.
-/

namespace RubyJs

/-- Records that are those of members have the texts of the members. -/
theorem mapM_text_of_written {ms : List Member} {records : List Record}
    (h : List.Forall₂ Member.Written ms records) :
    ms.mapM Member.text = .ok (records.map Record.text) := by
  induction h with
  | nil => rfl
  | cons hm _ ih =>
      rw [List.mapM_cons, hm.2, ih]
      rfl

namespace Builder

/-- A builder that loads a module and a native file ahead, stubs a name and counts the units. -/
def assorted : Builder where
  reader := (MemoryStore.ofFiles
    [(⟨"main.rb"⟩, "require 's'\nrequire 'a'"), (⟨"a.rb"⟩, "require 'd'"), (⟨"d.rb"⟩, "1"),
      (⟨"n.js"⟩, "x")]).reader
  options := { stubs := ["s"], preload := ["a", "n", "d"], banner := true }
  paths := [⟨""⟩]

end Builder

end RubyJs
