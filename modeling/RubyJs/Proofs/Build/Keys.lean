import RubyJs.Proofs.Build.Visited
import RubyJs.Proofs.Emission.Declarations
import RubyJs.Proofs.Names.Folding
import RubyJs.Store.Memory

set_option autoImplicit false

/-! # The keys of a bundle

When a bundle runs, its units stand in a table under their logical names, and a `require` looks up
the name that it was compiled with. A key is never written twice (`Builder.build_units_nodup`). A
lookup meets its unit if the name is a logical name itself (`Builder.build_keys`): the name in the
program is normalised where the call is compiled, and the result is normalised once more where the
unit is looked for. That changes nothing if the first time took no extension away, or left a folded
name without another one. Otherwise the table has the unit under a shorter name:

    require "a"          looks up "a"       the unit is a
    require "a.rb"       looks up "a"       the unit is a
    require "a.rb.rb"    looks up "a.rb"    the unit is a
-/

namespace RubyJs

namespace Builder

/-! ## One unit for a key -/

/-- A bundle has no two units of the same name. -/
theorem build_units_nodup (b : Builder) (entry : String) (a : Artifact)
    (h : b.build entry = .ok a) : a.units.Nodup := by
  obtain ⟨w, hreached, rfl⟩ := build_reached h
  have hnames : Config.names ⟨[], w⟩ = (b.finish w).units := by
    simp [Config.names, openNames, finish, assemble]
  exact hnames ▸ hreached.registered.nodup

/-- A builder for two units that need each other, one of them by names of many spellings and by its
directory too. The entry is loaded ahead. -/
def respelled : Builder where
  reader := (MemoryStore.ofFiles
    [(⟨"lib/main.rb"⟩, "require 't/a'\nrequire './t//a.rb'\nrequire_tree 't/'\nrequire 's.rb'"),
      (⟨"lib/t/a.rb"⟩, "require_relative '../main.rb'")]).reader
  options := { preload := ["./main.rb", "x/../s"], stubs := ["s.js"] }
  paths := [⟨"lib"⟩]

theorem build_units_nodup_respelled : ∃ a, respelled.build "main.rb" = .ok a ∧
    a.units = ["t/a", "s", "main"] ∧ a.units.Nodup := by
  have hbuilt : ∃ a, respelled.build "main.rb" = .ok a ∧ a.units = ["t/a", "s", "main"] :=
    exists_ok_of_any (by decide +kernel)
  obtain ⟨a, hbuild, hunits⟩ := hbuilt
  exact ⟨a, hbuild, hunits, build_units_nodup respelled "main.rb" a hbuild⟩

/-! ## Declarations of emitted units -/

/-- That a record is made from a unit with these declarations. -/
inductive Emits (b : Builder) : Record → List Declaration → Prop where
  | stub {logical : String} {preload : Bool} {c : Compiled}
      (stubbed : b.isStub logical = true)
      (compiled : (SourceUnit.stub logical).asModule false = .ok c) :
      Emits b ⟨logical, .module, c.javascript, preload⟩ []
  | native {file : Resolved} {text : String} {role : Role}
      (found : b.Finds file) (read : b.reader.read file.path = .ok text)
      (processor : file.processor = .javascript) :
      Emits b (nativeRecord (SourceUnit.ofResolved file text) role) []
  | ruby {file : Resolved} {text : String} {role : Role} {c : Compiled}
      (found : b.Finds file) (read : b.reader.read file.path = .ok text)
      (processor : file.processor = .ruby)
      (compiled : compileFor (SourceUnit.ofResolved file text) role = .ok c) :
      Emits b (compiledRecord (SourceUnit.ofResolved file text) c.javascript role) c.declarations

theorem Makes.emits {b : Builder} {r : Record} {edges : List Edge} (h : b.Makes r edges) :
    ∃ ds, b.Emits r ds ∧ b.edgesOf r.logical ds = .ok edges := by
  cases h with
  | stub hstub hc => exact ⟨[], .stub hstub hc, rfl⟩
  | native hfound hread hp => exact ⟨[], .native hfound hread hp, rfl⟩
  | ruby hfound hread hp hc hedges =>
      refine ⟨_, .ruby hfound hread hp hc, ?_⟩
      rw [compiledRecord_logical]
      exact hedges

/-- A direct declaration stands for an edge to the logical name of what it names. -/
theorem mem_edgesOf_direct {b : Builder} {source n : String} {ds : List Declaration}
    {edges : List Edge} (h : b.edgesOf source ds = .ok edges) (hn : ⟨n, .direct⟩ ∈ ds) :
    ⟨source, LogicalName.normalize n, .direct⟩ ∈ edges := by
  induction ds generalizing edges with
  | nil => exact absurd hn List.not_mem_nil
  | cons d ds ih =>
      obtain ⟨first, hfirst, h⟩ := bind_eq_ok h
      obtain ⟨rest, hrest, h⟩ := bind_eq_ok h
      obtain rfl := Except.ok.inj h
      rcases List.mem_cons.mp hn with rfl | hn
      · obtain rfl := Except.ok.inj hfirst
        exact List.mem_append_left _ List.mem_cons_self
      · exact List.mem_append_right _ (ih hrest hn)

/-- A call that declares a direct need was written with some name, which is normalised once. -/
theorem declaration?_direct {c : Call Expr} {file n : String} {inClass : Bool}
    (h : c.declaration? file inClass = some ⟨n, .direct⟩) : ∃ t, n = LogicalName.normalize t := by
  unfold Call.declaration? at h
  split at h
  · obtain ⟨t, -, ht⟩ := Option.map_eq_some_iff.mp h
    exact ⟨t, (congrArg Declaration.name ht).symm⟩
  · obtain ⟨t, -, ht⟩ := Option.map_eq_some_iff.mp h
    have hname : LogicalName.relativeTo file t = n := congrArg Declaration.name ht
    unfold LogicalName.relativeTo at hname
    split at hname
    · exact ⟨_, hname.symm⟩
    · exact ⟨_, hname.symm⟩
  · obtain ⟨t, -, ht⟩ := Option.map_eq_some_iff.mp h
    exact absurd (congrArg Declaration.kind ht) (by simp)
  · split at h
    · obtain ⟨t, -, ht⟩ := Option.map_eq_some_iff.mp h
      exact absurd (congrArg Declaration.kind ht) (by simp)
    · exact absurd h (by simp)
  · exact absurd h (by simp)

theorem compile_direct {text n : String} {o : CompileOptions} {c : Compiled}
    (h : compile text o = .ok c) (hn : ⟨n, .direct⟩ ∈ c.declarations) :
    ∃ t, n = LogicalName.normalize t := by
  unfold compile at h
  split at h
  · exact absurd h (by simp)
  · rename_i p _
    unfold compileProgram at h
    split at h
    · exact absurd h (by simp)
    · rename_i g hg
      obtain rfl := Except.ok.inj h
      obtain ⟨e, he, call, p', hmention, hd⟩ := (mem_declarations_iff hg _).mp hn
      exact declaration?_direct hd

/-- What an emitted unit needs directly was normalised once. -/
theorem Emits.direct {b : Builder} {r : Record} {ds : List Declaration} (h : b.Emits r ds)
    {n : String} (hn : ⟨n, .direct⟩ ∈ ds) : ∃ t, n = LogicalName.normalize t := by
  cases h with
  | stub => exact absurd hn List.not_mem_nil
  | native => exact absurd hn List.not_mem_nil
  | @ruby file text role c hfound hread hp hc =>
      cases role with
      | entry => exact compile_direct hc hn
      | module preload => exact compile_direct hc hn

/-! ## A unit for a lookup -/

/-- The units of a bundle, with what they declare: a name that is needed directly was normalised
once, it is normalised again to find its unit, and if that changes nothing the unit, or what the
host has loaded, has the very name. -/
theorem build_keys (b : Builder) (entry : String) (a : Artifact) (h : b.build entry = .ok a) :
    ∃ units : List (Record × List Declaration),
      a = assemble (units.map (·.1)) a.edges b.options.banner ∧
      ∀ u ∈ units, b.Emits u.1 u.2 ∧ ∀ n, ⟨n, .direct⟩ ∈ u.2 →
        (∃ t, n = LogicalName.normalize t) ∧
        (LogicalName.normalize n ∈ a.units ∨
          b.isPrerequired (LogicalName.normalize n) = true) ∧
        (LogicalName.fold n = n → (LogicalName.splitExtension n).2 = none →
          n ∈ a.units ∨ b.isPrerequired n = true) := by
  obtain ⟨w, hreached, rfl⟩ := build_reached h
  have hnames : Config.names ⟨[], w⟩ = (b.finish w).units := by
    simp [Config.names, openNames, finish, assemble]
  have hreg := hreached.registered
  -- Each record with the declarations of its unit.
  have hunits : ∀ r ∈ w.records, ∃ ds, b.Emits r ds ∧ ∀ n, ⟨n, .direct⟩ ∈ ds →
      LogicalName.normalize n ∈ (b.finish w).units ∨
        b.isPrerequired (LogicalName.normalize n) = true := by
    intro r hr
    obtain ⟨edges, hmade, htargets⟩ := hreached.followed.emitted r hr
    obtain ⟨ds, hemits, hedges⟩ := hmade.emits
    refine ⟨ds, hemits, fun n hn => ?_⟩
    rw [← hnames]
    exact hreg.named _ (htargets _ (mem_edgesOf_direct hedges hn))
  choose! ds hds using hunits
  refine ⟨w.records.map fun r => (r, ds r), ?_, ?_⟩
  · have hfst : ((fun u : Record × List Declaration => u.1) ∘ fun r => (r, ds r)) = id := rfl
    rw [List.map_map, hfst, List.map_id]
    rfl
  · intro u hu
    obtain ⟨r, hr, rfl⟩ := List.mem_map.mp hu
    obtain ⟨hemits, hkeys⟩ := hds r hr
    refine ⟨hemits, fun n hn => ⟨hemits.direct hn, hkeys n hn, fun hfold hext => ?_⟩⟩
    have hstable := LogicalName.normalize_eq_self_iff.mpr ⟨hfold, hext⟩
    have hkey := hkeys n hn
    rwa [hstable] at hkey

/-- `require "b"` and a `require` of a name with two extensions -/
def doubleText : String := "require 'b'\nrequire 'a.rb.rb'"

/-- A builder for a unit that needs a file with two extensions. -/
def doublyExtended : Builder where
  reader := (MemoryStore.ofFiles
    [(⟨"lib/main.rb"⟩, doubleText), (⟨"lib/a.rb"⟩, ""), (⟨"lib/a.rb.rb"⟩, ""),
      (⟨"lib/b.rb"⟩, "")]).reader
  paths := [⟨"lib"⟩]

/-- The lookup of a name that has an extension left finds nothing: the unit is in the bundle under
the name without it. -/
theorem build_keys_doublyExtended : ∃ a c, doublyExtended.build "main" = .ok a ∧
    a.units = ["b", "a", "main"] ∧
    compileFor (SourceUnit.ofResolved ⟨"main", ⟨"lib/main.rb"⟩, .ruby⟩ doubleText) .entry = .ok c ∧
    c.declarations = [⟨"b", .direct⟩, ⟨"a.rb", .direct⟩] ∧ "a.rb" ∉ a.units ∧
    doublyExtended.isPrerequired "a.rb" = false ∧
    ∃ units : List (Record × List Declaration),
      a = assemble (units.map (·.1)) a.edges doublyExtended.options.banner ∧
      ∀ u ∈ units, doublyExtended.Emits u.1 u.2 ∧ ∀ n, ⟨n, .direct⟩ ∈ u.2 →
        (∃ t, n = LogicalName.normalize t) ∧
        (LogicalName.normalize n ∈ a.units ∨
          doublyExtended.isPrerequired (LogicalName.normalize n) = true) ∧
        (LogicalName.fold n = n → (LogicalName.splitExtension n).2 = none →
          n ∈ a.units ∨ doublyExtended.isPrerequired n = true) := by
  have hbuilt : ∃ a, doublyExtended.build "main" = .ok a ∧ a.units = ["b", "a", "main"] :=
    exists_ok_of_any (by decide +kernel)
  have hcompiled : ∃ c, compileFor
      (SourceUnit.ofResolved ⟨"main", ⟨"lib/main.rb"⟩, .ruby⟩ doubleText) .entry = .ok c ∧
      c.declarations = [⟨"b", .direct⟩, ⟨"a.rb", .direct⟩] :=
    exists_ok_of_any (by decide +kernel)
  obtain ⟨a, hbuild, hunits⟩ := hbuilt
  obtain ⟨c, hcompile, hdeclared⟩ := hcompiled
  refine ⟨a, c, hbuild, hunits, hcompile, hdeclared, ?_, by decide, ?_⟩
  · rw [hunits]
    decide
  · exact build_keys doublyExtended "main" a hbuild

end Builder

end RubyJs
