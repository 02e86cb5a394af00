import RubyJs.Path
import RubyJs.Proofs.Names.Folding

set_option autoImplicit false

/-! # Names seen from a directory

The path of a folded name seen from a directory has the components of the directory and then those
of the name; an absolute name has its own components only:

    lib + a/../b.rb     lib, b.rb
    lib + /b.rb         /, b.rb

So a folded name can be told from the path and the directory (`Path.nameFrom_join`), and a file can
be meant by few names.
-/

namespace RubyJs

open LogicalName

/-- The segment that a component is written with. -/
def Component.segment : Component → String
  | .parent => ".."
  | .normal name => name
  | _ => ""

namespace Path

variable {segs : List String}

theorem segment_componentOf? {s : String} (h : IsStep s) :
    (componentOf? s).map Component.segment = some s := by
  unfold componentOf?
  rw [if_neg (by simpa using ⟨h.1, h.2.1⟩)]
  split
  · rename_i hdots
    rw [beq_iff_eq.mp hdots]
    rfl
  · rfl

theorem map_segment_filterMap (h : ∀ s ∈ segs, IsStep s) :
    (segs.filterMap componentOf?).map Component.segment = segs := by
  rw [List.map_filterMap]
  induction segs with
  | nil => rfl
  | cons s segs ih =>
      have hrest := ih fun t ht => h t (List.mem_cons_of_mem _ ht)
      simp only [List.filterMap_cons, segment_componentOf? (h s List.mem_cons_self), hrest]

/-! ## The components of a joined path -/

theorem isAbsolute_append_slash (a b : String) : isAbsolute (a ++ "/" ++ b) = isAbsolute (a ++ "/") :=
  isAbsolute_append (by simp) b

theorem segments_slash (a : String) : segments (a ++ "/") = segments a ++ [""] := by
  have h := segments_append_slash a ""
  rwa [String.append_empty] at h

/-- What stands after a slash adds its own components. -/
theorem components_append_slash (a b : String) : components ⟨a ++ "/" ++ b⟩ =
    components ⟨a ++ "/"⟩ ++ (segments b).filterMap componentOf? := by
  have hvoid : componentOf? "" = none := rfl
  unfold components
  simp only [segments_append_slash, segments_slash, isAbsolute_append_slash]
  cases ha : segments a with
  | nil => exact absurd ha (segments_ne_nil a)
  | cons first rest => simp [List.filterMap_append, hvoid]

/-- A slash at the end means nothing after a name. -/
theorem components_slash {a : String} (h : a ≠ "") : components ⟨a ++ "/"⟩ = components ⟨a⟩ := by
  have hvoid : componentOf? "" = none := rfl
  unfold components
  simp only [segments_slash, isAbsolute_append h]
  cases ha : segments a with
  | nil => exact absurd ha (segments_ne_nil a)
  | cons first rest => simp [List.filterMap_append, hvoid]

theorem components_absolute {name : String} (h : isAbsolute name = true) :
    components ⟨name⟩ = .root :: (segments name).tail.filterMap componentOf? := by
  obtain ⟨rest, hrest⟩ := segments_of_isAbsolute h
  simp [components, hrest, h]

/-- The segments of a folded relative name, less the empty one that stands for none. -/
theorem segments_folded (h : Canonical segs) :
    (segments (ofSegments false segs)).filterMap componentOf? = segs.filterMap componentOf? := by
  rw [segments_ofSegments h.1]
  by_cases hnil : segs = []
  · rw [hnil]
    rfl
  · rw [if_neg hnil]
    rfl

theorem components_relative (h : Canonical segs) :
    components ⟨ofSegments false segs⟩ = segs.filterMap componentOf? := by
  rw [← segments_folded h]
  have habs := isAbsolute_ofSegments h.1 false
  unfold components
  rw [segments_ofSegments h.1]
  by_cases hnil : segs = []
  · rw [hnil]
    rfl
  · rw [if_neg hnil, if_neg Bool.false_ne_true, List.nil_append]
    cases segs with
    | nil => exact absurd rfl hnil
    | cons s rest =>
        have hs := (h.1 s List.mem_cons_self).2.1
        simp only [habs]
        rw [if_neg Bool.false_ne_true, if_neg (by simpa using hs)]
        cases hc : componentOf? s with
        | none => rw [List.filterMap_cons_none hc]; rfl
        | some c => rw [List.filterMap_cons_some hc]; rfl

theorem components_join (h : Canonical segs) (base : Path) :
    (base.join (ofSegments false segs)).components =
      base.components ++ segs.filterMap componentOf? := by
  unfold join
  rw [isAbsolute_ofSegments h.1, Bool.false_or]
  by_cases hempty : base.text = ""
  · have hbase : base.components = [] := by
      rw [show base = ⟨""⟩ from congrArg Path.mk hempty]
      rfl
    rw [if_pos (by simp [hempty]), components_relative h, hbase, List.nil_append]
  · rw [if_neg (by simpa using hempty)]
    by_cases hslash : base.text.toList.getLast? = some '/'
    · obtain ⟨cs, hcs⟩ := List.getLast?_eq_some_iff.mp hslash
      have htext : base.text = String.ofList cs ++ "/" := by
        rw [← String.toList_inj, hcs]
        simp
      rw [if_pos (by simpa using hslash), htext, components_append_slash, segments_folded h,
        ← htext]
    · rw [if_neg (by simpa using hslash), components_append_slash, segments_folded h,
        components_slash hempty]

theorem components_join_absolute (h : Canonical segs) (base : Path) :
    (base.join (ofSegments true segs)).components = .root :: segs.filterMap componentOf? := by
  have habs := isAbsolute_ofSegments h.1 true
  unfold join
  rw [habs, Bool.true_or, if_pos rfl, components_absolute habs, segments_ofSegments h.1]
  by_cases hnil : segs = []
  · rw [hnil]
    rfl
  · rw [if_neg hnil]
    rfl

/-! ## Names that mean a file -/

/-- The folded name of a file seen from a directory, or its absolute name. -/
def nameFrom (base file : Path) (absolute : Bool) : String :=
  ofSegments absolute
    ((file.components.drop (if absolute then 1 else base.components.length)).map Component.segment)

/-- A folded name is told by the directory it is seen from and the file that it means there. -/
theorem nameFrom_join {base file : Path} {name : String} (h : fold name = name)
    (hfile : file.components = (base.join name).components) :
    base.nameFrom file (isAbsolute name) = name := by
  obtain ⟨segs, hcanon, hname⟩ := exists_canonical h
  rw [hname] at hfile
  rw [nameFrom, hfile]
  cases habs : isAbsolute name with
  | false =>
      rw [habs] at hname
      rw [components_join hcanon, if_neg Bool.false_ne_true, List.drop_left,
        map_segment_filterMap hcanon.1, ← hname]
  | true =>
      rw [habs] at hname
      rw [components_join_absolute hcanon, if_pos rfl, List.drop_one, List.tail_cons,
        map_segment_filterMap hcanon.1, ← hname]

end Path

end RubyJs
