import Mathlib.Algebra.GroupWithZero.Nat
import Mathlib.Data.List.Induction
import RubyJs.LogicalName

set_option autoImplicit false

/-! # Folded names

A name is folded by dropping the segments that mean nothing and by taking back those before a `..`.
What is left is a list of plain segments after a run of `..`:

    ../../a/b       ..  ..  a  b

Such a list is `Canonical`. Folding always gives one and leaves it alone, so folding twice is folding
once (`LogicalName.fold_fold`). Taking off the extension is not like this: the stem can have an
extension again, or end in a segment that means nothing. A name stands for itself exactly if it is
folded and has no extension (`LogicalName.normalize_eq_self_iff`).
-/

namespace RubyJs.LogicalName

variable {segs read : List String} {name s : String}

/-! ## Segments -/

theorem splitSlash_ne_nil (cs : List Char) : splitSlash cs ≠ [] := by
  cases cs with
  | nil => exact List.cons_ne_nil _ _
  | cons c cs =>
      rw [splitSlash]
      split
      · exact List.cons_ne_nil _ _
      · split <;> exact List.cons_ne_nil _ _

/-- A slash divides the parts before it from those after it. -/
theorem splitSlash_append (cs ds : List Char) :
    splitSlash (cs ++ '/' :: ds) = splitSlash cs ++ splitSlash ds := by
  induction cs with
  | nil => rfl
  | cons c cs ih =>
      rw [List.cons_append, splitSlash, splitSlash, ih]
      by_cases hc : (c == '/') = true
      · rw [if_pos hc, if_pos hc, List.cons_append]
      · rw [if_neg hc, if_neg hc]
        cases hs : splitSlash cs with
        | nil => exact absurd hs (splitSlash_ne_nil cs)
        | cons s ss => rfl

theorem splitSlash_of_notMem {cs : List Char} (h : '/' ∉ cs) : splitSlash cs = [cs] := by
  induction cs with
  | nil => rfl
  | cons c cs ih =>
      rw [List.mem_cons, not_or] at h
      rw [splitSlash, if_neg (by simpa using Ne.symm h.1), ih h.2]

theorem notMem_of_mem_splitSlash {cs s : List Char} (h : s ∈ splitSlash cs) : '/' ∉ s := by
  induction cs generalizing s with
  | nil =>
      rw [List.mem_singleton.mp h]
      exact List.not_mem_nil
  | cons c cs ih =>
      rw [splitSlash] at h
      split at h
      · rcases List.mem_cons.mp h with rfl | h
        · exact List.not_mem_nil
        · exact ih h
      · rename_i hc
        have hne : '/' ≠ c := fun heq => hc (by simp [← heq])
        split at h
        · rw [List.mem_singleton.mp h]
          simpa using hne
        · rename_i first rest heq
          rcases List.mem_cons.mp h with rfl | h
          · rw [List.mem_cons, not_or]
            exact ⟨hne, ih (heq ▸ List.mem_cons_self)⟩
          · exact ih (heq ▸ List.mem_cons_of_mem _ h)

theorem segments_ne_nil (name : String) : segments name ≠ [] := by
  intro h
  exact splitSlash_ne_nil _ (List.map_eq_nil_iff.mp h)

theorem segments_append_slash (a b : String) : segments (a ++ "/" ++ b) = segments a ++ segments b := by
  have hchars : (a ++ "/" ++ b).toList = a.toList ++ '/' :: b.toList := by simp
  rw [segments, hchars, splitSlash_append, List.map_append]
  rfl

theorem segments_of_notMem (h : '/' ∉ s.toList) : segments s = [s] := by
  rw [segments, splitSlash_of_notMem h, List.map_singleton, String.ofList_toList]

theorem notMem_of_mem_segments (h : s ∈ segments name) : '/' ∉ s.toList := by
  obtain ⟨cs, hcs, rfl⟩ := List.mem_map.mp h
  rw [String.toList_ofList]
  exact notMem_of_mem_splitSlash hcs

theorem segments_intercalate (hne : segs ≠ []) (h : ∀ s ∈ segs, '/' ∉ s.toList) :
    segments ("/".intercalate segs) = segs := by
  induction segs with
  | nil => exact absurd rfl hne
  | cons s rest ih =>
      cases rest with
      | nil =>
          rw [String.intercalate_singleton]
          exact segments_of_notMem (h s List.mem_cons_self)
      | cons t rest =>
          rw [String.intercalate_cons_cons, segments_append_slash,
            segments_of_notMem (h s List.mem_cons_self),
            ih (List.cons_ne_nil _ _) fun u hu => h u (List.mem_cons_of_mem _ hu)]
          rfl

/-! ## Canonical lists of segments -/

/-- Whether a segment is the name of something: it is neither empty nor `.`, and has no slash. -/
def IsStep (s : String) : Prop := s ≠ "" ∧ s ≠ "." ∧ '/' ∉ s.toList

/-- That segments are steps, and that `..` stands only at the front. -/
def Canonical (segs : List String) : Prop :=
  (∀ s ∈ segs, IsStep s) ∧ ∃ k rest, segs = List.replicate k ".." ++ rest ∧ ".." ∉ rest

theorem canonical_nil : Canonical [] := ⟨by simp, 0, [], rfl, List.not_mem_nil⟩

/-- Another segment can be put at the end if it is a step, and no `..` after a plain one. -/
theorem Canonical.append (h : Canonical segs) (hs : IsStep s)
    (hup : s = ".." → ∀ t ∈ segs, t = "..") : Canonical (segs ++ [s]) := by
  obtain ⟨hsteps, k, rest, rfl, hrest⟩ := h
  refine ⟨?_, ?_⟩
  · intro t ht
    rcases List.mem_append.mp ht with ht | ht
    · exact hsteps t ht
    · rw [List.mem_singleton.mp ht]
      exact hs
  · by_cases hdots : s = ".."
    · have hnil : rest = [] := by
        refine List.eq_nil_iff_forall_not_mem.mpr fun t ht => hrest ?_
        rw [← hup hdots t (List.mem_append_right _ ht)]
        exact ht
      refine ⟨k + 1, [], ?_, List.not_mem_nil⟩
      rw [hnil, hdots, List.replicate_succ', List.append_nil, List.append_nil]
    · refine ⟨k, rest ++ [s], List.append_assoc _ _ _, ?_⟩
      intro hmem
      rcases List.mem_append.mp hmem with hmem | hmem
      · exact hrest hmem
      · exact hdots (List.mem_singleton.mp hmem).symm

theorem Canonical.left (h : Canonical (segs ++ [s])) :
    Canonical segs ∧ IsStep s ∧ (s = ".." → ∀ t ∈ segs, t = "..") := by
  obtain ⟨hsteps, k, rest, heq, hrest⟩ := h
  have hstep : ∀ t ∈ segs, IsStep t := fun t ht => hsteps t (List.mem_append_left _ ht)
  have hlast : IsStep s := hsteps s (List.mem_append_right _ List.mem_cons_self)
  rcases List.eq_nil_or_concat rest with rfl | ⟨rest', t, rfl⟩
  · -- All segments are `..`.
    rw [List.append_nil] at heq
    have hall : ∀ t ∈ segs ++ [s], t = ".." := fun t ht => List.eq_of_mem_replicate (heq ▸ ht)
    have hsegs : segs = List.replicate segs.length ".." :=
      List.eq_replicate_of_mem fun t ht => hall t (List.mem_append_left _ ht)
    refine ⟨⟨hstep, segs.length, [], ?_, List.not_mem_nil⟩, hlast, fun _ t ht => ?_⟩
    · rw [List.append_nil]
      exact hsegs
    · exact hall t (List.mem_append_left _ ht)
  · rw [List.concat_eq_append, ← List.append_assoc] at heq
    obtain ⟨hsegs, hst⟩ := List.append_inj' heq rfl
    obtain rfl : s = t := by simpa using hst
    rw [List.concat_eq_append, List.mem_append, not_or] at hrest
    refine ⟨⟨hstep, k, rest', hsegs, hrest.1⟩, hlast, fun hdots => ?_⟩
    exact absurd (List.mem_singleton.mpr hdots.symm) hrest.2

theorem Canonical.last_up {last : String} (h : Canonical (last :: read).reverse)
    (hlast : last = "..") : ∀ t ∈ last :: read, t = ".." := by
  rw [List.reverse_cons] at h
  intro t ht
  rcases List.mem_cons.mp ht with rfl | ht
  · exact hlast
  · exact h.left.2.2 hlast t (List.mem_reverse.mpr ht)

/-- Reading one more segment keeps the segments read so far canonical. -/
theorem canonical_foldStep (h : Canonical read.reverse) (hs : '/' ∉ s.toList) :
    Canonical (foldStep read s).reverse := by
  unfold foldStep
  split
  · exact h
  · rename_i hvoid
    have hstep : IsStep s := by
      rw [Bool.or_eq_true, not_or, beq_iff_eq, beq_iff_eq] at hvoid
      exact ⟨hvoid.1, hvoid.2, hs⟩
    split
    · rename_i hdots
      obtain rfl : s = ".." := beq_iff_eq.mp hdots
      cases read with
      | nil => exact h.append hstep (by simp)
      | cons last rest =>
          dsimp only
          split
          · rename_i hlast
            have hall := h.last_up (beq_iff_eq.mp hlast)
            rw [List.reverse_cons (a := "..")]
            exact h.append hstep fun _ t ht => hall t (List.mem_reverse.mp ht)
          · rw [List.reverse_cons] at h
            exact h.left.1
    · rename_i hdots
      rw [List.reverse_cons]
      exact h.append hstep fun heq => absurd (beq_iff_eq.mpr heq) hdots

/-- Reading a segment that can stand there puts it at the end. -/
theorem foldStep_of_canonical (h : Canonical (s :: read).reverse) :
    foldStep read s = s :: read := by
  rw [List.reverse_cons] at h
  obtain ⟨-, hstep, hup⟩ := h.left
  unfold foldStep
  rw [if_neg (by simpa using ⟨hstep.1, hstep.2.1⟩)]
  split
  · rename_i hdots
    obtain rfl : s = ".." := beq_iff_eq.mp hdots
    cases read with
    | nil => rfl
    | cons last rest =>
        have hlast : last = ".." := hup rfl last (by simp)
        rw [hlast]
        rfl
  · rfl

theorem canonical_foldl (h : Canonical read.reverse) (hsegs : ∀ s ∈ segs, '/' ∉ s.toList) :
    Canonical (segs.foldl foldStep read).reverse := by
  induction segs generalizing read with
  | nil => exact h
  | cons s segs ih =>
      exact ih (canonical_foldStep h (hsegs s List.mem_cons_self))
        fun t ht => hsegs t (List.mem_cons_of_mem _ ht)

theorem foldl_of_canonical (h : Canonical segs) : segs.foldl foldStep [] = segs.reverse := by
  induction segs using List.reverseRecOn with
  | nil => rfl
  | append_singleton segs s ih =>
      rw [List.foldl_append, ih h.left.1, List.foldl_cons, List.foldl_nil,
        foldStep_of_canonical (by simpa using h), List.reverse_append]
      rfl

theorem canonical_foldSegments (name : String) : Canonical (foldSegments (segments name)) :=
  canonical_foldl canonical_nil fun _ h => notMem_of_mem_segments h

theorem foldSegments_of_canonical (h : Canonical segs) : foldSegments segs = segs := by
  rw [foldSegments, foldl_of_canonical h, List.reverse_reverse]

/-! ## Folded names -/

theorem isAbsolute_ofSegments (h : ∀ s ∈ segs, IsStep s) (absolute : Bool) :
    isAbsolute (ofSegments absolute segs) = absolute := by
  cases absolute with
  | true => simp [isAbsolute, ofSegments]
  | false =>
      cases segs with
      | nil => rfl
      | cons s rest =>
          obtain ⟨hne, -, hslash⟩ := h s List.mem_cons_self
          have hchars : ∃ cs, (ofSegments false (s :: rest)).toList = s.toList ++ cs := by
            cases rest with
            | nil => exact ⟨[], by simp [ofSegments]⟩
            | cons t rest =>
                exact ⟨'/' :: ("/".intercalate (t :: rest)).toList,
                  by simp [ofSegments, String.intercalate_cons_cons]⟩
          obtain ⟨cs, hcs⟩ := hchars
          rw [isAbsolute, hcs]
          cases hs : s.toList with
          | nil => exact absurd (String.toList_inj.mp hs) hne
          | cons c ds =>
              rw [hs, List.mem_cons, not_or] at hslash
              simpa using Ne.symm hslash.1

/-- The segments of a name made from steps are those steps, after an empty one if the name is
absolute, and an empty one alone if there are none. -/
theorem segments_ofSegments (h : ∀ s ∈ segs, IsStep s) (absolute : Bool) :
    segments (ofSegments absolute segs) =
      (if absolute then [""] else []) ++ (if segs = [] then [""] else segs) := by
  have hinner : segments ("/".intercalate segs) = if segs = [] then [""] else segs := by
    split
    · rename_i hnil
      rw [hnil]
      rfl
    · rename_i hne
      exact segments_intercalate hne fun s hs => (h s hs).2.2
  cases absolute with
  | false =>
      have htext : ofSegments false segs = "/".intercalate segs := by simp [ofSegments]
      rw [htext, hinner]
      rfl
  | true =>
      have htext : ofSegments true segs = "" ++ "/" ++ "/".intercalate segs := by simp [ofSegments]
      rw [htext, segments_append_slash, hinner]
      rfl

theorem foldSegments_cons_empty (segs : List String) :
    foldSegments ("" :: segs) = foldSegments segs := rfl

theorem foldSegments_ofSegments (h : Canonical segs) (absolute : Bool) :
    foldSegments (segments (ofSegments absolute segs)) = segs := by
  rw [segments_ofSegments h.1]
  have hinner : foldSegments (if segs = [] then [""] else segs) = segs := by
    split
    · rename_i hnil
      rw [hnil]
      rfl
    · exact foldSegments_of_canonical h
  cases absolute with
  | false => rw [if_neg Bool.false_ne_true, List.nil_append, hinner]
  | true => rw [if_pos rfl, List.singleton_append, foldSegments_cons_empty, hinner]

/-- A name made from canonical segments is folded. -/
theorem fold_ofSegments (h : Canonical segs) (absolute : Bool) :
    fold (ofSegments absolute segs) = ofSegments absolute segs := by
  rw [fold, isAbsolute_ofSegments h.1, foldSegments_ofSegments h]

theorem fold_fold (name : String) : fold (fold name) = fold name :=
  fold_ofSegments (canonical_foldSegments name) _

theorem isAbsolute_fold (name : String) : isAbsolute (fold name) = isAbsolute name :=
  isAbsolute_ofSegments (canonical_foldSegments name).1 _

theorem isAbsolute_append {a : String} (h : a ≠ "") (b : String) :
    isAbsolute (a ++ b) = isAbsolute a := by
  cases hchars : a.toList with
  | nil => exact absurd (String.toList_inj.mp hchars) h
  | cons c cs => simp [isAbsolute, hchars]

/-- What stands before a slash may be folded first. -/
theorem fold_append_slash {a : String} (h : fold a ≠ "") (b : String) :
    fold (a ++ "/" ++ b) = fold (fold a ++ "/" ++ b) := by
  have hne : a ≠ "" := fun hnil => h (by rw [hnil]; rfl)
  have hread : (segments (fold a)).foldl foldStep [] = (segments a).foldl foldStep [] :=
    List.reverse_inj.mp (foldSegments_ofSegments (canonical_foldSegments a) _)
  have hsegs : foldSegments (segments (a ++ "/" ++ b)) =
      foldSegments (segments (fold a ++ "/" ++ b)) := by
    rw [segments_append_slash, segments_append_slash, foldSegments, foldSegments, List.foldl_append,
      List.foldl_append, hread]
  have habs : isAbsolute (a ++ "/" ++ b) = isAbsolute (fold a ++ "/" ++ b) := by
    rw [String.append_assoc, String.append_assoc, isAbsolute_append hne, isAbsolute_append h,
      isAbsolute_fold]
  rw [fold, hsegs, habs]
  rfl

/-- **Folding gives a canonical form.** What it makes of a name are canonical segments, after a slash
if the name is absolute. It keeps whether a name is absolute and leaves what is folded alone, and of
a longer name what stands before a slash may be folded first, unless nothing is left of it. -/
theorem fold_canonicalises (name : String) :
    (∃ segs, Canonical segs ∧ fold name = ofSegments (isAbsolute name) segs)
    ∧ isAbsolute (fold name) = isAbsolute name
    ∧ fold (fold name) = fold name
    ∧ ∀ rest, fold name ≠ "" → fold (name ++ "/" ++ rest) = fold (fold name ++ "/" ++ rest) :=
  ⟨⟨_, canonical_foldSegments name, rfl⟩, isAbsolute_fold name, fold_fold name,
    fun rest h => fold_append_slash h rest⟩

/-- Above the root `..` stays, and takes nothing back. -/
theorem fold_canonicalises_rooted :
    fold "/../a/./..//" = "/.." ∧ fold ("/../a/./..//" ++ "/" ++ "../b") = "/../../b"
    ∧ fold "/.." = "/.." := by
  obtain ⟨-, -, hfold, hjoin⟩ := fold_canonicalises "/../a/./..//"
  have hvalue : fold "/../a/./..//" = "/.." := by decide +kernel
  rw [hvalue] at hfold
  refine ⟨hvalue, ?_, hfold⟩
  rw [hjoin _ (by rw [hvalue]; decide), hvalue]
  decide +kernel

/-- A folded name is made from canonical segments. -/
theorem exists_canonical (h : fold name = name) :
    ∃ segs, Canonical segs ∧ name = ofSegments (isAbsolute name) segs :=
  ⟨_, canonical_foldSegments name, h.symm⟩

/-! ## Extensions -/

theorem stripSuffix?_eq_some_iff {suffix stem : String} :
    stripSuffix? suffix s = some stem ↔ s = stem ++ suffix := by
  unfold stripSuffix?
  rw [← @String.toList_inj s, String.toList_append]
  split
  · rename_i h
    obtain ⟨t, ht⟩ := List.isSuffixOf_iff_suffix.mp h
    rw [← ht, List.length_append, Nat.add_sub_cancel, List.take_left, Option.some_inj,
      List.append_left_inj, ← String.toList_inj, String.toList_ofList]
  · rename_i h
    refine ⟨fun hnone => (nomatch hnone), fun heq => ?_⟩
    exact absurd (List.isSuffixOf_iff_suffix.mpr ⟨_, heq.symm⟩) h

theorem splitExtension_rb (stem : String) : splitExtension (stem ++ ".rb") = (stem, some .ruby) := by
  rw [splitExtension, stripSuffix?_eq_some_iff.mpr rfl]

theorem splitExtension_js (stem : String) :
    splitExtension (stem ++ ".js") = (stem, some .javascript) := by
  have hnone : stripSuffix? ".rb" (stem ++ ".js") = none := by
    rw [Option.eq_none_iff_forall_ne_some]
    intro t ht
    have hlast := congrArg (fun s : String => s.toList.getLast?)
      (stripSuffix?_eq_some_iff.mp ht)
    simp at hlast
  rw [splitExtension, hnone, stripSuffix?_eq_some_iff.mpr rfl]

theorem splitExtension_append (stem : String) (p : Processor) :
    splitExtension (stem ++ ("." ++ p.extension)) = (stem, some p) := by
  cases p with
  | ruby => exact splitExtension_rb stem
  | javascript => exact splitExtension_js stem

/-- A name ends in one of the two extensions or stays as it is. -/
theorem splitExtension_cases (name : String) :
    name = (splitExtension name).1 ++ ".rb" ∨ name = (splitExtension name).1 ++ ".js" ∨
      splitExtension name = (name, none) := by
  cases hrb : stripSuffix? ".rb" name with
  | some stem =>
      obtain rfl := stripSuffix?_eq_some_iff.mp hrb
      rw [splitExtension_rb]
      exact Or.inl rfl
  | none =>
      cases hjs : stripSuffix? ".js" name with
      | some stem =>
          obtain rfl := stripSuffix?_eq_some_iff.mp hjs
          rw [splitExtension_js]
          exact Or.inr (Or.inl rfl)
      | none =>
          right; right
          rw [splitExtension, hrb]
          dsimp only
          rw [hjs]

/-- A name without an extension is its own stem. -/
theorem splitExtension_stem (h : (splitExtension name).2 = none) :
    (splitExtension name).1 = name := by
  rcases splitExtension_cases name with hext | hext | hext
  · rw [hext, splitExtension_rb] at h
    cases h
  · rw [hext, splitExtension_js] at h
    cases h
  · rw [hext]

/-- A name with an extension is its stem and that extension. -/
theorem eq_stem_append {p : Processor} (h : (splitExtension name).2 = some p) :
    name = (splitExtension name).1 ++ ("." ++ p.extension) := by
  rcases splitExtension_cases name with hext | hext | hext
  · rw [hext, splitExtension_rb] at h
    obtain rfl := Option.some.inj h
    exact hext
  · rw [hext, splitExtension_js] at h
    obtain rfl := Option.some.inj h
    exact hext
  · rw [hext] at h
    cases h

theorem intercalate_append_last (front : List String) (last ext : String) :
    "/".intercalate (front ++ [last]) ++ ext = "/".intercalate (front ++ [last ++ ext]) := by
  induction front with
  | nil => simp
  | cons s rest ih =>
      cases rest with
      | nil => simp [String.intercalate_cons_cons, String.append_assoc]
      | cons t rest =>
          simp only [List.cons_append, String.intercalate_cons_cons] at ih ⊢
          rw [String.append_assoc, ih]

/-- A folded name stays folded when an extension is put to it. -/
theorem fold_append_extension {ext : String} (h : fold name = name) (hdot : ext ≠ "")
    (hext : ∀ t : String, t ++ ext ≠ "." ∧ t ++ ext ≠ "..") (hslash : '/' ∉ ext.toList) :
    fold (name ++ ext) = name ++ ext := by
  obtain ⟨segs, hcanon, hname⟩ := exists_canonical h
  -- The name with its extension is made from the segments with another last one.
  have hlast : ∀ t, '/' ∉ t.toList → IsStep (t ++ ext) := by
    intro t ht
    refine ⟨fun hempty => hdot ?_, (hext t).1, by simp [ht, hslash]⟩
    exact (by simpa using congrArg String.toList hempty : t = "" ∧ ext = "").2
  rcases List.eq_nil_or_concat segs with rfl | ⟨front, last, rfl⟩
  · have hstep := hlast "" (by simp)
    have hsegs : Canonical ([] ++ ["" ++ ext]) :=
      canonical_nil.append hstep fun heq => absurd heq (hext "").2
    have htext : name ++ ext = ofSegments (isAbsolute name) ([] ++ ["" ++ ext]) := by
      conv_lhs => rw [hname]
      cases isAbsolute name <;> simp [ofSegments]
    rw [htext]
    exact fold_ofSegments hsegs _
  · rw [List.concat_eq_append] at hcanon hname
    obtain ⟨hfront, hstep, -⟩ := hcanon.left
    have hsegs : Canonical (front ++ [last ++ ext]) :=
      hfront.append (hlast last hstep.2.2) fun heq => absurd heq (hext last).2
    have htext : name ++ ext = ofSegments (isAbsolute name) (front ++ [last ++ ext]) := by
      conv_lhs => rw [hname]
      rw [ofSegments, ofSegments, String.append_assoc, intercalate_append_last]
    rw [htext]
    exact fold_ofSegments hsegs _

/-! ## Lengths -/

/-- The number of characters of segments, each with the slash after it. -/
def weight (segs : List String) : Nat := (segs.map fun s => s.toList.length + 1).sum

theorem weight_cons (s : String) (segs : List String) :
    weight (s :: segs) = s.toList.length + 1 + weight segs := by
  simp [weight]

theorem weight_segments (name : String) : weight (segments name) = name.toList.length + 1 := by
  have key : ∀ cs : List Char, weight ((splitSlash cs).map String.ofList) = cs.length + 1 := by
    intro cs
    induction cs with
    | nil => rfl
    | cons c cs ih =>
        rw [splitSlash]
        split
        · rw [List.map_cons, weight_cons, ih, String.toList_ofList, List.length_nil,
            List.length_cons]
          omega
        · split
          · rename_i hnil
            exact absurd hnil (splitSlash_ne_nil cs)
          · rename_i s ss heq
            rw [heq, List.map_cons, weight_cons, String.toList_ofList] at ih
            rw [List.map_cons, weight_cons, String.toList_ofList, List.length_cons,
              List.length_cons]
            omega
  exact key name.toList

theorem weight_foldStep (read : List String) (s : String) :
    weight (foldStep read s) ≤ weight read + (s.toList.length + 1) := by
  unfold foldStep
  split
  · omega
  · split
    · rename_i hdots
      obtain rfl : s = ".." := beq_iff_eq.mp hdots
      cases read with
      | nil => exact Nat.le_refl _
      | cons last rest =>
          dsimp only
          split
          · rw [weight_cons]
            omega
          · rw [weight_cons]
            omega
    · rw [weight_cons]
      omega

theorem weight_foldl (segs read : List String) :
    weight (segs.foldl foldStep read) ≤ weight read + weight segs := by
  induction segs generalizing read with
  | nil => simp [weight]
  | cons s segs ih =>
      have hfirst := weight_foldStep read s
      have hrest := ih (foldStep read s)
      rw [List.foldl_cons, weight_cons]
      omega

theorem weight_intercalate (hne : segs ≠ []) :
    ("/".intercalate segs).toList.length + 1 = weight segs := by
  induction segs with
  | nil => exact absurd rfl hne
  | cons s rest ih =>
      cases rest with
      | nil => simp [weight]
      | cons t rest =>
          have hrest := ih (List.cons_ne_nil _ _)
          rw [String.intercalate_cons_cons, weight_cons, ← hrest]
          simp only [String.toList_append, List.length_append]
          have hslash : "/".toList.length = 1 := rfl
          omega

theorem weight_foldSegments (segs : List String) : weight (foldSegments segs) ≤ weight segs := by
  have hfold := weight_foldl segs []
  have hreverse : weight (foldSegments segs) = weight (segs.foldl foldStep []) := by
    simp [weight, foldSegments]
  have hnil : weight [] = 0 := rfl
  omega

/-- The first segment of an absolute name is empty. -/
theorem segments_of_isAbsolute (h : isAbsolute name = true) :
    ∃ rest, segments name = "" :: segments rest := by
  unfold isAbsolute at h
  cases hchars : name.toList with
  | nil =>
      rw [hchars] at h
      cases h
  | cons c cs =>
      rw [hchars] at h
      obtain rfl : c = '/' := by simpa using h
      refine ⟨String.ofList cs, ?_⟩
      rw [segments, segments, hchars, String.toList_ofList]
      rfl

/-- Folding makes no name longer. -/
theorem length_fold_le (name : String) : (fold name).toList.length ≤ name.toList.length := by
  have hinner : ∀ segs : List String, ("/".intercalate segs).toList.length ≤ weight segs - 1 := by
    intro segs
    by_cases hne : segs = []
    · rw [hne]
      exact Nat.zero_le _
    · have := weight_intercalate hne
      omega
  have htotal := weight_segments name
  rw [fold, ofSegments, String.toList_append, List.length_append]
  cases habs : isAbsolute name with
  | false =>
      have hfold := weight_foldSegments (segments name)
      have hlength := hinner (foldSegments (segments name))
      have hnone : (if false = true then "/" else "").toList.length = 0 := rfl
      omega
  | true =>
      -- The slash at the front takes the place of the empty segment.
      obtain ⟨rest, hrest⟩ := segments_of_isAbsolute habs
      rw [hrest, foldSegments_cons_empty]
      rw [hrest, weight_cons] at htotal
      have hempty : "".toList.length = 0 := rfl
      have hpos := weight_segments rest
      have hfold := weight_foldSegments (segments rest)
      have hlength := hinner (foldSegments (segments rest))
      have hone : (if true = true then "/" else "").toList.length = 1 := rfl
      omega

/-- A name stands for itself exactly if it is folded and has no extension. -/
theorem normalize_eq_self_iff :
    normalize name = name ↔ fold name = name ∧ (splitExtension name).2 = none := by
  unfold normalize
  constructor
  · intro h
    have hlength := length_fold_le name
    rcases splitExtension_cases (fold name) with hext | hext | hext
    · rw [h] at hext
      rw [hext, String.toList_append, List.length_append] at hlength
      have hthree : ".rb".toList.length = 3 := rfl
      omega
    · rw [h] at hext
      rw [hext, String.toList_append, List.length_append] at hlength
      have hthree : ".js".toList.length = 3 := rfl
      omega
    · have hfold : fold name = name := (congrArg Prod.fst hext).symm.trans h
      rw [hfold] at hext
      exact ⟨hfold, congrArg Prod.snd hext⟩
  · rintro ⟨hfold, hnone⟩
    rw [hfold, splitExtension_stem hnone]

end RubyJs.LogicalName
