import Mathlib.Data.List.Forall2
import RubyJs.Proofs.Build.Steps

set_option autoImplicit false

/-! # Builds that do what other builds do

A builder simulates another one if it finds and reads whatever the other finds and reads, with the
same options and at least the same bound (`Builder.Simulates`). The paths of the files may be others,
as long as a relation holds between them under which texts are the same; no path is part of a bundle.
A build of the other one that succeeds is then one of the builder, with the same bundle
(`Builder.Simulates.build`): each step of the walk is the same in both.
-/

namespace RubyJs

variable {R : Path → Path → Prop}

/-- That two files are of one unit, at paths that are related by `R`. -/
structure Resolved.Alike (R : Path → Path → Prop) (f f' : Resolved) : Prop where
  logical : f'.logical = f.logical
  processor : f'.processor = f.processor
  path : R f.path f'.path

/-- That two units differ in their paths at most. -/
structure SourceUnit.Alike (u u' : SourceUnit) : Prop where
  logical : u'.logical = u.logical
  text : u'.text = u.text
  processor : u'.processor = u.processor

/-- That two needs are one, with files that are alike. -/
inductive Pending.Alike (R : Path → Path → Prop) : Pending → Pending → Prop where
  | name (name : String) : Alike R (.name name) (.name name)
  | unit {u u' : Resolved} (alike : u.Alike R u') : Alike R (.unit u) (.unit u')

theorem Pending.Alike.logical {p p' : Pending} (h : p.Alike R p') : p'.logical = p.logical := by
  cases h with
  | name n => rfl
  | unit alike => exact alike.logical

namespace Builder

theorem compileFor_alike {u u' : SourceUnit} (h : u.Alike u') (role : Role) :
    compileFor u' role = compileFor u role := by
  cases role with
  | entry => rw [compileFor, compileFor, SourceUnit.asEntry, SourceUnit.asEntry, h.logical, h.text]
  | module preload =>
      rw [compileFor, compileFor, SourceUnit.asModule, SourceUnit.asModule, h.logical, h.text]

theorem nativeRecord_alike {u u' : SourceUnit} (h : u.Alike u') (role : Role) :
    nativeRecord u' role = nativeRecord u role := by
  cases role <;> rw [nativeRecord, nativeRecord, h.logical, h.text]

theorem compiledRecord_alike {u u' : SourceUnit} (h : u.Alike u') (javascript : String)
    (role : Role) : compiledRecord u' javascript role = compiledRecord u javascript role := by
  cases role <;> rw [compiledRecord, compiledRecord, h.logical]

/-- That `b'` finds and reads what `b` finds and reads. -/
structure Simulates (R : Path → Path → Prop) (b b' : Builder) : Prop where
  options : b'.options = b.options
  depth : b.depth ≤ b'.depth
  resolve : ∀ name requester f, b.resolver.resolve name requester = .ok f →
    ∃ f', b'.resolver.resolve name requester = .ok f' ∧ f.Alike R f'
  expandTree : ∀ dir requester units, b.resolver.expandTree dir requester = .ok units →
    ∃ units', b'.resolver.expandTree dir requester = .ok units'
      ∧ List.Forall₂ (Resolved.Alike R) units units'
  read : ∀ p p' text, R p p' → b.reader.read p = .ok text → b'.reader.read p' = .ok text

/-- That a visit by `visit` which succeeds is one by `visit'`. -/
def VisitSimulates (visit visit' : Visit) : Prop :=
  ∀ u u' role w w', SourceUnit.Alike u u' → visit u role w = .ok w' → visit' u' role w = .ok w'

namespace Simulates

variable {b b' : Builder} {go go' : Visit}
variable {source : String}

theorem isStub (h : Simulates R b b') (logical : String) :
    b'.isStub logical = b.isStub logical := by
  rw [Builder.isStub, Builder.isStub, h.options]

theorem isPrerequired (h : Simulates R b b') (logical : String) :
    b'.isPrerequired logical = b.isPrerequired logical := by
  rw [Builder.isPrerequired, Builder.isPrerequired, h.options]

theorem finish (h : Simulates R b b') (w : Walk) : b'.finish w = b.finish w := by
  rw [Builder.finish, Builder.finish, h.options]

theorem fileOf (h : Simulates R b b') {p p' : Pending} (hp : p.Alike R p') {f : Resolved}
    (hfile : b.fileOf p source = .ok f) : ∃ f', b'.fileOf p' source = .ok f' ∧ f.Alike R f' := by
  cases hp with
  | name n => exact h.resolve n source f hfile
  | @unit u u' alike =>
      obtain rfl : u = f := Except.ok.inj hfile
      exact ⟨u', rfl, alike⟩

/-- A file that is alike has the same text. -/
theorem unit (h : Simulates R b b') {f f' : Resolved} (hf : f.Alike R f') {text : String}
    (hread : b.reader.read f.path = .ok text) : b'.reader.read f'.path = .ok text
      ∧ (SourceUnit.ofResolved f text).Alike (SourceUnit.ofResolved f' text) :=
  ⟨h.read _ _ _ hf.path hread, hf.logical, rfl, hf.processor⟩

theorem enter (h : Simulates R b b') (hv : VisitSimulates go go') {kind : EdgeKind} {ahead : Bool}
    {p p' : Pending} (hp : p.Alike R p') {w w' : Walk}
    (hrun : b.enter go source kind ahead p w = .ok w') :
    b'.enter go' source kind ahead p' w = .ok w' := by
  have hname := hp.logical
  by_cases hseen : p.logical ∈ w.visited
  · rw [enter_seen hseen] at hrun
    rw [enter_seen (hname ▸ hseen), hname]
    exact hrun
  have hfresh : p'.logical ∉ w.visited := hname ▸ hseen
  cases hloaded : b.isPrerequired p.logical with
  | true =>
      rw [enter_prerequired hseen hloaded] at hrun
      rw [enter_prerequired hfresh (by rw [h.isPrerequired, hname, hloaded]), hname]
      exact hrun
  | false =>
  have hloaded' : b'.isPrerequired p'.logical = false := by rw [h.isPrerequired, hname, hloaded]
  cases hstub : b.isStub p.logical with
  | true =>
      rw [enter_stub hseen hloaded hstub] at hrun
      rw [enter_stub hfresh hloaded' (by rw [h.isStub, hname, hstub]), hname]
      exact hrun
  | false =>
      rw [enter_file hseen hloaded hstub] at hrun
      rw [enter_file hfresh hloaded' (by rw [h.isStub, hname, hstub]), hname]
      obtain ⟨f, hfile, hrun⟩ := bind_eq_ok hrun
      obtain ⟨text, hread, hrun⟩ := bind_eq_ok hrun
      obtain ⟨f', hfile', hf⟩ := h.fileOf hp hfile
      obtain ⟨hread', hunit⟩ := h.unit hf hread
      rw [hfile']
      show (b'.reader.read f'.path >>= _) = _
      rw [hread']
      exact hv _ _ _ _ _ hunit hrun

theorem enterAll (h : Simulates R b b') (hv : VisitSimulates go go') {kind : EdgeKind}
    {ahead : Bool} {ps ps' : List Pending} (hps : List.Forall₂ (Pending.Alike R) ps ps')
    {w w' : Walk} (hrun : b.enterAll go source kind ahead ps w = .ok w') :
    b'.enterAll go' source kind ahead ps' w = .ok w' := by
  induction hps generalizing w with
  | nil => exact hrun
  | cons hp _ ih =>
      obtain ⟨v, hfirst, hrest⟩ := bind_eq_ok hrun
      rw [Builder.enterAll, h.enter hv hp hfirst]
      exact ih hrest

theorem pending (h : Simulates R b b') {d : Declaration} {ps : List Pending}
    (hps : b.pending source d = .ok ps) :
    ∃ ps', b'.pending source d = .ok ps' ∧ List.Forall₂ (Pending.Alike R) ps ps' := by
  obtain ⟨name, kind⟩ := d
  cases kind with
  | tree =>
      obtain ⟨units, hunits, hps⟩ := bind_eq_ok hps
      obtain rfl := Except.ok.inj hps
      obtain ⟨units', hunits', halike⟩ := h.expandTree _ _ _ hunits
      refine ⟨units'.map .unit, ?_, ?_⟩
      · show (b'.resolver.expandTree name source >>= _) = _
        rw [hunits']
        rfl
      · rw [List.forall₂_map_left_iff, List.forall₂_map_right_iff]
        exact halike.imp fun _ _ hu => .unit hu
  | direct | autoload =>
      obtain rfl := Except.ok.inj hps
      exact ⟨_, rfl, .cons (.name _) .nil⟩

theorem followAll (h : Simulates R b b') (hv : VisitSimulates go go') {ds : List Declaration}
    {w w' : Walk} (hrun : b.followAll go source ds w = .ok w') :
    b'.followAll go' source ds w = .ok w' := by
  induction ds generalizing w with
  | nil => exact hrun
  | cons d ds ih =>
      obtain ⟨ps, hps, hrun⟩ := bind_eq_ok hrun
      obtain ⟨v, henter, hrun⟩ := bind_eq_ok hrun
      obtain ⟨ps', hps', halike⟩ := h.pending hps
      rw [Builder.followAll, hps']
      show (b'.enterAll go' source d.kind false ps' w >>= _) = _
      rw [h.enterAll hv halike henter]
      exact ih hrun

/-- A visit is simulated with any bound that is as large. -/
theorem visit (h : Simulates R b b') {n n' : Nat} (hn : n ≤ n') :
    VisitSimulates (b.visit n) (b'.visit n') := by
  induction n generalizing n' with
  | zero => exact fun u u' role w w' _ hrun => absurd hrun (by simp [Builder.visit])
  | succ n ih =>
      obtain ⟨m, rfl⟩ := Nat.exists_eq_add_of_le' (Nat.lt_of_lt_of_le (Nat.succ_pos n) hn)
      have hv : VisitSimulates (b.visit n) (b'.visit m) := ih (Nat.le_of_succ_le_succ hn)
      intro u u' role w w' hunit hrun
      cases hp : u.processor with
      | javascript =>
          rw [visit_native hp] at hrun
          rw [visit_native (hunit.processor.trans hp), hunit.logical, nativeRecord_alike hunit]
          exact hrun
      | ruby =>
          rw [visit_ruby hp] at hrun
          rw [visit_ruby (hunit.processor.trans hp), hunit.logical]
          obtain ⟨c, hc, hrun⟩ := bind_eq_ok hrun
          obtain ⟨v, hfollow, hrun⟩ := bind_eq_ok hrun
          rw [compileFor_alike hunit, hc]
          show (b'.followAll (b'.visit m) u.logical c.declarations _ >>= _) = _
          rw [h.followAll hv hfollow]
          show Except.ok _ = _
          rw [compiledRecord_alike hunit]
          exact hrun

theorem preload (h : Simulates R b b') {w : Walk} (hrun : b.preload = .ok w) :
    b'.preload = .ok w := by
  rw [Builder.preload, h.options]
  refine h.enterAll (h.visit h.depth) ?_ hrun
  rw [List.forall₂_map_left_iff, List.forall₂_map_right_iff]
  exact List.forall₂_same.mpr fun n _ => .name n

theorem build (h : Simulates R b b') {entry : String} {a : Artifact}
    (hrun : b.build entry = .ok a) : b'.build entry = .ok a := by
  obtain ⟨w, hpre, hrun⟩ := bind_eq_ok hrun
  obtain ⟨f, hfile, hrun⟩ := bind_eq_ok hrun
  obtain ⟨f', hfile', hf⟩ := h.resolve _ _ _ hfile
  rw [Builder.build, h.preload hpre]
  show (b'.resolver.resolve entry entryRequester >>= _) = _
  rw [hfile']
  show (if w.visited.contains f'.logical then _ else _) = _
  rw [hf.logical]
  split at hrun
  · rename_i hseen
    rw [if_pos hseen, h.finish]
    exact hrun
  · rename_i hseen
    rw [if_neg hseen]
    obtain ⟨text, hread, hrun⟩ := bind_eq_ok hrun
    obtain ⟨v, hvisit, hrun⟩ := bind_eq_ok hrun
    obtain ⟨hread', hunit⟩ := h.unit hf hread
    rw [hread']
    show (b'.visit b'.depth _ .entry w >>= _) = _
    rw [h.visit h.depth _ _ _ _ _ hunit hvisit]
    show Except.ok (b'.finish v) = _
    rw [h.finish]
    exact hrun

theorem buildText (h : Simulates R b b') {text filename : String} {a : Artifact}
    (hrun : b.buildText text filename = .ok a) : b'.buildText text filename = .ok a := by
  obtain ⟨w, hpre, hrun⟩ := bind_eq_ok hrun
  obtain ⟨v, hvisit, hrun⟩ := bind_eq_ok hrun
  rw [Builder.buildText, h.preload hpre, h.options]
  show (b'.visit b'.depth _ .entry w >>= _) = _
  rw [h.visit h.depth _ _ _ _ _ ⟨rfl, rfl, rfl⟩ hvisit]
  show Except.ok (b'.finish v) = _
  rw [h.finish]
  exact hrun

end Simulates

end Builder

end RubyJs
