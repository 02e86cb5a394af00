import Mathlib.Logic.Relation
import RubyJs.Build
import RubyJs.Proofs.Runs

set_option autoImplicit false

/-! # Builds, step by step

A build is a recursion over the needs of units. Here it is laid out as steps on a stack: the units
whose needs are being followed, innermost first, each with the needs that were followed and those
that are left.

    stack                    walk
    b   [x, y | z]           visited, records, edges so far
    a   [b | c]
    main [a | ]

A step follows the next need of the unit on top, or emits that unit when no need is left
(`Builder.Step`). `Builder.build_reached` says that a build that succeeds is a run of such steps
from an empty walk to an empty stack, so a fact about all results of builds is a fact that every
step keeps.
-/

namespace RubyJs

/-- The name in the result is the one that was asked for, whatever its spelling. -/
theorem Resolver.resolve_logical {r : Resolver} {name requester : String} {file : Resolved}
    (h : r.resolve name requester = .ok file) : file.logical = LogicalName.normalize name := by
  simp only [Resolver.resolve] at h
  split at h
  · obtain rfl := Except.ok.inj h
    rfl
  · exact absurd h (by simp)

namespace Builder

/-! ## What records are made from -/

/-- The edges that a declaration of the unit `source` stands for: one for each unit of a tree, and
one for a name. -/
def declaredEdges (b : Builder) (source : String) (d : Declaration) :
    Except Failure (List Edge) :=
  match d.kind with
  | .tree => do
    pure ((← b.resolver.expandTree d.name source).map fun u => ⟨source, u.logical, .tree⟩)
  | kind => pure [⟨source, LogicalName.normalize d.name, kind⟩]

/-- The edges that the declarations of the unit `source` stand for, in order. -/
def edgesOf (b : Builder) (source : String) : List Declaration → Except Failure (List Edge)
  | [] => .ok []
  | d :: ds => do
    let first ← b.declaredEdges source d
    let rest ← b.edgesOf source ds
    pure (first ++ rest)

/-- Whether a name or a tree leads to this file. -/
def Finds (b : Builder) (file : Resolved) : Prop :=
  (∃ name requester, b.resolver.resolve name requester = .ok file) ∨
    ∃ dir requester units, b.resolver.expandTree dir requester = .ok units ∧ file ∈ units

/-- That a record, and the edges that leave its unit, are made from a stubbed name, from a file that
is copied or from a file that is compiled. -/
inductive Makes (b : Builder) : Record → List Edge → Prop where
  | stub {logical : String} {preload : Bool} {c : Compiled}
      (stubbed : b.isStub logical = true)
      (compiled : (SourceUnit.stub logical).asModule false = .ok c) :
      Makes b ⟨logical, .module, c.javascript, preload⟩ []
  | native {file : Resolved} {text : String} {role : Role}
      (found : b.Finds file) (read : b.reader.read file.path = .ok text)
      (processor : file.processor = .javascript) :
      Makes b (nativeRecord (SourceUnit.ofResolved file text) role) []
  | ruby {file : Resolved} {text : String} {role : Role} {c : Compiled} {edges : List Edge}
      (found : b.Finds file) (read : b.reader.read file.path = .ok text)
      (processor : file.processor = .ruby)
      (compiled : compileFor (SourceUnit.ofResolved file text) role = .ok c)
      (declared : b.edgesOf file.logical c.declarations = .ok edges) :
      Makes b (compiledRecord (SourceUnit.ofResolved file text) c.javascript role) edges

@[simp] theorem nativeRecord_logical (u : SourceUnit) (role : Role) :
    (nativeRecord u role).logical = u.logical := by
  cases role <;> rfl

@[simp] theorem compiledRecord_logical (u : SourceUnit) (javascript : String) (role : Role) :
    (compiledRecord u javascript role).logical = u.logical := by
  cases role <;> rfl

/-! ## The ways to follow a need -/

section Needs

variable {b : Builder} {visit : Visit} {source : String} {kind : EdgeKind} {ahead : Bool}
  {p : Pending} {w : Walk}

theorem enter_seen (h : p.logical ∈ w.visited) :
    b.enter visit source kind ahead p w = .ok (w.edge ⟨source, p.logical, kind⟩) :=
  if_pos (List.contains_iff_mem.mpr h)

theorem enter_prerequired (hfresh : p.logical ∉ w.visited)
    (h : b.isPrerequired p.logical = true) : b.enter visit source kind ahead p w =
      .ok ((w.edge ⟨source, p.logical, kind⟩).mark p.logical) :=
  (if_neg (mt List.contains_iff_mem.mp hfresh)).trans (if_pos h)

theorem enter_stub (hfresh : p.logical ∉ w.visited) (hloaded : b.isPrerequired p.logical = false)
    (h : b.isStub p.logical = true) : b.enter visit source kind ahead p w =
      (SourceUnit.stub p.logical).asModule false >>= fun c =>
        .ok (((w.edge ⟨source, p.logical, kind⟩).emit
          ⟨p.logical, .module, c.javascript, ahead⟩).mark p.logical) :=
  (if_neg (mt List.contains_iff_mem.mp hfresh)).trans
    ((if_neg (Bool.eq_false_iff.mp hloaded)).trans (if_pos h))

theorem enter_file (hfresh : p.logical ∉ w.visited) (hloaded : b.isPrerequired p.logical = false)
    (h : b.isStub p.logical = false) : b.enter visit source kind ahead p w =
      b.fileOf p source >>= fun file => b.reader.read file.path >>= fun text =>
        visit (SourceUnit.ofResolved file text) (.module ahead)
          (w.edge ⟨source, p.logical, kind⟩) :=
  (if_neg (mt List.contains_iff_mem.mp hfresh)).trans
    ((if_neg (Bool.eq_false_iff.mp hloaded)).trans (if_neg (Bool.eq_false_iff.mp h)))

theorem visit_native {u : SourceUnit} (h : u.processor = .javascript) (n : Nat) (role : Role) :
    b.visit (n + 1) u role w = .ok ((w.mark u.logical).emit (nativeRecord u role)) := by
  rw [visit, h]
  rfl

theorem visit_ruby {u : SourceUnit} (h : u.processor = .ruby) (n : Nat) (role : Role) :
    b.visit (n + 1) u role w = compileFor u role >>= fun c =>
      b.followAll (b.visit n) u.logical c.declarations (w.mark u.logical) >>= fun v =>
        .ok (v.emit (compiledRecord u c.javascript role)) := by
  rw [visit, h]
  rfl

end Needs

/-! ## Steps -/

/-- A need, with how it is needed. -/
abbrev Need := EdgeKind × Pending

/-- A unit whose needs are being followed. -/
structure Open where
  source : String
  /-- The needs that were followed. -/
  past : List Need
  /-- The needs that are left. -/
  left : List Need
  /-- Whether the units needed are loaded ahead. -/
  preload : Bool
  /-- What is emitted in the end; nothing for the list of what is loaded ahead. -/
  record : Option Record

/-- The edge of a need of the unit `source`. -/
def needEdge (source : String) (n : Need) : Edge := ⟨source, n.2.logical, n.1⟩

/-- A place in a build: the units that are open, innermost first, and the walk so far. -/
structure Config where
  stack : List Open
  walk : Walk

/-- The unit of a record, with all its needs left. -/
def opening (r : Record) (needs : List Need) : Open := ⟨r.logical, [], needs, false, some r⟩

/-- One step of a build. -/
inductive Step (b : Builder) : Config → Config → Prop where
  /-- A need that was visited before. -/
  | seen {s : String} {past left : List Need} {n : Need} {ahead : Bool} {r : Option Record}
      {stack : List Open} {w : Walk} (visited : n.2.logical ∈ w.visited) :
      Step b ⟨⟨s, past, n :: left, ahead, r⟩ :: stack, w⟩
        ⟨⟨s, past ++ [n], left, ahead, r⟩ :: stack, w.edge (needEdge s n)⟩
  /-- A need that the host has loaded. -/
  | prerequired {s : String} {past left : List Need} {n : Need} {ahead : Bool} {r : Option Record}
      {stack : List Open} {w : Walk} (fresh : n.2.logical ∉ w.visited)
      (loaded : b.isPrerequired n.2.logical = true) :
      Step b ⟨⟨s, past, n :: left, ahead, r⟩ :: stack, w⟩
        ⟨⟨s, past ++ [n], left, ahead, r⟩ :: stack,
          (w.edge (needEdge s n)).mark n.2.logical⟩
  /-- A need that is a new unit. -/
  | opens {s : String} {past left : List Need} {n : Need} {ahead : Bool} {r : Option Record}
      {stack : List Open} {w : Walk} {unit : Record} {needs : List Need}
      (fresh : n.2.logical ∉ w.visited) (logical : unit.logical = n.2.logical)
      (made : b.Makes unit (needs.map (needEdge unit.logical))) :
      Step b ⟨⟨s, past, n :: left, ahead, r⟩ :: stack, w⟩
        ⟨opening unit needs :: ⟨s, past ++ [n], left, ahead, r⟩ :: stack,
          (w.edge (needEdge s n)).mark n.2.logical⟩
  /-- No need is left. -/
  | close {s : String} {past : List Need} {ahead : Bool} {r : Option Record}
      {stack : List Open} {w : Walk} :
      Step b ⟨⟨s, past, [], ahead, r⟩ :: stack, w⟩
        ⟨stack, { w with records := w.records ++ r.toList }⟩

/-- Some steps of a build. -/
abbrev Run (b : Builder) : Config → Config → Prop := Relation.ReflTransGen b.Step

/-- The list of what is loaded ahead, as needs. -/
def preloadNeeds (b : Builder) : List Need :=
  (distinctNames [] b.options.preload).map fun n => (.direct, .name n)

/-- The places that a build of `entry` passes. -/
inductive Reached (b : Builder) (entry : String) : Config → Prop where
  | start : Reached b entry ⟨[⟨preloadRequester, [], b.preloadNeeds, true, none⟩], {}⟩
  | step {c c' : Config} (before : Reached b entry c) (step : b.Step c c') : Reached b entry c'
  /-- All is loaded ahead; the entry was not. -/
  | entry {w : Walk} {unit : Record} {needs : List Need} (before : Reached b entry ⟨[], w⟩)
      (fresh : unit.logical ∉ w.visited) (logical : unit.logical = LogicalName.normalize entry)
      (made : b.Makes unit (needs.map (needEdge unit.logical))) :
      Reached b entry ⟨[opening unit needs], w.mark unit.logical⟩

theorem Reached.run {b : Builder} {entry : String} {c c' : Config} (h : b.Reached entry c)
    (hr : b.Run c c') : b.Reached entry c' := by
  induction hr with
  | refl => exact h
  | tail _ hs ih => exact .step ih hs

/-! ## From the recursion to steps -/

/-- Whether a need that has its file got it from the search paths. -/
def Known (b : Builder) : Pending → Prop
  | .name _ => True
  | .unit u => b.Finds u

/-- The file of a need has the need's logical name. -/
theorem fileOf_logical {b : Builder} {p : Pending} {source : String} {f : Resolved}
    (h : b.fileOf p source = .ok f) : f.logical = p.logical := by
  cases p with
  | name n => exact Resolver.resolve_logical h
  | unit u => rw [← Except.ok.inj h, Pending.logical]

theorem fileOf_ok {b : Builder} {p : Pending} {source : String} {file : Resolved}
    (hk : b.Known p) (h : b.fileOf p source = .ok file) :
    b.Finds file ∧ file.logical = p.logical := by
  refine ⟨?_, fileOf_logical h⟩
  cases p with
  | name n => exact Or.inl ⟨n, source, h⟩
  | unit u =>
      obtain rfl : u = file := Except.ok.inj h
      exact hk

/-- That a visit which succeeds opens a unit and runs until that unit is emitted. -/
def VisitRuns (b : Builder) (visit : Visit) : Prop :=
  ∀ (file : Resolved) (text : String) (role : Role) (w w' : Walk), b.Finds file →
    b.reader.read file.path = .ok text →
    visit (SourceUnit.ofResolved file text) role w = .ok w' →
    ∃ (unit : Record) (needs : List Need), unit.logical = file.logical ∧
      b.Makes unit (needs.map (needEdge unit.logical)) ∧
      ∀ stack, b.Run ⟨opening unit needs :: stack, w.mark unit.logical⟩ ⟨stack, w'⟩

section Following

variable {b : Builder} {visit : Visit}
variable {source : String}

theorem enter_run (hv : b.VisitRuns visit) {kind : EdgeKind} {ahead : Bool} {p : Pending}
    {w w' : Walk} (hk : b.Known p) (h : b.enter visit source kind ahead p w = .ok w')
    (past left : List Need) (r : Option Record) (stack : List Open) :
    b.Run ⟨⟨source, past, (kind, p) :: left, ahead, r⟩ :: stack, w⟩
      ⟨⟨source, past ++ [(kind, p)], left, ahead, r⟩ :: stack, w'⟩ := by
  by_cases hseen : p.logical ∈ w.visited
  · rw [enter_seen hseen] at h
    obtain rfl := Except.ok.inj h
    exact .single (.seen hseen)
  cases hloaded : b.isPrerequired p.logical with
  | true =>
      rw [enter_prerequired hseen hloaded] at h
      obtain rfl := Except.ok.inj h
      exact .single (.prerequired hseen hloaded)
  | false =>
  cases hstub : b.isStub p.logical with
  | true =>
      rw [enter_stub hseen hloaded hstub] at h
      obtain ⟨c, hc, h⟩ := bind_eq_ok h
      obtain rfl := Except.ok.inj h
      -- A stub is a unit without needs: it is opened and emitted at once.
      let unit : Record := ⟨p.logical, .module, c.javascript, ahead⟩
      have hmade : b.Makes unit (([] : List Need).map (needEdge unit.logical)) := .stub hstub hc
      exact (Relation.ReflTransGen.single (.opens hseen rfl hmade)).tail .close
  | false =>
      rw [enter_file hseen hloaded hstub] at h
      obtain ⟨file, hfile, h⟩ := bind_eq_ok h
      obtain ⟨text, htext, h⟩ := bind_eq_ok h
      obtain ⟨hfound, hlogical⟩ := fileOf_ok hk hfile
      obtain ⟨unit, needs, hunit, hmade, hrun⟩ := hv file text _ _ w' hfound htext h
      have hname : unit.logical = p.logical := hunit.trans hlogical
      refine Relation.ReflTransGen.head (.opens hseen hname hmade) ?_
      have := hrun (⟨source, past ++ [(kind, p)], left, ahead, r⟩ :: stack)
      rwa [hname] at this

theorem enterAll_run (hv : b.VisitRuns visit) {kind : EdgeKind} {ahead : Bool} {ps : List Pending}
    {w w' : Walk} (hk : ∀ p ∈ ps, b.Known p) (h : b.enterAll visit source kind ahead ps w = .ok w')
    (past left : List Need) (r : Option Record) (stack : List Open) :
    b.Run ⟨⟨source, past, ps.map (kind, ·) ++ left, ahead, r⟩ :: stack, w⟩
      ⟨⟨source, past ++ ps.map (kind, ·), left, ahead, r⟩ :: stack, w'⟩ := by
  induction ps generalizing past w with
  | nil =>
      obtain rfl := Except.ok.inj h
      simpa using Relation.ReflTransGen.refl
  | cons p ps ih =>
      obtain ⟨v, hp, h⟩ := bind_eq_ok h
      have hfirst := enter_run hv (hk p (by simp)) hp past (ps.map (kind, ·) ++ left) r stack
      have hrest := ih (fun q hq => hk q (by simp [hq])) h (past ++ [(kind, p)])
      rw [List.append_assoc] at hrest
      exact hfirst.trans hrest

/-- What a declaration asks for stands for the declaration's edges. -/
theorem pending_edges {d : Declaration} {ps : List Pending} (h : b.pending source d = .ok ps) :
    (∀ p ∈ ps, b.Known p) ∧ b.declaredEdges source d =
      .ok ((ps.map (d.kind, ·)).map (needEdge source)) := by
  obtain ⟨name, kind⟩ := d
  cases kind with
  | tree =>
      obtain ⟨units, hunits, h⟩ := bind_eq_ok h
      obtain rfl := Except.ok.inj h
      refine ⟨fun p hp => ?_, ?_⟩
      · obtain ⟨u, hu, rfl⟩ := List.mem_map.mp hp
        exact Or.inr ⟨name, source, units, hunits, hu⟩
      · simp only at hunits
        simp only [declaredEdges, hunits, List.map_map]
        rfl
  | direct =>
      obtain rfl := Except.ok.inj h
      exact ⟨by simp [Known], rfl⟩
  | autoload =>
      obtain rfl := Except.ok.inj h
      exact ⟨by simp [Known], rfl⟩

theorem followAll_run (hv : b.VisitRuns visit) {ds : List Declaration} {w w' : Walk}
    (h : b.followAll visit source ds w = .ok w') :
    ∃ needs : List Need, b.edgesOf source ds = .ok (needs.map (needEdge source)) ∧
      ∀ (past : List Need) (r : Option Record) (stack : List Open),
        b.Run ⟨⟨source, past, needs, false, r⟩ :: stack, w⟩
          ⟨⟨source, past ++ needs, [], false, r⟩ :: stack, w'⟩ := by
  induction ds generalizing w with
  | nil =>
      obtain rfl := Except.ok.inj h
      exact ⟨[], rfl, fun past r stack => by simpa using Relation.ReflTransGen.refl⟩
  | cons d ds ih =>
      obtain ⟨ps, hps, h⟩ := bind_eq_ok h
      obtain ⟨v, hd, h⟩ := bind_eq_ok h
      obtain ⟨hknown, hedges⟩ := pending_edges hps
      obtain ⟨needs, hneeds, hrun⟩ := ih h
      refine ⟨ps.map (d.kind, ·) ++ needs, ?_, fun past r stack => ?_⟩
      · rw [edgesOf, hedges, hneeds, List.map_append]
        rfl
      · have hrest := hrun (past ++ ps.map (d.kind, ·)) r stack
        rw [List.append_assoc] at hrest
        exact (enterAll_run hv hknown hd past needs r stack).trans hrest

end Following

/-- A visit opens its unit, follows its needs and emits it. -/
theorem visit_runs (b : Builder) (depth : Nat) : b.VisitRuns (b.visit depth) := by
  induction depth with
  | zero => exact fun file text role w w' _ _ h => absurd h (by simp [visit])
  | succ depth ih =>
      intro file text role w w' hfound htext h
      cases hp : file.processor with
      | javascript =>
          rw [visit_native (u := SourceUnit.ofResolved file text) hp] at h
          obtain rfl := Except.ok.inj h
          refine ⟨_, [], nativeRecord_logical _ role, .native hfound htext hp, fun stack => ?_⟩
          rw [nativeRecord_logical]
          exact .single .close
      | ruby =>
          rw [visit_ruby (u := SourceUnit.ofResolved file text) hp] at h
          obtain ⟨c, hc, h⟩ := bind_eq_ok h
          obtain ⟨v, hv, h⟩ := bind_eq_ok h
          obtain rfl := Except.ok.inj h
          obtain ⟨needs, hneeds, hrun⟩ := followAll_run ih hv
          have hlogical :=
            compiledRecord_logical (SourceUnit.ofResolved file text) c.javascript role
          refine ⟨_, needs, hlogical, ?_, fun stack => ?_⟩
          · rw [hlogical]
            exact .ruby hfound htext hp hc hneeds
          · rw [opening, hlogical]
            exact (hrun [] _ stack).tail .close

/-- A build that succeeds passes an empty stack, with the walk that its bundle is made from. -/
theorem build_reached {b : Builder} {entry : String} {a : Artifact} (h : b.build entry = .ok a) :
    ∃ w, b.Reached entry ⟨[], w⟩ ∧ a = b.finish w := by
  obtain ⟨w, hpre, h⟩ := bind_eq_ok h
  have hahead : b.Reached entry ⟨[], w⟩ := by
    have hrun := enterAll_run (b.visit_runs b.depth) (by simp [Known]) hpre [] [] none []
    have hstart : b.Reached entry
        ⟨[⟨preloadRequester, [], b.preloadNeeds ++ [], true, none⟩], {}⟩ := by
      rw [List.append_nil]
      exact .start
    rw [List.map_map] at hrun
    have hclosed := (hstart.run hrun).step .close
    simpa using hclosed
  obtain ⟨file, hfile, h⟩ := bind_eq_ok h
  split at h
  · exact ⟨w, hahead, (Except.ok.inj h).symm⟩
  · rename_i hfresh
    obtain ⟨text, htext, h⟩ := bind_eq_ok h
    obtain ⟨v, hvisit, h⟩ := bind_eq_ok h
    obtain ⟨unit, needs, hunit, hmade, hrun⟩ := b.visit_runs b.depth file text .entry w v
      (Or.inl ⟨entry, entryRequester, hfile⟩) htext hvisit
    have hlogical := hunit.trans (Resolver.resolve_logical hfile)
    have hopen := Reached.entry hahead (by rw [hunit]; simpa using hfresh) hlogical hmade
    exact ⟨v, hopen.run (hrun []), (Except.ok.inj h).symm⟩

end Builder

end RubyJs
