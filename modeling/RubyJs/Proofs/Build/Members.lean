import Mathlib.Data.List.Forall2
import RubyJs.Proofs.Build.Steps

set_option autoImplicit false

/-! # What bundles are made from

A unit of a bundle is a member of it: a name with a role, made from a stub or from a file and its text
(`Member`). Its text in the bundle is a function of these alone (`Member.text`).

A walk that succeeds emits members, and it reads their files and no others. The second is said by
refusing texts: with all texts of its members' files the walk is the same, and without one of them it
fails (`Builder.Grows`). Each file is the answer to something that was asked for, by a member or from
outside (`Builder.Asked`). Walks one after the other emit the members of the first and then those of
the second, so all of this goes along with the recursion of the walk.
-/

namespace RubyJs

/-! ## Members -/

/-- Where a unit of a bundle comes from. -/
inductive Origin where
  /-- A stubbed name. -/
  | stub
  /-- A file, with its text. -/
  | file (file : Resolved) (text : String)

/-- A unit of a bundle: its name, what it is for and where it comes from. -/
structure Member where
  logical : String
  role : Role
  origin : Origin

/-- A need that a unit declares. -/
structure Request where
  need : Declaration
  requester : String

namespace Member

/-- How the unit is compiled. -/
def options (m : Member) : CompileOptions where
  file := m.logical
  requirable := m.role != .entry
  banner := false

/-- The script of the unit: a Ruby text or a stub compiled by itself, a native text as it is. -/
def script (m : Member) : Except Failure String :=
  match m.origin with
  | .stub => (compile "" m.options).map (·.javascript)
  | .file f text =>
    match f.processor with
    | .ruby => (compile text m.options).map (·.javascript)
    | .javascript => .ok (endLine text)

/-- Whether the unit goes into the module table. -/
def isModule (m : Member) : Bool :=
  match m.origin with
  | .stub => true
  | .file f _ => f.processor == .ruby && m.role != .entry

/-- The text of the unit in the bundle. A module that is loaded ahead is run where it stands. -/
def text (m : Member) : Except Failure String :=
  m.script.map fun script =>
    script ++ if m.isModule && m.role == .module true then Record.requireLine m.logical else ""

/-- What the unit declares to need. -/
def requests (m : Member) : List Request :=
  match m.origin with
  | .stub => []
  | .file f text =>
    match f.processor, compile text m.options with
    | .ruby, .ok c => c.declarations.map (⟨·, m.logical⟩)
    | _, _ => []

/-- That a record is the one of a member. -/
def Written (m : Member) (r : Record) : Prop := r.logical = m.logical ∧ m.text = .ok r.text

/-- That `S` holds of the path of the member's file, if it has one. -/
def allowed (S : Path → Bool) (m : Member) : Prop :=
  match m.origin with
  | .stub => True
  | .file f _ => S f.path = true

theorem allowed_iff {S : Path → Bool} {m : Member} :
    m.allowed S ↔ ∀ f text, m.origin = .file f text → S f.path = true := by
  unfold allowed
  cases m.origin with
  | stub => exact iff_of_true trivial nofun
  | file f text =>
      refine ⟨fun h g t hg => ?_, fun h => h f text rfl⟩
      obtain ⟨rfl, rfl⟩ := Origin.file.inj hg
      exact h

end Member

/-- A script that is compiled stands between the opening and the closing for its options. -/
theorem compile_javascript {text : String} {o : CompileOptions} {c : Compiled}
    (h : compile text o = .ok c) : ∃ body, c.javascript = o.opening ++ body ++ o.closing := by
  unfold compile at h
  split at h
  · cases h
  · unfold compileProgram at h
    split at h
    · cases h
    · obtain rfl := Except.ok.inj h
      exact ⟨_, rfl⟩

/-- A script that is compiled ends its last line. -/
theorem endLine_compile {text : String} {o : CompileOptions} {c : Compiled}
    (h : compile text o = .ok c) : endLine c.javascript = c.javascript := by
  have hclosing : o.closing.toList.getLast? = some '\n' := by
    unfold CompileOptions.closing
    split <;> rfl
  obtain ⟨body, hbody⟩ := compile_javascript h
  unfold endLine
  rw [hbody, String.toList_append, List.getLast?_append, hclosing]
  rfl

namespace Builder

theorem stub_written {logical : String} {c : Compiled}
    (h : (SourceUnit.stub logical).asModule false = .ok c) (ahead : Bool) :
    Member.Written ⟨logical, .module ahead, .stub⟩ ⟨logical, .module, c.javascript, ahead⟩ := by
  have hc : compile "" (Member.options ⟨logical, .module ahead, .stub⟩) = .ok c := h
  refine ⟨rfl, ?_⟩
  simp only [Member.text, Member.script, Member.isModule, hc]
  show Except.ok _ = Except.ok _
  rw [Record.text, endLine_compile hc]
  cases ahead <;> rfl

theorem native_written {f : Resolved} (text : String) (role : Role)
    (hp : f.processor = .javascript) : Member.Written ⟨f.logical, role, .file f text⟩
      (nativeRecord (SourceUnit.ofResolved f text) role) := by
  refine ⟨nativeRecord_logical _ role, ?_⟩
  simp only [Member.text, Member.script, Member.isModule, hp]
  cases role with
  | entry => rfl
  | module ahead => cases ahead <;> rfl

/-- A unit is compiled for its role as a member of that role. -/
theorem compileFor_eq (f : Resolved) (text : String) (role : Role) :
    compileFor (SourceUnit.ofResolved f text) role =
      compile text (Member.options ⟨f.logical, role, .file f text⟩) := by
  cases role <;> rfl

theorem compiled_written {f : Resolved} {text : String} {role : Role} {c : Compiled}
    (hp : f.processor = .ruby) (h : compileFor (SourceUnit.ofResolved f text) role = .ok c) :
    Member.Written ⟨f.logical, role, .file f text⟩
      (compiledRecord (SourceUnit.ofResolved f text) c.javascript role) := by
  rw [compileFor_eq] at h
  refine ⟨compiledRecord_logical _ _ role, ?_⟩
  simp only [Member.text, Member.script, Member.isModule, hp, h]
  show Except.ok _ = Except.ok _
  cases role with
  | entry =>
      rw [compiledRecord, Record.text, endLine_compile h]
      rfl
  | module ahead =>
      rw [compiledRecord, Record.text, endLine_compile h]
      cases ahead <;> rfl

theorem requests_compiled {f : Resolved} {text : String} {role : Role} {c : Compiled}
    (hp : f.processor = .ruby) (h : compileFor (SourceUnit.ofResolved f text) role = .ok c) :
    Member.requests ⟨f.logical, role, .file f text⟩ = c.declarations.map (⟨·, f.logical⟩) := by
  rw [compileFor_eq] at h
  simp only [Member.requests, hp, h]

end Builder

/-! ## Texts that are refused -/

/-- Read access to the texts at the paths of `S`; all others are refused. -/
def Reader.only (S : Path → Bool) (r : Reader) : Reader :=
  { r with read := fun p => if S p then r.read p else .error (.source p .notStored) }

namespace Builder

/-- The builder that reads the texts at the paths of `S` only. -/
def only (S : Path → Bool) (b : Builder) : Builder := { b with reader := b.reader.only S }

theorem read_only_of_mem {b : Builder} {S : Path → Bool} {p : Path} (h : S p = true) :
    (b.only S).reader.read p = b.reader.read p := if_pos h

theorem read_only_of_notMem {b : Builder} {S : Path → Bool} {p : Path} (h : ¬ S p = true) :
    (b.only S).reader.read p = .error (.source p .notStored) := if_neg h

/-- Whether a file is found for what is asked for. -/
def Answers (b : Builder) (q : Request) (f : Resolved) : Prop :=
  match q.need.kind with
  | .tree => ∃ units, b.resolver.expandTree q.need.name q.requester = .ok units ∧ f ∈ units
  | _ => b.resolver.resolve q.need.name q.requester = .ok f

/-- That a member is what its name stands for: a stub exactly if the name is stubbed, else a file with
its text. No name that the host has loaded stands for anything. The entry is taken as it is. -/
structure Supplies (b : Builder) (m : Member) : Prop where
  stub : m.origin = .stub → b.isStub m.logical = true ∧ m.role ≠ .entry
  file : ∀ f text, m.origin = .file f text → f.logical = m.logical ∧
    b.reader.read f.path = .ok text ∧ (m.role = .entry ∨ b.isStub m.logical = false)
  loaded : m.role = .entry ∨ b.isPrerequired m.logical = false

theorem supplies_file {b : Builder} {f : Resolved} {text : String} {role : Role}
    (hread : b.reader.read f.path = .ok text) (hstub : role = .entry ∨ b.isStub f.logical = false)
    (hloaded : role = .entry ∨ b.isPrerequired f.logical = false) :
    b.Supplies ⟨f.logical, role, .file f text⟩ := by
  refine ⟨fun h => Origin.noConfusion h, fun g t hg => ?_, hloaded⟩
  obtain ⟨rfl, rfl⟩ := Origin.file.inj hg
  exact ⟨rfl, hread, hstub⟩

/-- That each file of `members` answers something in `asks`, or something that a member asks for. -/
def Asked (b : Builder) (asks : Request → Prop) (members : List Member) : Prop :=
  ∀ m ∈ members, ∀ f text, m.origin = .file f text →
    ∃ q, (asks q ∨ ∃ m' ∈ members, q ∈ m'.requests) ∧ b.Answers q f

/-- That the walk by `run` from `w`, for what is in `asks`, comes to `w'`, emits `members` and reads
their files only. -/
structure Grows (b : Builder) (asks : Request → Prop) (run : Builder → Except Failure Walk)
    (w : Walk) (members : List Member) (w' : Walk) : Prop where
  enough : ∀ S, (∀ m ∈ members, m.allowed S) → run (b.only S) = .ok w'
  needed : ∀ S, (∃ m ∈ members, ¬ m.allowed S) → ∃ e, run (b.only S) = .error e
  records : ∃ new, w'.records = w.records ++ new ∧ List.Forall₂ Member.Written members new
  supplied : ∀ m ∈ members, b.Supplies m
  asked : b.Asked asks members
  visited : w.visited ⊆ w'.visited
  fresh : ∀ m ∈ members, m.logical ∉ w.visited ∧ m.logical ∈ w'.visited
  distinct : (members.map (·.logical)).Nodup

/-- More members ask for more. -/
theorem Asked.mono {b : Builder} {asks : Request → Prop} {ms ms' : List Member}
    (h : b.Asked asks ms) (hsub : ms ⊆ ms') : ∀ m ∈ ms, ∀ f text, m.origin = .file f text →
      ∃ q, (asks q ∨ ∃ m' ∈ ms', q ∈ m'.requests) ∧ b.Answers q f := by
  intro m hm f text hf
  obtain ⟨q, hq, hanswers⟩ := h m hm f text hf
  exact ⟨q, hq.imp_right fun ⟨m', hm', hmem⟩ => ⟨m', hsub hm', hmem⟩, hanswers⟩

namespace Grows

variable {b : Builder} {asks : Request → Prop} {run run' : Builder → Except Failure Walk}
  {w w₁ w₂ : Walk} {ms ms' : List Member}

/-- A walk that emits nothing reads nothing. -/
theorem nil {w' : Walk} (hrecords : w'.records = w.records) (hvisited : w.visited ⊆ w'.visited) :
    Grows b asks (fun _ => .ok w') w [] w' where
  enough _ _ := rfl
  needed _ h := by
    obtain ⟨m, hm, -⟩ := h
    cases hm
  records := ⟨[], by rw [hrecords, List.append_nil], .nil⟩
  supplied m hm := absurd hm List.not_mem_nil
  asked m hm := absurd hm List.not_mem_nil
  visited := hvisited
  fresh m hm := absurd hm List.not_mem_nil
  distinct := List.nodup_nil

/-- One walk after the other. -/
theorem bind {next : Builder → Walk → Except Failure Walk} (h : Grows b asks run w ms w₁)
    (h' : Grows b asks (fun b => next b w₁) w₁ ms' w₂) :
    Grows b asks (fun b => run b >>= next b) w (ms ++ ms') w₂ where
  enough S hS := by
    obtain ⟨hms, hms'⟩ := List.forall_mem_append.mp hS
    show (run (b.only S) >>= next (b.only S)) = _
    rw [h.enough S hms]
    exact h'.enough S hms'
  needed S hS := by
    show ∃ e, (run (b.only S) >>= next (b.only S)) = .error e
    by_cases hms : ∀ m ∈ ms, m.allowed S
    · -- The first walk has all it needs, so the text is missing in the second.
      rw [h.enough S hms]
      obtain ⟨m, hm, hnot⟩ := hS
      rcases List.mem_append.mp hm with hm | hm
      · exact absurd (hms m hm) hnot
      · exact h'.needed S ⟨m, hm, hnot⟩
    · obtain ⟨m, hm⟩ := not_forall.mp hms
      obtain ⟨hm, hnot⟩ := Classical.not_imp.mp hm
      obtain ⟨e, he⟩ := h.needed S ⟨m, hm, hnot⟩
      rw [he]
      exact ⟨e, rfl⟩
  records := by
    obtain ⟨new, hnew, hwritten⟩ := h.records
    obtain ⟨new', hnew', hwritten'⟩ := h'.records
    refine ⟨new ++ new', by rw [hnew', hnew, List.append_assoc], ?_⟩
    exact List.rel_append hwritten hwritten'
  supplied := List.forall_mem_append.mpr ⟨h.supplied, h'.supplied⟩
  asked := List.forall_mem_append.mpr
    ⟨h.asked.mono fun _ hm => List.mem_append_left _ hm,
      h'.asked.mono fun _ hm => List.mem_append_right _ hm⟩
  visited := List.Subset.trans h.visited h'.visited
  fresh := by
    refine List.forall_mem_append.mpr ⟨fun m hm => ?_, fun m hm => ?_⟩
    · exact ⟨(h.fresh m hm).1, h'.visited (h.fresh m hm).2⟩
    · exact ⟨fun hw => (h'.fresh m hm).1 (h.visited hw), (h'.fresh m hm).2⟩
  distinct := by
    rw [List.map_append]
    refine List.nodup_append.mpr ⟨h.distinct, h'.distinct, fun n hn n' hn' heq => ?_⟩
    -- A name of the first walk is not new to the second.
    obtain ⟨m, hm, rfl⟩ := List.mem_map.mp hn
    obtain ⟨m', hm', rfl⟩ := List.mem_map.mp hn'
    have hseen := (h.fresh m hm).2
    rw [heq] at hseen
    exact (h'.fresh m' hm').1 hseen

/-- What is done without reading may be done in another way. -/
theorem congr (h : Grows b asks run w ms w₁) (heq : ∀ S, run' (b.only S) = run (b.only S)) :
    Grows b asks run' w ms w₁ :=
  { h with
    enough := fun S hS => (heq S).trans (h.enough S hS)
    needed := fun S hS => by
      rw [heq S]
      exact h.needed S hS }

/-- An edge is neither a name nor a record. -/
theorem of_edge {e : Edge} (h : Grows b asks run (w.edge e) ms w₁) : Grows b asks run w ms w₁ :=
  ⟨h.enough, h.needed, h.records, h.supplied, h.asked, h.visited, h.fresh, h.distinct⟩

/-- A stub is emitted without any reading. -/
theorem stub {logical : String} {c : Compiled} (hfresh : logical ∉ w.visited)
    (hloaded : b.isPrerequired logical = false) (hstub : b.isStub logical = true)
    (hc : (SourceUnit.stub logical).asModule false = .ok c) (ahead : Bool) :
    Grows b asks (fun _ => .ok ((w.emit ⟨logical, .module, c.javascript, ahead⟩).mark logical)) w
      [⟨logical, .module ahead, .stub⟩]
      ((w.emit ⟨logical, .module, c.javascript, ahead⟩).mark logical) where
  enough _ _ := rfl
  needed S h := by
    obtain ⟨m, hm, hnot⟩ := h
    obtain rfl := List.mem_singleton.mp hm
    exact absurd trivial hnot
  records := ⟨[_], rfl, .cons (stub_written hc ahead) .nil⟩
  supplied m hm := by
    obtain rfl := List.mem_singleton.mp hm
    exact ⟨fun _ => ⟨hstub, Role.noConfusion⟩, fun _ _ h => Origin.noConfusion h, .inr hloaded⟩
  asked m hm f text hf := by
    obtain rfl := List.mem_singleton.mp hm
    cases hf
  visited := List.subset_cons_self _ _
  fresh m hm := by
    obtain rfl := List.mem_singleton.mp hm
    exact ⟨hfresh, List.mem_cons_self⟩
  distinct := List.pairwise_singleton _ _

/-- A unit with a file is read, its needs are followed and it is emitted. -/
theorem unit {f : Resolved} {text : String} {role : Role} {r : Record}
    {next : Builder → String → Except Failure Walk}
    (hread : b.reader.read f.path = .ok text) (hfresh : f.logical ∉ w.visited)
    (hsupplied : b.Supplies ⟨f.logical, role, .file f text⟩) (hasked : ∃ q, asks q ∧ b.Answers q f)
    (hwritten : Member.Written ⟨f.logical, role, .file f text⟩ r)
    (hneeds : Grows b (· ∈ Member.requests ⟨f.logical, role, .file f text⟩) run
      (w.mark f.logical) ms w₁)
    (hnext : ∀ S, next (b.only S) text = run (b.only S) >>= fun v => .ok (v.emit r)) :
    Grows b asks (fun b => b.reader.read f.path >>= next b) w
      (ms ++ [⟨f.logical, role, .file f text⟩]) (w₁.emit r) where
  enough S hS := by
    obtain ⟨hms, hm⟩ := List.forall_mem_append.mp hS
    have hmem : S f.path = true := hm _ (List.mem_singleton_self _)
    show ((b.only S).reader.read f.path >>= next (b.only S)) = _
    rw [read_only_of_mem hmem, hread]
    show next (b.only S) text = _
    rw [hnext, hneeds.enough S hms]
    rfl
  needed S hS := by
    show ∃ e, ((b.only S).reader.read f.path >>= next (b.only S)) = .error e
    by_cases hmem : S f.path = true
    · -- The unit itself is read, so it is a need that lacks its text.
      obtain ⟨m, hm, hnot⟩ := hS
      have hm : m ∈ ms := by
        rcases List.mem_append.mp hm with hm | hm
        · exact hm
        · obtain rfl := List.mem_singleton.mp hm
          exact absurd hmem hnot
      obtain ⟨e, he⟩ := hneeds.needed S ⟨m, hm, hnot⟩
      rw [read_only_of_mem hmem, hread]
      refine ⟨e, ?_⟩
      show next (b.only S) text = _
      rw [hnext, he]
      rfl
    · rw [read_only_of_notMem hmem]
      exact ⟨_, rfl⟩
  records := by
    obtain ⟨new, hnew, hnews⟩ := hneeds.records
    refine ⟨new ++ [r], ?_, List.rel_append hnews (.cons hwritten .nil)⟩
    show w₁.records ++ [r] = _
    rw [hnew, List.append_assoc]
    rfl
  supplied := List.forall_mem_append.mpr ⟨hneeds.supplied, by simpa using hsupplied⟩
  asked := by
    refine List.forall_mem_append.mpr ⟨fun m hm g t hg => ?_, fun m hm g t hg => ?_⟩
    · -- What the unit declares is asked for by a member now.
      obtain ⟨q, hq, hanswers⟩ := hneeds.asked m hm g t hg
      refine ⟨q, .inr ?_, hanswers⟩
      rcases hq with hq | ⟨m', hm', hq⟩
      · exact ⟨_, List.mem_append_right _ (List.mem_singleton_self _), hq⟩
      · exact ⟨m', List.mem_append_left _ hm', hq⟩
    · obtain rfl := List.mem_singleton.mp hm
      obtain ⟨rfl, rfl⟩ := Origin.file.inj hg
      obtain ⟨q, hq, hanswers⟩ := hasked
      exact ⟨q, .inl hq, hanswers⟩
  visited := List.Subset.trans (List.subset_cons_self _ _) hneeds.visited
  fresh := by
    refine List.forall_mem_append.mpr ⟨fun m hm => ?_, fun m hm => ?_⟩
    · obtain ⟨hnot, hmem⟩ := hneeds.fresh m hm
      exact ⟨fun h => hnot (List.mem_cons_of_mem _ h), hmem⟩
    · obtain rfl := List.mem_singleton.mp hm
      exact ⟨hfresh, hneeds.visited List.mem_cons_self⟩
  distinct := by
    rw [List.map_append]
    refine List.nodup_append.mpr
      ⟨hneeds.distinct, List.pairwise_singleton _ _, fun n hn n' hn' heq => ?_⟩
    obtain ⟨m, hm, rfl⟩ := List.mem_map.mp hn
    have heq : m.logical = f.logical := heq.trans (List.mem_singleton.mp hn')
    exact (hneeds.fresh m hm).1 (heq ▸ List.mem_cons_self)

/-- The members before the last one have other names. -/
theorem ne_last {m : Member} (h : Grows b asks run w (ms ++ [m]) w₁) {m' : Member} (hm' : m' ∈ ms) :
    m'.logical ≠ m.logical := by
  have hdistinct := h.distinct
  rw [List.map_append] at hdistinct
  exact (List.nodup_append.mp hdistinct).2.2 _ (List.mem_map.mpr ⟨m', hm', rfl⟩) _
    (List.mem_singleton_self _)

end Grows

end Builder

end RubyJs
