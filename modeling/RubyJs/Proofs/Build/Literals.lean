import RubyJs.Proofs.Build.Entries
import RubyJs.Proofs.Build.Lookup
import RubyJs.Proofs.Emission.Declarations

set_option autoImplicit false

/-! # Names as they are written

A program writes a name with or without the extension of a file, and declares that it needs the
logical name. The extension is gone then, and the file is looked up by what is left.

    require 'a'         looks up a:    lib/a, lib/a.rb, lib/a.js
    require 'a.js'      looks up a:    lib/a, lib/a.rb, lib/a.js
    preload a.js        looks up a.js: lib/a.js

So a name that is required with an extension can bring another file than the one that is written, and
it can bring a file where the one that is written is missing. `Resolver.Tells` says when neither
happens, and `Builder.build_require_literal` what a build includes in any case.
-/

namespace RubyJs

open LogicalName (fold splitExtension)

/-! ## The directory that has a file -/

/-- The text of a joined path ends in the name, after nothing or after a slash. -/
theorem Path.exists_text_join (base : Path) (name : String) :
    ∃ front : List Char, (base.join name).text.toList = front ++ name.toList
      ∧ ∀ c ∈ front.getLast?, c = '/' := by
  unfold join
  split
  · exact ⟨[], rfl, by simp⟩
  · split
    · rename_i hslash
      exact ⟨base.text.toList, by simp, by simp [beq_iff_eq.mp hslash]⟩
    · exact ⟨base.text.toList ++ ['/'], by simp, by simp⟩

/-- No directory has a file under a name with an extension that another has under the name without
it. -/
theorem Path.join_ne_join_append {base base' : Path} {stem ext : String} (hslash : '/' ∉ ext.toList)
    (hstem : ∀ t, stem ≠ t ++ ext) : base.join stem ≠ base'.join (stem ++ ext) := by
  intro heq
  obtain ⟨front, hfront, hlast⟩ := exists_text_join base stem
  obtain ⟨front', hfront', -⟩ := exists_text_join base' (stem ++ ext)
  rw [heq, hfront', String.toList_append, ← List.append_assoc] at hfront
  rcases List.append_eq_append_iff.mp hfront with ⟨cs, hcs, hext⟩ | ⟨cs, -, hend⟩
  · -- The extension reaches back before the stem, where a slash stands.
    rcases List.eq_nil_or_concat cs with rfl | ⟨cs, c, rfl⟩
    · exact hstem "" (String.toList_inj.mp (by simpa using hext.symm))
    · have hc : c = '/' := hlast c (by simp [hcs])
      exact hslash (by simp [hext, hc])
  · exact hstem (String.ofList cs) (String.toList_inj.mp (by simpa using hend))

/-- Let the search for `h` find nothing where the one for `g` does not, and let it find there what both
find somewhere. Then the two give the same exactly if they agree in the place where the one for `g`
ends. -/
theorem findSome?_eq_iff {α β : Type} {g h : α → Option β} (hnone : ∀ x, g x = none → h x = none)
    (hsome : ∀ x y z, g x = some z → h y = some z → h x = some z) (xs : List α) :
    xs.findSome? g = xs.findSome? h ↔
      ∀ x, xs.find? (fun x => (g x).isSome) = some x → h x = g x := by
  induction xs with
  | nil => simp
  | cons x xs ih =>
      cases hx : g x with
      | none => simp [hx, hnone x hx, ih]
      | some z =>
          -- The search for `g` ends here. The other one goes on if it finds nothing, but what it finds
          -- later is never `z`.
          have hfirst : (x :: xs).find? (fun x => (g x).isSome) = some x := by simp [hx]
          rw [List.findSome?_cons, hx, hfirst]
          constructor
          · intro heq x' hx'
            obtain rfl := Option.some.inj hx'
            obtain ⟨y, -, hy⟩ := List.exists_of_findSome?_eq_some heq.symm
            rw [hx, hsome x y z hx hy]
          · intro heq
            rw [List.findSome?_cons, heq x rfl, hx]

namespace Resolver

/-- The file that a directory has for a name. -/
def pick (r : Resolver) (name : String) (base : Path) : Option (Path × Processor) :=
  (r.candidates (fold name) (splitExtension (fold name)).2 base).find? (r.reader.isFile ·.1)

/-- That a literal and its logical name mean the same file. If the literal has an extension, what is
left without it has none, and the first directory that has some file for it has no better one than the
file that is written. -/
def Tells (r : Resolver) (literal : String) : Prop :=
  ∀ p, (splitExtension (fold literal)).2 = some p →
    LogicalName.normalize (LogicalName.normalize literal) = LogicalName.normalize literal
    ∧ ∀ base, r.paths.find? (fun base => (r.pick (LogicalName.normalize literal) base).isSome) =
        some base → r.pick (LogicalName.normalize literal) base = some (base.join (fold literal), p)

variable {r : Resolver} {name requester : String}
variable {c : Path × Processor} {base : Path}

theorem resolve_eq_findSome? : r.resolve name requester = (r.paths.findSome? (r.pick name)).elim
    (.error (.unresolved (LogicalName.normalize name) requester))
    fun c => .ok ⟨LogicalName.normalize name, c.1, c.2⟩ := by
  have hfind : (r.paths.flatMap (r.candidates (fold name) (splitExtension (fold name)).2)).find?
      (r.reader.isFile ·.1) = r.paths.findSome? (r.pick name) := List.find?_flatMap
  simp only [resolve, hfind]
  cases r.paths.findSome? (r.pick name) <;> rfl

/-- Two names are resolved alike if they have one logical name and are found in one place. -/
theorem resolve_eq_iff {name' : String} : r.resolve name requester = r.resolve name' requester ↔
    LogicalName.normalize name = LogicalName.normalize name'
      ∧ r.paths.findSome? (r.pick name) = r.paths.findSome? (r.pick name') := by
  rw [resolve_eq_findSome?, resolve_eq_findSome?]
  cases r.paths.findSome? (r.pick name) with
  | none => cases r.paths.findSome? (r.pick name') <;> simp
  | some c =>
      cases r.paths.findSome? (r.pick name') with
      | none => simp
      | some c' => simp [Prod.ext_iff]

theorem mem_of_pick (h : r.pick name base = some c) :
    c ∈ r.candidates (fold name) (splitExtension (fold name)).2 base ∧ r.reader.isFile c.1 = true := by
  unfold pick at h
  have hfile := List.find?_some h
  exact ⟨List.mem_of_find?_eq_some h, hfile⟩

/-- A name with an extension means one file below a directory. -/
theorem pick_of_extension {p : Processor} (h : (splitExtension (fold name)).2 = some p) :
    r.pick name base = some c ↔
      r.reader.isFile (base.join (fold name)) = true ∧ c = (base.join (fold name), p) := by
  rw [pick, h, candidates, List.find?_singleton]
  split
  · rename_i hfile
    rw [and_iff_right hfile, Option.some_inj, eq_comm]
  · rename_i hfile
    exact iff_of_false (by simp) fun hc => hfile hc.1

/-- A logical name means the file of that very name below a directory, or one with an extension. -/
theorem mem_candidates {stem : String} (hstem : LogicalName.normalize stem = stem) :
    c ∈ r.candidates (fold stem) (splitExtension (fold stem)).2 base ↔
      c = (base.join stem, r.defaultProcessor)
        ∨ ∃ p : Processor, c = (base.join (stem ++ ("." ++ p.extension)), p) := by
  obtain ⟨hfold, hnone⟩ := LogicalName.normalize_eq_self_iff.mp hstem
  rw [hfold, hnone, candidates]
  simp only [List.mem_cons, List.not_mem_nil, or_false]
  refine or_congr_right ⟨?_, ?_⟩
  · rintro (rfl | rfl)
    · exact ⟨.ruby, rfl⟩
    · exact ⟨.javascript, rfl⟩
  · rintro ⟨p, rfl⟩
    cases p with
    | ruby => exact .inl rfl
    | javascript => exact .inr rfl

section Extension

variable {literal : String} {p : Processor} (hext : (splitExtension (fold literal)).2 = some p)
  (hstem : LogicalName.normalize (LogicalName.normalize literal) = LogicalName.normalize literal)
include hext hstem

/-- The file that is written is one that the logical name can mean. -/
theorem pick_eq_none (h : r.pick (LogicalName.normalize literal) base = none) :
    r.pick literal base = none := by
  rw [Option.eq_none_iff_forall_ne_some]
  intro c hc
  obtain ⟨hfile, rfl⟩ := (pick_of_extension hext).mp hc
  have hmem : (base.join (fold literal), p) ∈ r.candidates (fold (LogicalName.normalize literal))
      (splitExtension (fold (LogicalName.normalize literal))).2 base := by
    refine (mem_candidates hstem).mpr (.inr ⟨p, ?_⟩)
    rw [LogicalName.normalize, ← LogicalName.eq_stem_append hext]
  exact List.find?_eq_none.mp h _ hmem hfile

/-- If a directory has for the logical name what another one has for the literal, it has it for the
literal too. -/
theorem pick_eq_some {base' : Path} (h : r.pick (LogicalName.normalize literal) base = some c)
    (h' : r.pick literal base' = some c) : r.pick literal base = some c := by
  obtain ⟨-, rfl⟩ := (pick_of_extension hext).mp h'
  obtain ⟨hmem, hfile⟩ := mem_of_pick h
  have hname : fold literal = LogicalName.normalize literal ++ ("." ++ p.extension) :=
    LogicalName.eq_stem_append hext
  refine (pick_of_extension hext).mpr ?_
  rcases (mem_candidates hstem).mp hmem with heq | ⟨p', heq⟩
  · -- A logical name has no extension, so no file is written in both ways.
    rw [hname] at heq
    refine absurd (Prod.mk.inj heq).1.symm (Path.join_ne_join_append ?_ fun t ht => ?_)
    · cases p <;> decide
    · have hnone := (LogicalName.normalize_eq_self_iff.mp hstem).2
      rw [ht, LogicalName.splitExtension_append] at hnone
      cases hnone
  · obtain ⟨hpath, rfl⟩ := Prod.mk.inj heq
    rw [← hname] at hpath
    rw [hpath] at hfile
    exact ⟨hfile, by rw [hpath]⟩

end Extension

/-- A literal and its logical name are resolved alike exactly if they mean the same file. -/
theorem resolve_normalize_iff {literal : String} :
    r.resolve (LogicalName.normalize literal) requester = r.resolve literal requester ↔
      r.Tells literal := by
  cases hext : (splitExtension (fold literal)).2 with
  | none =>
      have hplain : LogicalName.normalize literal = fold literal := LogicalName.splitExtension_stem hext
      -- Without an extension the literal is its own logical name, but for the folding.
      refine iff_of_true ?_ fun p hp => absurd (hext.symm.trans hp) (by simp)
      rw [hplain, resolve, LogicalName.fold_fold, resolve]
  | some p =>
      rw [resolve_eq_iff]
      constructor
      · rintro ⟨hstem, hfind⟩ p' hp'
        obtain rfl := Option.some.inj (hext.symm.trans hp')
        refine ⟨hstem, fun base hbase => ?_⟩
        have heq := (findSome?_eq_iff (fun _ => pick_eq_none hext hstem)
          (fun _ _ _ => pick_eq_some hext hstem) r.paths).mp hfind base hbase
        have hsome := List.find?_some hbase
        obtain ⟨c, hc⟩ := Option.isSome_iff_exists.mp hsome
        rw [hc, ((pick_of_extension hext).mp (heq.trans hc)).2]
      · intro htells
        obtain ⟨hstem, hfirst⟩ := htells p hext
        refine ⟨hstem, (findSome?_eq_iff (fun _ => pick_eq_none hext hstem)
          (fun _ _ _ => pick_eq_some hext hstem) r.paths).mpr fun base hbase => ?_⟩
        have hpick := hfirst base hbase
        rw [hpick]
        exact (pick_of_extension hext).mpr ⟨(mem_of_pick hpick).2, rfl⟩

end Resolver

/-! ## Literals in a program -/

/-- The literal of a `require`. -/
def Expr.required? : Expr → Option String
  | .call { recv := none, name := "require", args := [a], block := none, blockArg := none } =>
    a.literal?
  | _ => none

/-- That a program has a `require` with this literal which gets code. -/
def Program.Requires (program : Program) (literal : String) : Prop :=
  ∃ e ∈ program.body, ∃ e' q, Occurs generated e {} e' q ∧ e'.required? = some literal

/-- A `require` that is a statement of the program gets code. -/
theorem Program.requires_of_mem {program : Program} {literal : String}
    (h : literal ∈ program.body.filterMap Expr.required?) : program.Requires literal := by
  obtain ⟨e, he, hliteral⟩ := List.mem_filterMap.mp h
  exact ⟨e, he, e, {}, .here, hliteral⟩

/-- A `require` declares the logical name of its literal. -/
theorem Program.Requires.declares {program : Program} {literal : String}
    (h : program.Requires literal) (file : String) :
    program.Declares file generated ⟨LogicalName.normalize literal, .direct⟩ := by
  obtain ⟨e, he, e', q, hocc, hliteral⟩ := h
  unfold Expr.required? at hliteral
  split at hliteral
  · rename_i a
    refine ⟨e, he, _, q, hocc, ?_⟩
    show a.literal?.map (fun t => (⟨LogicalName.normalize t, .direct⟩ : Declaration)) = _
    rw [hliteral]
    rfl
  · cases hliteral

namespace Builder

/-! ## The needs of an entry -/

/-- A declaration stands after those that are taken before it. -/
theorem eq_takeWhile_append_cons {ds : List Declaration} {d : Declaration} (h : d ∈ ds) :
    ∃ after, ds = ds.takeWhile (· != d) ++ d :: after := by
  induction ds with
  | nil => cases h
  | cons e ds ih =>
      by_cases he : e = d
      · exact ⟨ds, by simp [he]⟩
      · obtain ⟨after, hafter⟩ := ih ((List.mem_cons.mp h).resolve_left (Ne.symm he))
        refine ⟨after, ?_⟩
        rw [List.takeWhile_cons, if_pos (bne_iff_ne.mpr he), List.cons_append, ← hafter]

theorem followAll_append (b : Builder) (visit : Visit) (source : String) (ds es : List Declaration)
    (w : Walk) : b.followAll visit source (ds ++ es) w =
      b.followAll visit source ds w >>= b.followAll visit source es := by
  induction ds generalizing w with
  | nil => rfl
  | cons d ds ih =>
      rw [List.cons_append, followAll, followAll]
      cases b.pending source d with
      | error e => rfl
      | ok needs =>
      show (b.enterAll visit source d.kind false needs w >>= _) =
        (b.enterAll visit source d.kind false needs w >>= _) >>= _
      cases b.enterAll visit source d.kind false needs w with
      | error e => rfl
      | ok v => exact ih v

theorem followAll_direct (b : Builder) (visit : Visit) (source name : String)
    (ds : List Declaration) (w : Walk) : b.followAll visit source (⟨name, .direct⟩ :: ds) w =
      b.enter visit source .direct false (.name name) w >>= b.followAll visit source ds := by
  show (b.enter visit source .direct false (.name name) w >>= pure) >>= _ = _
  rw [bind_pure]

/-- A need for a name that is new fails if no file is found for it. -/
theorem enter_name_unresolved {b : Builder} {visit : Visit} {source name : String} {kind : EdgeKind}
    {ahead : Bool} {w : Walk} {e : Failure} (hfresh : LogicalName.normalize name ∉ w.visited)
    (hloaded : b.isPrerequired (LogicalName.normalize name) = false)
    (hstub : b.isStub (LogicalName.normalize name) = false)
    (h : b.resolver.resolve name source = .error e) :
    b.enter visit source kind ahead (.name name) w =
      .error (.unresolved (LogicalName.normalize name) source) := by
  have hfresh : (Pending.name name).logical ∉ w.visited := hfresh
  rw [enter_file hfresh hloaded hstub, ← Resolver.resolve_error h]
  show (b.resolver.resolve name source >>= _) = _
  rw [h]
  rfl

/-- The entry of a build that is read and compiled, after what is loaded ahead. -/
structure Opened (b : Builder) (entry : String) where
  ahead : Walk
  file : Resolved
  text : String
  program : Program
  compiled : Compiled
  preload_eq : b.preload = .ok ahead
  resolve_eq : b.resolver.resolve entry entryRequester = .ok file
  fresh : file.logical ∉ ahead.visited
  read_eq : b.reader.read file.path = .ok text
  ruby : file.processor = .ruby
  parse_eq : parseUnit file.logical text = .ok program
  compile_eq : compileProgram program ⟨file.logical, false, false⟩ = .ok compiled

namespace Opened

variable {b : Builder} {entry : String}

/-- Follows declarations of the entry. -/
def follow (o : b.Opened entry) : List Declaration → Walk → Except Failure Walk :=
  b.followAll (b.visit (b.depth - 1)) o.file.logical

/-- The walk over what the entry declares before `d`. -/
def walkTo (o : b.Opened entry) (d : Declaration) : Except Failure Walk :=
  o.follow (o.compiled.declarations.takeWhile (· != d)) (o.ahead.mark o.file.logical)

/-- The entry as a member of its bundle. -/
def member (o : b.Opened entry) : Member := ⟨o.file.logical, .entry, .file o.file o.text⟩

/-- The record of the entry. -/
def record (o : b.Opened entry) : Record := ⟨o.file.logical, .entry, o.compiled.javascript, false⟩

theorem compile_text (o : b.Opened entry) :
    compile o.text ⟨o.file.logical, false, false⟩ = .ok o.compiled := by
  rw [compile, o.parse_eq]
  exact o.compile_eq

theorem written (o : b.Opened entry) : o.member.Written o.record :=
  compiled_written o.ruby o.compile_text

/-- A build follows what the entry declares, and emits the entry. -/
theorem build_eq (o : b.Opened entry) : b.build entry =
    o.follow o.compiled.declarations (o.ahead.mark o.file.logical) >>= fun w =>
      .ok (b.finish (w.emit o.record)) := by
  have hwalk : b.walkEntry entry o.ahead =
      o.follow o.compiled.declarations (o.ahead.mark o.file.logical) >>= fun w =>
        .ok (w.emit o.record) := by
    rw [walkEntry, o.resolve_eq]
    refine (if_neg (mt List.contains_iff_mem.mp o.fresh)).trans ?_
    rw [o.read_eq]
    -- The bound on the depth is never zero.
    refine (visit_ruby (u := SourceUnit.ofResolved o.file o.text) o.ruby (b.depth - 1) .entry).trans ?_
    show (compile o.text ⟨o.file.logical, false, false⟩ >>= _) = _
    rw [o.compile_text]
    rfl
  rw [build_eq_walk, o.preload_eq]
  show (b.walkEntry entry o.ahead >>= _) = _
  rw [hwalk, bind_assoc]
  rfl

/-- A literal that the entry requires is declared. -/
theorem declares (o : b.Opened entry) {literal : String} (h : o.program.Requires literal) :
    ⟨LogicalName.normalize literal, .direct⟩ ∈ o.compiled.declarations := by
  have hcompile := o.compile_eq
  unfold compileProgram at hcompile
  split at hcompile
  · cases hcompile
  · rename_i g hgenerate
    rw [← Except.ok.inj hcompile]
    exact (mem_declarations_iff hgenerate _).mpr (h.declares _)

/-- A need that the entry declares is followed after those before it. -/
theorem follow_declarations (o : b.Opened entry) {name : String} {v : Walk}
    (h : ⟨name, .direct⟩ ∈ o.compiled.declarations) (hv : o.walkTo ⟨name, .direct⟩ = .ok v) :
    ∃ after, o.follow o.compiled.declarations (o.ahead.mark o.file.logical) =
      b.enter (b.visit (b.depth - 1)) o.file.logical .direct false (.name name) v >>=
        o.follow after := by
  obtain ⟨after, hsplit⟩ := eq_takeWhile_append_cons h
  refine ⟨after, ?_⟩
  rw [follow, hsplit, followAll_append]
  rw [walkTo, follow] at hv
  rw [hv]
  exact followAll_direct ..

end Opened

/-- **A name that the entry requires is looked up without its extension.** Let `o` be the entry, and
`v` the walk over what it declares before the literal, where the name was not met yet. Then a build
that succeeds includes the file that the logical name of the literal is resolved to, and a build fails
if there is none. That is the file of the literal itself, or fails as the literal does, exactly if the
literal tells it. -/
theorem build_require_literal {b : Builder} {entry : String} (o : b.Opened entry) (literal : String)
    (hrequires : o.program.Requires literal) (v : Walk)
    (hv : o.walkTo ⟨LogicalName.normalize literal, .direct⟩ = .ok v)
    (hfresh : LogicalName.normalize (LogicalName.normalize literal) ∉ v.visited)
    (hloaded : b.isPrerequired (LogicalName.normalize (LogicalName.normalize literal)) = false)
    (hstub : b.isStub (LogicalName.normalize (LogicalName.normalize literal)) = false) :
    (∀ a, b.build entry = .ok a → ∃ f text front back,
      b.resolver.resolve (LogicalName.normalize literal) o.file.logical = .ok f
      ∧ b.reader.read f.path = .ok text
      ∧ a.Holds b.options.banner (front ++
        ⟨LogicalName.normalize (LogicalName.normalize literal), .module false, .file f text⟩ :: back))
    ∧ (∀ e, b.resolver.resolve (LogicalName.normalize literal) o.file.logical = .error e →
      b.build entry = .error (.unresolved (LogicalName.normalize (LogicalName.normalize literal))
        o.file.logical))
    ∧ (b.resolver.resolve (LogicalName.normalize literal) o.file.logical =
        b.resolver.resolve literal o.file.logical ↔ b.resolver.Tells literal) := by
  obtain ⟨after, hfollow⟩ := o.follow_declarations (o.declares hrequires) hv
  refine ⟨fun a h => ?_, fun e he => ?_, Resolver.resolve_normalize_iff⟩
  · rw [o.build_eq, hfollow] at h
    obtain ⟨w, hw, h⟩ := bind_eq_ok h
    obtain rfl := Except.ok.inj h
    obtain ⟨u, henter, hafter⟩ := bind_eq_ok hw
    obtain ⟨-, ahead, -, hgrows⟩ := preload_grows entry o.preload_eq
    have hahead : Walk.Adds {} ahead (o.ahead.mark o.file.logical) := hgrows.records
    obtain ⟨needs, hneeds, -⟩ := followAll_adds hv
    obtain ⟨deps, origin, hunit, -, horigin⟩ := enter_name_adds hfresh hloaded henter
    obtain ⟨rest, hrest, -⟩ := followAll_adds hafter
    obtain ⟨-, f, text, hfile, hread, rfl⟩ := horigin.resolve_left (by simp [hstub])
    -- What is loaded ahead, what the entry needs before, the unit after its own needs, what the entry
    -- needs later, and the entry.
    have hall := (((hahead.trans hneeds).trans hunit).trans hrest).trans (.emit o.written w)
    refine ⟨f, text, ahead ++ needs ++ deps, rest ++ [o.member], hfile, hread, ?_⟩
    simpa using finish_holds (b := b) hall
  · rw [o.build_eq, hfollow, enter_name_unresolved hfresh hloaded hstub he]
    rfl

/-- A builder whose entry requires two files with their extensions. Beside the first one stands a file
of the same name with the other extension. -/
def spelling : Builder where
  reader := (MemoryStore.ofFiles
    [(⟨"lib/main.rb"⟩, "require 'a.js'\nrequire './x/../c.js'"), (⟨"lib/a.rb"⟩, "1"),
      (⟨"lib/a.js"⟩, "2"), (⟨"lib/c.js"⟩, "3")]).reader
  paths := [⟨"lib"⟩]

/-- The entry of that builder, as a build comes to it. -/
theorem spelling_opened : ∃ o : spelling.Opened "main", o.ahead = {} ∧ o.file.logical = "main"
    ∧ o.compiled.declarations = [⟨"a", .direct⟩, ⟨"c", .direct⟩]
    ∧ o.program.Requires "a.js" ∧ o.program.Requires "./x/../c.js" := by
  let text := "require 'a.js'\nrequire './x/../c.js'"
  obtain ⟨f, hfile, rfl⟩ : ∃ f, spelling.resolver.resolve "main" entryRequester = .ok f
      ∧ f = ⟨"main", ⟨"lib/main.rb"⟩, .ruby⟩ := exists_ok_of_any (by decide +kernel)
  obtain ⟨text', hread, rfl⟩ : ∃ t, spelling.reader.read ⟨"lib/main.rb"⟩ = .ok t ∧ t = text :=
    exists_ok_of_any (by decide +kernel)
  obtain ⟨program, hparse, hliterals⟩ : ∃ p, parseUnit "main" text = .ok p
      ∧ p.body.filterMap Expr.required? = ["a.js", "./x/../c.js"] :=
    exists_ok_of_any (by decide +kernel)
  obtain ⟨compiled, hcompile, hdeclared⟩ : ∃ c, compile text ⟨"main", false, false⟩ = .ok c
      ∧ c.declarations = [⟨"a", .direct⟩, ⟨"c", .direct⟩] := exists_ok_of_any (by decide +kernel)
  rw [compile, hparse] at hcompile
  have hrequires : ∀ literal ∈ ["a.js", "./x/../c.js"], program.Requires literal :=
    fun literal h => Program.requires_of_mem (hliterals ▸ h)
  exact ⟨⟨{}, _, text, program, compiled, rfl, hfile, List.not_mem_nil, hread, rfl, hparse, hcompile⟩,
    rfl, rfl, hdeclared, hrequires _ (by decide), hrequires _ (by decide)⟩

/-- A literal with an extension brings its file if there is no other one of that name. -/
theorem build_require_literal_exact : ∃ (o : spelling.Opened "main") (a : Artifact) (text : String)
    (front back : List Member), o.program.Requires "./x/../c.js" ∧ spelling.build "main" = .ok a
      ∧ spelling.resolver.Tells "./x/../c.js"
      ∧ spelling.resolver.resolve "./x/../c.js" "main" = .ok ⟨"c", ⟨"lib/c.js"⟩, .javascript⟩
      ∧ a.Holds false
        (front ++ ⟨"c", .module false, .file ⟨"c", ⟨"lib/c.js"⟩, .javascript⟩ text⟩ :: back) := by
  obtain ⟨o, hahead, hmain, hdeclared, -, hrequires⟩ := spelling_opened
  obtain ⟨a, hbuild, -⟩ : ∃ a, spelling.build "main" = .ok a ∧ a.units = ["a", "c", "main"] :=
    exists_ok_of_any (by decide +kernel)
  obtain ⟨v, hv, hfresh⟩ : ∃ v, spelling.followAll (spelling.visit (spelling.depth - 1)) "main"
      [⟨"a", .direct⟩] (({} : Walk).mark "main") = .ok v
        ∧ LogicalName.normalize (LogicalName.normalize "./x/../c.js") ∉ v.visited :=
    exists_ok_of_any (by decide +kernel)
  have hto : o.walkTo ⟨LogicalName.normalize "./x/../c.js", .direct⟩ = .ok v := by
    have hbefore : [(⟨"a", .direct⟩ : Declaration), ⟨"c", .direct⟩].takeWhile
        (· != ⟨LogicalName.normalize "./x/../c.js", .direct⟩) = [⟨"a", .direct⟩] := by decide +kernel
    rw [Opened.walkTo, Opened.follow, hdeclared, hbefore, hahead, hmain, hv]
  obtain ⟨f, hname, rfl⟩ : ∃ f, spelling.resolver.resolve (LogicalName.normalize "./x/../c.js")
      "main" = .ok f ∧ f = ⟨"c", ⟨"lib/c.js"⟩, .javascript⟩ := exists_ok_of_any (by decide +kernel)
  obtain ⟨f, hwritten, rfl⟩ : ∃ f, spelling.resolver.resolve "./x/../c.js" "main" = .ok f
      ∧ f = ⟨"c", ⟨"lib/c.js"⟩, .javascript⟩ := exists_ok_of_any (by decide +kernel)
  obtain ⟨hincluded, -, htells⟩ := build_require_literal o "./x/../c.js" hrequires v hto hfresh
    (by decide +kernel) (by decide +kernel)
  rw [hmain] at hincluded htells
  obtain ⟨f, text, front, back, hfile, -, hheld⟩ := hincluded a hbuild
  obtain rfl := Except.ok.inj (hname.symm.trans hfile)
  have hlogical : LogicalName.normalize (LogicalName.normalize "./x/../c.js") = "c" := by
    decide +kernel
  rw [hlogical] at hheld
  exact ⟨o, a, text, front, back, hrequires, hbuild, htells.mp (hname.trans hwritten.symm), hwritten,
    hheld⟩

/-- A literal with an extension brings the file with the other extension if there is one, although its
own file is there. -/
theorem build_require_sibling : ∃ (o : spelling.Opened "main") (w : Walk),
    o.program.Requires "a.js" ∧ spelling.build "main" = .ok (spelling.finish w)
      ∧ w.records.map (fun r => (r.logical, r.kind, r.preload)) =
        [("a", .module, false), ("c", .native, false), ("main", .entry, false)]
      ∧ spelling.resolver.resolve "a.js" o.file.logical = .ok ⟨"a", ⟨"lib/a.js"⟩, .javascript⟩ := by
  obtain ⟨o, -, hmain, -, hrequires, -⟩ := spelling_opened
  obtain ⟨w, hwalk, hrecords⟩ : ∃ w, (spelling.preload >>= spelling.walkEntry "main") = .ok w
      ∧ w.records.map (fun r => (r.logical, r.kind, r.preload)) =
        [("a", .module, false), ("c", .native, false), ("main", .entry, false)] :=
    exists_ok_of_any (by decide +kernel)
  obtain ⟨f, hfile, rfl⟩ : ∃ f, spelling.resolver.resolve "a.js" "main" = .ok f
      ∧ f = ⟨"a", ⟨"lib/a.js"⟩, .javascript⟩ := exists_ok_of_any (by decide +kernel)
  exact ⟨o, w, hrequires, build_eq_finish hwalk, hrecords, by rw [hmain, hfile]⟩

end Builder

end RubyJs
