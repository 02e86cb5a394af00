import RubyJs.Proofs.Logic.Emissions
import RubyJs.Proofs.Ownership

set_option autoImplicit false

/-! # Logical units

The script of a unit declares its variables, makes the text after the marker line readable if there
is one, and runs the body:

    var self = Opal.top, $scope = Opal, nil = Opal.nil, x = nil, $t1;
    x = true;
    return (Opal.truthy($t1 = x) ? nil : $t1);

For a logical program the text of the script, read and run, returns the value of the program and
leaves the variables with their values.
-/

namespace RubyJs.Logic

open JavaScript (Letters Env Bare Printed PrintedItem PrintedLines PrintedStmts lineText)
open Script (Term Stmt Name localName)

variable {L : Letters} {vars : List String} {n : Nat} {ρ : Store} {σ : Env}
variable {locals : List String}

/-! ## The declaration of the variables -/

/-- What a unit declares with a first value of its own. -/
def openingItems : List (String × Option JavaScript.Term) :=
  [("self", some (.member (.name "Opal") "top")), ("$scope", some (.name "Opal")),
    ("nil", some (.member (.name "Opal") "nil"))]

/-- What a unit declares for the variables of the program. -/
def localItems (locals : List String) : List (String × Option JavaScript.Term) :=
  locals.map fun x => (localName x, some (.name "nil"))

/-- The names of the temporaries. -/
def tempNames (temps : Nat) : List String :=
  (List.range temps).map fun i => (Name.temp (i + 1)).text

/-- What a unit declares for its temporaries. -/
def tempItems (temps : Nat) : List (String × Option JavaScript.Term) :=
  (tempNames temps).map fun x => (x, none)

/-- All that a unit declares. -/
def unitItems (locals : List String) (temps : Nat) : List (String × Option JavaScript.Term) :=
  openingItems ++ localItems locals ++ tempItems temps

theorem bare_opal : Bare L .opal (.name "Opal") :=
  JavaScript.bare_name (JavaScript.isVariable_ascii (by decide) (by decide))

theorem printed_openingItems :
    List.Forall₂ (PrintedItem L) (Script.initTexts 1 unitInits) openingItems := by
  have hmember : ∀ p, Script.isIdentifier p = true →
      Printed L 4 (.member .opal p) (.member (.name "Opal") p) := fun p hp =>
    (bare_opal.member (JavaScript.isName_ascii hp)).printed (by decide)
  have hitem : ∀ {w : String} {t : Term} {e : JavaScript.Term}, Script.isIdentifier w = true →
      JavaScript.reservedWords.contains w = false → Printed L 4 t e →
      PrintedItem L (w ++ " = " ++ t.text 1) (w, some e) := fun hname hword ht =>
    JavaScript.printedItem_value (JavaScript.isVariable_ascii hname hword) ht 1
  exact .cons (hitem (by decide) (by decide) (hmember "top" (by decide)))
    (.cons (hitem (by decide) (by decide) (bare_opal.printed (by decide)))
      (.cons (hitem (by decide) (by decide) (hmember "nil" (by decide))) .nil))

theorem printed_localItems (h : ∀ x ∈ locals, IsLocal L x) :
    List.Forall₂ (PrintedItem L) (locals.map fun x => localName x ++ " = nil")
      (localItems locals) := by
  induction locals with
  | nil => exact .nil
  | cons x locals ih =>
      refine .cons ?_ (ih fun y hy => h y (List.mem_cons_of_mem _ hy))
      have hnil : Bare L .nil (.name "nil") :=
        JavaScript.bare_name (JavaScript.isVariable_ascii (by decide) (by decide))
      have hitem := JavaScript.printedItem_value (h x List.mem_cons_self).isVariable
        (hnil.printed (k := 4) (by decide)) 1
      rwa [String.append_assoc] at hitem

theorem printed_tempItems (temps : Nat) :
    List.Forall₂ (PrintedItem L) (tempNames temps) (tempItems temps) := by
  rw [tempItems, List.forall₂_map_right_iff, List.forall₂_same]
  intro x hx
  obtain ⟨i, -, rfl⟩ := List.mem_map.mp hx
  exact JavaScript.printedItem_name (isVariable_temp (i + 1))

/-- The line that declares the variables. -/
theorem printed_varLine (h : ∀ x ∈ locals, IsLocal L x) (temps : Nat) :
    PrintedLines L ((Script.varLine (Script.initTexts 1 unitInits) locals temps).map
      (Script.pad 1 ++ ·)) [.var (unitItems locals temps)] :=
  JavaScript.printed_var (List.rel_append
    (List.rel_append printed_openingItems (printed_localItems h)) (printed_tempItems temps)) 1

/-- The variables of the unit itself get their first values. -/
theorem declare_openingItems (items : List (String × Option JavaScript.Term))
    (hopal : σ "Opal" = some .runtime) (hdeclared : ∀ w ∈ ["self", "$scope", "nil"], (σ w).isSome)
    (htemps : ∀ w ∈ tempNames n, (σ w).isSome) :
    ∃ σ', JavaScript.declare (openingItems ++ items) σ = JavaScript.declare items σ' ∧
      Ready [] n Store.fresh σ' ∧ ∀ w, (σ w).isSome → (σ' w).isSome := by
  have hvalue : ∀ {σ : Env} {w : String} {e : JavaScript.Term} {v : JavaScript.Value}
      {items : List (String × Option JavaScript.Term)}, e.eval σ = some (v, σ) → (σ w).isSome →
      JavaScript.declare ((w, some e) :: items) σ = JavaScript.declare items (σ.set w v) := by
    intro σ w e v items he hw
    obtain ⟨old, hold⟩ := Option.isSome_iff_exists.mp hw
    exact JavaScript.declare_value he hold
  have hopal_eval : ∀ {σ : Env}, σ "Opal" = some .runtime →
      (JavaScript.Term.name "Opal").eval σ = some (.runtime, σ) := by
    intro σ h
    rw [JavaScript.Term.eval, h]
    rfl
  have hmember : ∀ {σ : Env} {p : String} {v : JavaScript.Value}, σ "Opal" = some .runtime →
      JavaScript.Value.runtime.property? p = some v →
      (JavaScript.Term.member (.name "Opal") p).eval σ = some (v, σ) := by
    intro σ p v h hp
    rw [JavaScript.Term.eval, hopal_eval h]
    simp only [Option.bind_eq_bind, Option.bind_some, hp]
  have hgrows : ∀ w, (σ w).isSome →
      ((((σ.set "self" .object).set "$scope" .runtime).set "nil" .nil) w).isSome :=
    fun w hw => Env.isSome_set (Env.isSome_set (Env.isSome_set hw _ _) _ _) _ _
  refine ⟨((σ.set "self" .object).set "$scope" .runtime).set "nil" .nil, ?_, ⟨?_, ?_, ?_, ?_⟩,
    hgrows⟩
  · refine (hvalue (hmember hopal rfl) (hdeclared "self" (by decide))).trans ?_
    refine (hvalue (hopal_eval ?_) ?_).trans ?_
    · exact hopal
    · exact Env.isSome_set (hdeclared "$scope" (by decide)) _ _
    · refine hvalue (hmember ?_ rfl) ?_
      · exact hopal
      · exact Env.isSome_set (Env.isSome_set (hdeclared "nil" (by decide)) _ _) _ _
  · rfl
  · exact hopal
  · exact fun x hx => absurd hx List.not_mem_nil
  · intro i hi
    refine Option.isSome_iff_exists.mp (hgrows _ (htemps _ ?_))
    exact List.mem_map.mpr ⟨i, List.mem_range.mpr hi, rfl⟩

/-- The variables of the program get their first values. -/
theorem declare_localItems {done : List String} (hlocals : ∀ x ∈ locals, IsLocal L x)
    (hdone : ∀ x ∈ done, IsLocal L x) (items : List (String × Option JavaScript.Term))
    (hdeclared : ∀ x ∈ locals, (σ (localName x)).isSome) (hready : Ready done n Store.fresh σ) :
    ∃ σ', JavaScript.declare (localItems locals ++ items) σ = JavaScript.declare items σ' ∧
      Ready (locals ++ done) n Store.fresh σ' ∧ ∀ w, (σ w).isSome → (σ' w).isSome := by
  induction locals generalizing σ done with
  | nil => exact ⟨σ, rfl, hready, fun _ hw => hw⟩
  | cons x locals ih =>
      have hx := hlocals x List.mem_cons_self
      have hgrows : ∀ w, (σ w).isSome → (σ.set (localName x) .nil w).isSome :=
        fun w hw => Env.isSome_set hw _ _
      have hfresh : Store.fresh.set x .nil = Store.fresh := by
        funext y
        simp [Store.set, Store.fresh]
      have hready' := hready.bind_local hdone hx .nil
      rw [hfresh] at hready'
      obtain ⟨σ', hdeclare, hready', hgrows'⟩ := ih
        (fun y hy => hlocals y (List.mem_cons_of_mem _ hy)) (List.forall_mem_cons.mpr ⟨hx, hdone⟩)
        (fun y hy => hgrows _ (hdeclared y (List.mem_cons_of_mem _ hy))) hready'
      obtain ⟨old, hold⟩ := Option.isSome_iff_exists.mp (hdeclared x List.mem_cons_self)
      refine ⟨σ', ?_, hready'.mono ?_, fun w hw => hgrows' w (hgrows w hw)⟩
      · have hnil : (JavaScript.Term.name "nil").eval σ = some (.nil, σ) := by
          rw [JavaScript.Term.eval, hready.nil]
          rfl
        exact (JavaScript.declare_value hnil hold).trans hdeclare
      · intro y hy
        simp only [List.cons_append, List.mem_cons, List.mem_append] at hy ⊢
        tauto

/-! ## The text after the marker line -/

/-- The statements that make the text after the marker line readable. -/
def setupStmts : Option String → List JavaScript.Stmt
  | none => []
  | some _ =>
    [.var [("$__END__", some (.invoke (.member (.member (.name "Opal") "Object") "$new")))],
      .term (.assign (.member (.name "$__END__") "$read") (.func .str))]

theorem printed_setup (endData : Option String) :
    PrintedStmts L (endDataSetup endData) (setupStmts endData) := by
  cases endData with
  | none => exact PrintedStmts.nil
  | some text =>
      have hend : L.isVariable "$__END__" = true :=
        JavaScript.isVariable_ascii (by decide) (by decide)
      have hobject : Bare L (.call (.member Emission.globalObject "$new") [])
          (.invoke (.member (.member (.name "Opal") "Object") "$new")) :=
        ((bare_opal.member (JavaScript.isName_ascii (by decide))).member
          (JavaScript.isName_ascii (by decide))).invoke
      have hread : Bare L (.member Emission.endObject "$read")
          (.member (.name "$__END__") "$read") :=
        (JavaScript.bare_name (x := .own "$__END__") hend).member
          (JavaScript.isName_ascii (by decide))
      have hfunction := JavaScript.printed_assign_function hread rfl text
      have hvar : PrintedStmts L [.var (.own "$__END__") (.call (.member Emission.globalObject
          "$new") [])] _ := PrintedStmts.var hend (hobject.printed (by decide))
      exact hvar.append (PrintedStmts.term (hfunction.lift (by decide) (by decide)))

/-- They leave the variables alone. -/
theorem exec_setup (hvars : ∀ x ∈ vars, IsLocal L x) (endData : Option String)
    (hdeclared : ∀ w ∈ JavaScript.declaredAll (setupStmts endData), (σ w).isSome)
    (hready : Ready vars n ρ σ) :
    ∃ σ', JavaScript.execAll (setupStmts endData) σ = some (none, σ') ∧ Ready vars n ρ σ' := by
  cases endData with
  | none => exact ⟨σ, rfl, hready⟩
  | some text =>
      obtain ⟨old, hold⟩ := Option.isSome_iff_exists.mp (hdeclared "$__END__" List.mem_cons_self)
      refine ⟨σ.set "$__END__" .object, ?_, hready.set_dollar hvars (by decide) _⟩
      simp [setupStmts, JavaScript.execAll, JavaScript.Stmt.exec, JavaScript.declare,
        JavaScript.Term.eval, hready.runtime, JavaScript.Value.property?, JavaScript.Value.call?,
        Env.assign?, hold, Env.set]

/-! ## Units -/

/-- The declaration makes a unit ready for its body. -/
theorem exec_declaration (hlocals : ∀ x ∈ locals, IsLocal L x) (hopal : σ "Opal" = some .runtime)
    (hdeclared : ∀ w ∈ (unitItems locals n).map Prod.fst, (σ w).isSome) :
    ∃ σ', JavaScript.execAll [.var (unitItems locals n)] σ = some (none, σ') ∧
      Ready locals n Store.fresh σ' ∧ ∀ w, (σ w).isSome → (σ' w).isSome := by
  simp only [unitItems, List.map_append, List.mem_append, or_imp, forall_and] at hdeclared
  obtain ⟨⟨hopening, hnames⟩, htemps⟩ := hdeclared
  obtain ⟨σ₁, hdeclare₁, hready₁, hgrows₁⟩ := declare_openingItems
    (localItems locals ++ tempItems n) hopal hopening (by simpa [tempItems] using htemps)
  obtain ⟨σ₂, hdeclare₂, hready₂, hgrows₂⟩ := declare_localItems hlocals
    (fun x hx => absurd hx List.not_mem_nil) (tempItems n)
    (fun x hx => hgrows₁ _ (hnames _ (by simpa [localItems] using ⟨x, hx, rfl⟩))) hready₁
  refine ⟨σ₂, ?_, by simpa using hready₂, fun w hw => hgrows₂ w (hgrows₁ w hw)⟩
  rw [JavaScript.execAll_singleton, JavaScript.Stmt.exec, unitItems, List.append_assoc, hdeclare₁,
    hdeclare₂, tempItems, JavaScript.declare_names]
  rfl

/-- The statements of a unit's script. -/
def unitStmts (locals : List String) (temps : Nat) (endData : Option String)
    (body : List JavaScript.Stmt) : List JavaScript.Stmt :=
  [.var (unitItems locals temps)] ++ setupStmts endData ++ body

/-- A unit runs its body with fresh variables. -/
theorem execAll_unit (hlocals : ∀ x ∈ locals, IsLocal L x) (hvars : vars ⊆ locals)
    (endData : Option String) {body : List JavaScript.Stmt} {f : Meaning}
    (hbody : Runs vars n body true f) :
    ∃ σ, JavaScript.execAll (unitStmts locals n endData body)
        (JavaScript.initial (unitStmts locals n endData body)) =
          some (some (f Store.fresh).1.js, σ) ∧ Ready vars n (f Store.fresh).2 σ := by
  have hdeclared : ∀ w ∈ (unitItems locals n).map Prod.fst ++
      JavaScript.declaredAll (setupStmts endData),
      (JavaScript.initial (unitStmts locals n endData body) w).isSome := by
    intro w hw
    refine JavaScript.isSome_initial ?_
    rw [unitStmts, JavaScript.declaredAll_append, JavaScript.declaredAll_append]
    refine List.mem_append_left _ ?_
    rwa [JavaScript.declaredAll, JavaScript.Stmt.declared, JavaScript.declaredAll, List.append_nil]
  generalize hinitial : JavaScript.initial (unitStmts locals n endData body) = σ at hdeclared ⊢
  have hopal : σ "Opal" = some .runtime := by
    rw [← hinitial]
    rfl
  obtain ⟨σ₁, hexec₁, hready₁, hgrows⟩ := exec_declaration hlocals hopal
    fun w hw => hdeclared w (List.mem_append_left _ hw)
  obtain ⟨σ₂, hexec₂, hready₂⟩ := exec_setup hlocals endData
    (fun w hw => hgrows w (hdeclared w (List.mem_append_right _ hw))) hready₁
  obtain ⟨σ₃, hexec₃, hready₃⟩ := hbody _ _ (hready₂.mono hvars)
  refine ⟨σ₃, ?_, hready₃⟩
  rw [unitStmts, List.append_assoc, JavaScript.execAll_append hexec₁,
    JavaScript.execAll_append hexec₂]
  exact hexec₃

/-- The lines of a unit are read as its statements. -/
theorem printed_unit {f : Frame} (hlocals : ∀ x ∈ f.locals, IsLocal L x)
    (hcatches : f.catchesReturn = false) (endData : Option String) {stmts : List Stmt}
    {body : List JavaScript.Stmt} (hbody : PrintedStmts L stmts body) :
    PrintedLines L (Script.funcLines 0 (f.function unitInits (endDataSetup endData) stmts))
      (unitStmts f.locals f.temps endData body) := by
  have hlines : Script.funcLines 0 (f.function unitInits (endDataSetup endData) stmts) =
      (Script.varLine (Script.initTexts 1 unitInits) f.locals f.temps).map (Script.pad 1 ++ ·) ++
        Script.stmtLines 1 (endDataSetup endData) ++ Script.stmtLines 1 stmts := by
    simp [Script.funcLines, Frame.function, hcatches, Script.handlerLines]
  rw [hlines]
  exact ((printed_varLine hlocals f.temps).append (printed_setup endData 1)).append (hbody 1)

/-- A logical expression uses no other variables. -/
theorem Logical.fits {e : Expr} (h : Logical vars e) : Fits .anywhere (· ∈ vars) e := by
  induction h with
  | nil | bool => exact .unnamed .nil rfl rfl
  | lvar hx => exact .expr .nil (fun _ _ => nofun) (List.forall_mem_singleton.mpr hx) rfl
  | @assign x _ hx _ ih =>
      have htarget : TargetFit .anywhere (· ∈ vars) (.lvar x) := by
        refine ⟨fun y hy => ?_, nofun, nofun⟩
        obtain rfl := Target.lvar.inj hy
        exact ⟨nofun, hx⟩
      exact (htarget.assign ih).1
  | not _ ih => exact .unnamed ih.parts rfl rfl
  | and _ _ ihl ihr | or _ _ ihl ihr => exact .unnamed (ihl.parts.append ihr.parts) rfl rfl
  | ternary _ _ _ ihc iht ihe =>
      exact .unnamed ((ihc.parts.append iht.parts).append ihe.parts) rfl rfl
  | ifElse _ _ _ ihc iht ihe =>
      refine .unnamed ?_ rfl rfl
      exact (ihc.parts.append (fits_body iht).parts).append (fits_body ihe).parts
  | seq _ ih => exact .unnamed (fits_body ih).parts rfl rfl

/-- The variables that a logical program binds are among its variables. -/
theorem mem_of_binds {body : List Expr} (hbody : ∀ e ∈ body, Logical vars e) {x : String}
    (hx : Binds {} body x) : x ∈ vars := by
  exact hx.known .empty (fits_body fun e he => (hbody e he).fits)

/-- Generated code preserves the meaning of logical programs. Their scripts can be generated; the
text of the script is JavaScript that returns the value of the program, and in the end all variables
of the program have the values that the program gives them. The variables can have any names that
are names in JavaScript, too, reserved words among them. -/
theorem generate_preserves_meaning (L : Letters) (program : Program) (file : String)
    (vars : List String) (hlogical : ∀ e ∈ program.body, Logical vars e)
    (hassigned : ∀ x ∈ vars, Binds {} program.body x) (hnames : ∀ x ∈ vars, IsLocal L x) :
    ∃ g σ, generate program file = .ok g ∧
      JavaScript.run L (lineText g.lines) =
        some ((evaluateAll program.body Store.fresh).1.js, σ) ∧
      ∀ x ∈ vars, σ (localName x) = some ((evaluateAll program.body Store.fresh).2 x).js := by
  obtain ⟨stmts, s, hrun, -, hcatches, hperforms⟩ :=
    generates_body (fun e he => (hlogical e he).simulates hnames
      ⟨file, program.endData.isSome⟩) true { frame := { kind := .top } }
  have hgenerate : generate program file = .ok
      ⟨s.frame.function unitInits (endDataSetup program.endData) stmts, s.declarations⟩ := by
    simp only [generate, hrun]
  -- The variables that are declared are those that the program binds.
  obtain ⟨f, hlocals, hfunction⟩ := functionOf_unit hgenerate
  have hbinds : ∀ x, x ∈ s.frame.locals ↔ Binds {} program.body x := by
    intro x
    have hiff := hfunction.locals x
    rw [hlocals] at hiff
    exact hiff.trans (by simp [Params.positional, FrameKind.seesOuter])
  have hnames' : ∀ x ∈ s.frame.locals, IsLocal L x := fun x hx =>
    hnames x (mem_of_binds hlogical ((hbinds x).mp hx))
  obtain ⟨body, hprinted, hruns⟩ := hperforms s.frame.temps (Nat.le_refl _)
  obtain ⟨σ, hexec, hready⟩ := execAll_unit hnames'
    (fun x hx => (hbinds x).mpr (hassigned x hx)) program.endData hruns
  refine ⟨_, σ, hgenerate, ?_, hready.locals⟩
  have hread := (printed_unit hnames' hcatches program.endData hprinted).read
  rw [JavaScript.run, Generated.lines, hread]
  simp only [Option.bind_eq_bind, Option.bind_some, hexec, Option.getD_some]

/-- Names of ASCII letters only. -/
def asciiLetters : Letters where
  start _ := false
  part _ := false
  part_of_start _ h := h
  beyond _ h := absurd h Bool.false_ne_true
  visible _ h := absurd h Bool.false_ne_true

/-- A program in which `default` is a variable:

    default = nil || false
    x = !default && (default = nil; true)
    y = x ? default : nil
    y = x unless x and default
    if y then x or default end
-/
def deciding : Program where
  body :=
    [.assign (.lvar "default") (.or .nil (.bool false)),
      .assign (.lvar "x")
        (.and (.not (.lvar "default")) (.seq [.assign (.lvar "default") .nil, .bool true])),
      .assign (.lvar "y") (.ternary (.lvar "x") (.lvar "default") .nil),
      .ifElse (.and (.lvar "x") (.lvar "default")) [] [.assign (.lvar "y") (.lvar "x")],
      .ifElse (.lvar "y") [.or (.lvar "x") (.lvar "default")] []]
  endData := none

theorem logical_deciding : ∀ e ∈ deciding.body, Logical ["default", "x", "y"] e := by
  have hvar : ∀ x ∈ ["default", "x", "y"], Logical ["default", "x", "y"] (.lvar x) :=
    fun _ hx => .lvar hx
  simp only [List.forall_mem_cons, List.not_mem_nil] at hvar
  obtain ⟨hdefault, hx, hy, -⟩ := hvar
  intro e he
  simp only [deciding, List.mem_cons, List.not_mem_nil, or_false] at he
  rcases he with rfl | rfl | rfl | rfl | rfl
  · exact .assign (by decide) (.or .nil (.bool false))
  · refine .assign (by decide) (.and (.not hdefault) (.seq ?_))
    exact List.forall_mem_cons.mpr ⟨.assign (by decide) .nil, by simpa using Logical.bool true⟩
  · exact .assign (by decide) (.ternary hx hdefault .nil)
  · exact .ifElse (.and hx hdefault) (by simp) (by simpa using Logical.assign (by decide) hx)
  · exact .ifElse hy (by simpa using Logical.or hx hdefault) (by simp)

theorem binds_deciding : ∀ x ∈ ["default", "x", "y"], Binds {} deciding.body x := by
  have hassign : ∀ {x e}, Expr.assign (.lvar x) e ∈ deciding.body → Binds {} deciding.body x :=
    fun he => Or.inr ⟨_, he, _, _, .here, List.mem_singleton_self _⟩
  refine List.forall_mem_cons.mpr ⟨?_, List.forall_mem_cons.mpr ⟨?_, ?_⟩⟩
  · exact hassign List.mem_cons_self
  · exact hassign (List.mem_cons_of_mem _ List.mem_cons_self)
  · refine List.forall_mem_singleton.mpr ?_
    exact hassign (List.mem_cons_of_mem _ (List.mem_cons_of_mem _ List.mem_cons_self))

theorem isLocal_deciding : ∀ x ∈ ["default", "x", "y"], IsLocal asciiLetters x := by
  simp only [List.forall_mem_cons]
  exact ⟨⟨by decide, by decide⟩, ⟨by decide, by decide⟩, ⟨by decide, by decide⟩, by simp⟩

theorem generate_preserves_meaning_deciding : ∃ g σ, generate deciding "main" = .ok g ∧
    JavaScript.run asciiLetters (lineText g.lines) = some (.bool true, σ) ∧
    σ "default$" = some .nil ∧ σ "x" = some (.bool true) ∧ σ "y" = some (.bool true) := by
  obtain ⟨g, σ, hgenerate, hrun, hlocals⟩ := generate_preserves_meaning asciiLetters deciding
    "main" ["default", "x", "y"] logical_deciding binds_deciding isLocal_deciding
  exact ⟨g, σ, hgenerate, hrun, hlocals "default" (by decide), hlocals "x" (by decide),
    hlocals "y" (by decide)⟩

/-- What the script of a program returns. -/
def scriptValue (L : Letters) (program : Program) (file : String) : Option JavaScript.Value :=
  (generate program file).toOption.bind fun g =>
    (JavaScript.run L (lineText g.lines)).map Prod.fst

/-- The space U+00A0 is a letter to the reader of programs and a blank in JavaScript, so `a` and the
variable whose name is `a` and this space are one in the script. -/
theorem generate_confuses_blank :
    ∃ program, parse "main" "a = true\na\u00a0 = false\na" = .ok program ∧
      (evaluateAll program.body Store.fresh).1 = .bool true ∧
      scriptValue asciiLetters program "main" = some (.bool false) :=
  exists_ok_of_any (by decide +kernel)

end RubyJs.Logic
