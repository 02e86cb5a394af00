import RubyJs.Proofs.Emission.Lifting
import RubyJs.Proofs.Emission.Uses

set_option autoImplicit false

/-! # Values that account for what they use

Whatever the parts of an expression are, its emission accounts for what it uses if theirs do. No
part is generated and then left out: that is why the marks of a frame say what its function uses,
and not only what it may use. There is a lemma for each construct; control flow, calls and
definitions follow in a module of their own.
-/

namespace RubyJs

open Script (Term Stmt Name Func Use Plain Closes StmtsClosed gist)

variable {x : String}

/-- That all ways to generate an expression account for what they use. -/
structure Emission.Accounted (C : Prop) (e : Emission) : Prop where
  value : Tells C ∅ e.value gist
  test : Tells C ∅ e.test gist
  stmts : ∀ ret, Tells C ∅ (e.stmts ret) gist
  splat : ∀ v t, e.splat? = some (v, t) → Tells C ∅ v gist ∧ Tells C ∅ t gist

/-- That emissions account for what they use. -/
abbrev AllAccounted (C : Prop) (es : List Emission) : Prop := ∀ e ∈ es, e.Accounted C

/-- That the name of a variable does not matter, and has no brackets in it. -/
structure QuietName (x : String) : Prop where
  isTelling : (Name.user x).isTelling = false
  plain : Plain x

theorem QuietName.quiet (h : QuietName x) : (Name.user x).Quiet :=
  ⟨h.isTelling, h.plain.localName⟩

theorem gist_user (h : QuietName x) : gist (Term.user x) = ∅ := Script.gist_name h.quiet

/-- The functions that are no methods, in the frame they are generated in. -/
theorem finishes_start {kind : FrameKind} (hkind : kind ≠ .method) (params : List String)
    (names : List Name) (constructor : Option String) (inits : List (Name × Term))
    (hnames : ∀ x ∈ names ++ inits.map (·.1), Plain x.text) (hconstructor : ∀ x ∈ constructor, Plain x)
    (hinits : gist (inits.map (·.2)) = ∅)
    (hself : (names.contains (.own "self") || (inits.map (·.1)).contains (.own "self")) =
      !kind.seesOuter) :
    Finishes { kind, params } false fun ss g =>
      { g.function inits [] ss with params := names, constructor } where
  catchesReturn := rfl
  locals := rfl
  closed ss g hss hlocals := by
    obtain ⟨hnames, hfirst⟩ := List.forall_mem_append.mp hnames
    have hterms : Script.TermsClosed (inits.map (·.2)) := .of_gist (hinits ▸ Script.closes_empty)
    rw [List.forall_mem_map] at hfirst
    exact
      { name := nofun
        params := fun x hx => (hnames x hx).closed
        constructor := fun x hx => (hconstructor x hx).closed
        inits := fun p hp => ⟨(hfirst p hp).closed, hterms _ (List.mem_map_of_mem hp)⟩
        locals := hlocals
        setup := .nil
        body := hss }
  method := nofun
  temps _ _ := rfl
  catches _ _ := rfl
  keeps ss g := by
    rw [Script.gist_function]
    change gist (inits.map (·.2)) ∪ gist [] ∪ gist ss = gist ss
    rw [hinits, Script.gist_nil, Set.empty_union, Set.empty_union]
  bindsSelf _ _ := hself
  onlyMethod := nofun
  iter hmethod := absurd hmethod hkind

namespace Emission

variable {C : Prop} {e : Emission} {es : List Emission}
variable {ps : List (Part Emission)} {base : Base Emission} {t : Target Emission}

theorem gist_valueStmt (v : Term) (ret : Bool) : gist (valueStmt v ret) = gist v := by
  cases ret <;> simp [valueStmt]

theorem gist_returnNil (ret : Bool) : gist (returnNil ret) = ∅ := by
  cases ret <;> simp [returnNil]

theorem accounted_ofTest {bare : Bool} {value test : Gen Term} (hvalue : Tells C ∅ value gist)
    (htest : Tells C ∅ test gist) : (ofTest bare value test).Accounted C where
  value := hvalue
  test := htest
  stmts ret := hvalue.map fun v => by simp [gist_valueStmt]
  splat _ _ h := nomatch h

theorem accounted_ofValue {bare : Bool} {value : Gen Term} (h : Tells C ∅ value gist) :
    (ofValue bare value).Accounted C :=
  accounted_ofTest h (h.map fun v => by simp)

theorem tells_wrapped {stmts : Bool → Gen (List Stmt)} (h : Tells C ∅ (stmts true) gist) :
    Tells C ∅ (wrapped stmts) gist := by
  have hfinishes : Finishes { kind := .wrapper } false fun ss g => g.function [] [] ss :=
    finishes_start (by decide) [] [] none [] (by simp) (by simp) (by simp) rfl
  exact (Tells.inPlainFrame h hfinishes).map fun r => by simp

theorem accounted_ofStmts {stmts : Bool → Gen (List Stmt)} (h : ∀ ret, Tells C ∅ (stmts ret) gist) :
    (ofStmts stmts).Accounted C where
  value := tells_wrapped (h true)
  test := (tells_wrapped (h true)).map fun v => by simp
  stmts := h
  splat _ _ h := nomatch h

theorem Accounted.recv (h : e.Accounted C) : Tells C ∅ e.recv gist := by
  refine h.value.map fun v => ?_
  split <;> simp

/-! ### Lists -/

theorem tells_optionalValue {o : Option Emission} (h : ∀ e ∈ o, e.Accounted C) :
    Tells C ∅ (optionalValue o) gist := by
  cases o with
  | none => exact Tells.pure (by simp)
  | some e => exact (h e rfl).value

theorem tells_values (h : AllAccounted C es) : Tells C ∅ (values es) gist := by
  induction es with
  | nil => exact Tells.pure (by simp)
  | cons e es ih =>
      obtain ⟨he, hes⟩ := List.forall_mem_cons.mp h
      exact he.value.bind fun v => (ih hes).map fun vs => by simp

theorem tells_body (h : AllAccounted C es) (ret : Bool) : Tells C ∅ (body es ret) gist := by
  induction es with
  | nil => exact Tells.pure (gist_returnNil ret)
  | cons e es ih =>
      obtain ⟨he, hes⟩ := List.forall_mem_cons.mp h
      cases es with
      | nil => exact he.stmts ret
      | cons e' es => exact (he.stmts false).bind fun first => (ih hes).map fun rest => by simp

theorem tells_sequence (h : AllAccounted C es) : Tells C ∅ (sequence es) gist := by
  match es with
  | [] => exact Tells.pure (by simp)
  | [e] => exact (h e List.mem_cons_self).value
  | e :: e' :: es => exact (tells_values h).map fun vs => by simp

/-! ### Arguments -/

theorem tells_argument (h : e.Accounted C) : Tells C ∅ (argument e) gist := by
  unfold argument
  split
  · rename_i v t hsplat
    exact (h.splat v t hsplat).1.map fun v => by simp
  · exact h.value.map fun v => by simp

theorem tells_argumentList (h : AllAccounted C es) : Tells C ∅ (argumentList es) gist := by
  induction es with
  | nil => exact Tells.pure (by simp)
  | cons e es ih =>
      obtain ⟨he, hes⟩ := List.forall_mem_cons.mp h
      exact (tells_argument he).bind fun a => (ih hes).map fun as => by simp

theorem gist_argumentRuns (plain : List Term) (as : List (Bool × Term)) :
    gist (argumentRuns plain as) = gist plain ∪ gist as := by
  have hrun : ∀ vs : List Term, gist (argumentRuns.run vs) = gist vs := by
    intro vs
    cases vs <;> simp [argumentRuns.run]
  induction as generalizing plain with
  | nil => simp [argumentRuns, hrun]
  | cons a as ih =>
      obtain ⟨splatted, v⟩ := a
      cases splatted with
      | true => simp +decide [argumentRuns, hrun, ih]
      | false => simp [argumentRuns, ih, Set.union_assoc]

theorem tells_argumentArray (h : AllAccounted C es) : Tells C ∅ (argumentArray es) gist := by
  refine (tells_argumentList h).bind fun as => ?_
  have hruns : gist (argumentRuns [] as) = ∅ ∪ gist as := by
    rw [gist_argumentRuns, Script.gist_nil]
  split
  all_goals
    rename_i heq
    exact Tells.pure (by simpa +decide [heq] using hruns)

/-! ### Literals -/

theorem accounted_int (text : String) : (int text).Accounted C := by
  refine accounted_ofValue ?_
  split
  · rename_i htext
    exact Tells.pure (by simp [Script.plain_integerText htext])
  · exact Tells.refuse _

/-- That the code of the parts of a string accounts for what it uses. -/
abbrev PartsAccounted (C : Prop) (ps : List (Part Emission)) : Prop :=
  ∀ p ∈ ps, ∀ es, p = .code es → AllAccounted C es

theorem tells_stringParts (h : PartsAccounted C ps) : Tells C ∅ (stringParts ps) gist := by
  induction ps with
  | nil => exact Tells.pure (by simp)
  | cons p ps ih =>
      obtain ⟨hp, hps⟩ := List.forall_mem_cons.mp h
      cases p with
      | lit t => exact (ih hps).map fun ts => by simp
      | code es =>
          refine (tells_sequence (hp es rfl)).bind fun v => (ih hps).map fun ts => ?_
          simp +decide

theorem accounted_interpolated (h : PartsAccounted C ps) : (interpolated ps).Accounted C := by
  refine accounted_ofValue ((tells_stringParts h).bind fun ts => ?_)
  split <;> exact Tells.pure (by simp +decide)

theorem tells_nativePieces (h : PartsAccounted C ps) : Tells C ∅ (nativePieces ps) gist := by
  induction ps with
  | nil => exact Tells.pure (by simp)
  | cons p ps ih =>
      obtain ⟨hp, hps⟩ := List.forall_mem_cons.mp h
      cases p with
      | lit t => exact (ih hps).map fun pieces => by simp
      | code es =>
          exact (tells_sequence (hp es rfl)).bind fun v => (ih hps).map fun pieces => by simp

theorem accounted_native (hC : ¬ C) (h : PartsAccounted C ps) : (native ps).Accounted C := by
  have hflawed {α : Type} {before : Set (Option Use)} {after : α → Set (Option Use)} {a : α}
      (h : after a = before ∪ {none}) : Tells C before (pure a) after :=
    Tells.flawed (by simp) (fun hc => absurd hc hC) h
  have hvalue : Tells C ∅ (native ps).value gist :=
    (tells_nativePieces h).bind fun pieces => hflawed (by simp)
  refine ⟨hvalue, hvalue.map fun v => by simp, fun ret => ?_, fun _ _ h => nomatch h⟩
  exact (tells_nativePieces h).bind fun pieces => hflawed (by simp)

theorem tells_hashItems {ps : List (Emission × Emission)}
    (h : ∀ p ∈ ps, p.1.Accounted C ∧ p.2.Accounted C) : Tells C ∅ (hashItems ps) gist := by
  induction ps with
  | nil => exact Tells.pure (by simp)
  | cons p ps ih =>
      obtain ⟨⟨hkey, hvalue⟩, hps⟩ := List.forall_mem_cons.mp h
      refine hkey.value.bind fun k => hvalue.value.bind fun v => (ih hps).map fun r => ?_
      ext u
      simp
      tauto

theorem accounted_hash {ps : List (Emission × Emission)}
    (h : ∀ p ∈ ps, p.1.Accounted C ∧ p.2.Accounted C) : (hash ps).Accounted C :=
  accounted_ofValue ((tells_hashItems h).map fun r => by simp +decide)

theorem accounted_range {first last : Emission} (hfirst : first.Accounted C) (hlast : last.Accounted C)
    (exclusive : Bool) : (range first last exclusive).Accounted C :=
  accounted_ofValue (hfirst.value.bind fun a => hlast.value.map fun b => by simp +decide)

theorem accounted_splat (h : e.Accounted C) : (splat e).Accounted C := by
  have hvalue : Tells C ∅ (splat e).value gist := h.value.map fun v => by simp +decide
  refine ⟨hvalue, hvalue.map fun v => by simp, fun ret => ?_, fun v t heq => ?_⟩
  · exact hvalue.map fun v => by simp [gist_valueStmt]
  · obtain ⟨rfl, rfl⟩ := Prod.mk.inj (Option.some.inj heq)
    exact ⟨h.value, h.test⟩

/-! ### Variables and constants -/

theorem gist_instancePlace (h : Plain x) : gist (instancePlace x) = ∅ := by
  simp [instancePlace, h.instanceProperty]

@[simp] theorem gist_globalPlace (x : String) : gist (globalPlace x) = ∅ := by
  simp +decide [globalPlace]

@[simp] theorem gist_globalObject : gist globalObject = ∅ := by simp +decide [globalObject]

@[simp] theorem gist_globalScope : gist globalScope = ∅ := by simp +decide [globalScope]

@[simp] theorem gist_endObject : gist endObject = ∅ := Script.gist_own (by decide)

/-- That the expression that a constant is looked up in accounts for what it uses. -/
abbrev BaseAccounted (C : Prop) (base : Base Emission) : Prop := ∀ e, base = .within e → e.Accounted C

theorem tells_constantValue (h : BaseAccounted C base) (hasEndData : Bool) (x : String) :
    Tells C ∅ (constantValue hasEndData base x) gist := by
  cases base with
  | lexical => exact Tells.ite (Tells.pure (by simp)) (Tells.pure (by simp +decide))
  | top => exact Tells.pure (by simp +decide)
  | within e => exact (h e rfl).value.map fun v => by simp +decide

theorem tells_constantScope (h : BaseAccounted C base) : Tells C ∅ (constantScope base) gist := by
  cases base with
  | lexical => exact Tells.pure (by simp)
  | top => exact Tells.pure (by simp)
  | within e => exact (h e rfl).recv.map fun v => by simp +decide

theorem tells_constantOwner (h : BaseAccounted C base) : Tells C ∅ (constantOwner base) gist := by
  cases base with
  | lexical => exact Tells.pure (by simp)
  | top => exact Tells.pure (by simp +decide)
  | within e => exact (h e rfl).value

/-! ### Assignment -/

/-- What is used to set the temporaries that hold the parts of a place. -/
def setupUses (setup : List (Nat × Term)) : Set (Option Use) :=
  gist (setup.map fun item => Term.assign (.temp item.1) item.2)

theorem gist_withSetup (setup : List (Nat × Term)) (result : Term) :
    gist (withSetup setup result) = setupUses setup ∪ gist result := by
  unfold withSetup
  split
  · rename_i hempty
    simp [setupUses, List.isEmpty_iff.mp hempty]
  · simp [setupUses]

@[simp] theorem setupUses_cons (item : Nat × Term) (setup : List (Nat × Term)) :
    setupUses (item :: setup) = {some (.name (.temp item.1))} ∪ gist item.2 ∪ setupUses setup := by
  simp [setupUses]

/-- The temporaries of a place are used when they are set. -/
theorem mem_setupUses_of_temps (setup : List (Nat × Term)) (u : Option Use) :
    u ∈ gist (setup.map fun item => Term.temp item.1) → u ∈ setupUses setup := by
  induction setup with
  | nil => simp
  | cons item setup ih =>
      simp only [List.map_cons, Script.gist_cons, Script.gist_temp, setupUses_cons,
        Set.mem_union]
      tauto

/-- That writing and reading a place use `us` besides what is written. -/
structure Place.Accounted (C : Prop) (us : Set (Option Use)) (p : Place) : Prop where
  write : ∀ v, setupUses p.setup ∪ gist (p.write v) = us ∪ gist v
  read : Tells C us p.read fun r => us ∪ gist r

/-- That what a target is made of accounts for what it uses. -/
abbrev TargetAccounted (C : Prop) : Target Emission → Prop := TargetOf QuietName (Emission.Accounted C)

theorem tells_indexArguments (h : AllAccounted C es) : Tells C ∅ (indexArguments es) setupUses := by
  induction es with
  | nil => exact Tells.pure (by simp [setupUses])
  | cons e es ih =>
      obtain ⟨he, hes⟩ := List.forall_mem_cons.mp h
      unfold indexArguments
      split
      · exact Tells.refuse _
      · refine he.value.bind fun v => Tells.temp.bind fun t => (ih hes).map fun items => ?_
        ext u
        simp only [setupUses_cons, Set.mem_union]
        tauto

/-- What is done with a place goes on from what the place uses. -/
theorem tells_place (h : TargetAccounted C t) (hasEndData : Bool) {f : Place → Gen Term}
    {after : Term → Set (Option Use)}
    (hf : ∀ us p, Place.Accounted C us p → Tells C us (f p) after) :
    Tells C ∅ (place hasEndData t >>= f) after := by
  -- a place that is named, and no temporaries
  have hnamed : ∀ place : Term, gist place = ∅ → ∀ read : Term, gist read = ∅ →
      Tells C ∅ (f { write := .assign place, read := pure read }) after := by
    intro place hplace read hread
    refine hf ∅ _ ⟨fun v => by simp [setupUses, hplace], Tells.pure (by simp [hread])⟩
  cases t with
  | lvar x =>
      have huser : gist (Term.user x) = ∅ := gist_user h
      simp only [place, bind_assoc, pure_bind]
      refine (Tells.declareLocal h.plain).bind fun _ => ?_
      simpa using hnamed _ huser _ huser
  | ivar x =>
      have hplace := gist_instancePlace h.plain
      exact hnamed _ hplace _ (by simp [hplace])
  | gvar x => exact hnamed _ (by simp) _ (by simp)
  | const base x =>
      simp only [place, bind_assoc, pure_bind]
      refine (tells_constantScope h).bind fun scope => hf _ _ ⟨fun v => ?_, ?_⟩
      · simp +decide [setupUses]
      · simpa using (tells_constantValue h hasEndData x).carry
  | attr recv x =>
      simp only [place, bind_assoc, pure_bind]
      refine h.recv.bind fun r => Tells.temp.bind fun t => hf _ _ ⟨fun v => ?_, ?_⟩
      · ext u
        simp [setupUses]
      · exact Tells.pure (by simp)
  | index recv args =>
      simp only [place, bind_assoc, pure_bind]
      refine h.1.recv.bind fun r => Tells.temp.bind fun t => ?_
      refine (tells_indexArguments h.2).bind fun items => hf _ _ ⟨fun v => ?_, Tells.pure ?_⟩
      -- the temporaries of the arguments are read after they are set
      all_goals
        ext u
        have htemps := mem_setupUses_of_temps items u
        simp
        tauto

theorem accounted_assign (ht : TargetAccounted C t) (he : e.Accounted C) (hasEndData : Bool) :
    (assign hasEndData t e).Accounted C := by
  refine accounted_ofValue (tells_place ht hasEndData fun us p hp => he.value.map fun v => ?_)
  rw [gist_withSetup, hp.write]

theorem accounted_opAssign (ht : TargetAccounted C t) (he : e.Accounted C) (hasEndData : Bool)
    (op : String) : (opAssign hasEndData t op e).Accounted C := by
  refine accounted_ofValue (tells_place ht hasEndData fun us p hp => ?_)
  refine hp.read.andThen fun r => he.value.map fun v => ?_
  rw [gist_withSetup]
  have hwrite := Set.ext_iff.mp (hp.write v)
  split
  · ext u
    have := hwrite u
    simp at this ⊢
    tauto
  · split
    · ext u
      have := hwrite u
      simp at this ⊢
      tauto
    · rw [hp.write]
      simp [Set.union_assoc]

/-! ### Logical operators -/

theorem accounted_not (h : e.Accounted C) : (not e).Accounted C :=
  accounted_ofTest (h.test.map fun t => by simp) (h.test.map fun t => by simp)

theorem tells_onlyIf (cond : Term) (h : e.Accounted C) : Tells C (gist cond) (onlyIf cond e) gist :=
  (h.stmts false).map fun ss => by simp

/-- The test of two expressions. -/
theorem tells_bothTests {left right : Emission} (hleft : left.Accounted C)
    (hright : right.Accounted C) {op : String} (hop : Plain op) :
    Tells C ∅ (do
      let l ← left.test
      let r ← right.test
      pure (Term.paren (.binary op l r))) gist :=
  hleft.test.bind fun l => hright.test.map fun r => by simp [hop]

theorem accounted_and {left right : Emission} (hleft : left.Accounted C) (hright : right.Accounted C) :
    (and left right).Accounted C := by
  have hvalue : Tells C ∅ (and left right).value gist := by
    refine hleft.value.bind fun l => hright.value.bind fun r => Tells.temp.map fun t => ?_
    ext u
    simp
    tauto
  refine ⟨hvalue, tells_bothTests hleft hright (by decide), fun ret => ?_, fun _ _ h => nomatch h⟩
  refine Tells.ite (hvalue.map fun v => by simp [gist_valueStmt]) ?_
  exact hleft.test.bind fun c => by simpa using tells_onlyIf c hright

theorem accounted_or {left right : Emission} (hleft : left.Accounted C) (hright : right.Accounted C) :
    (or left right).Accounted C := by
  have hvalue : Tells C ∅ (or left right).value gist := by
    refine hleft.value.bind fun l => hright.value.bind fun r => Tells.temp.map fun t => ?_
    ext u
    simp
    tauto
  refine ⟨hvalue, tells_bothTests hleft hright (by decide), fun ret => ?_, fun _ _ h => nomatch h⟩
  refine Tells.ite (hvalue.map fun v => by simp [gist_valueStmt]) ?_
  exact hleft.test.bind fun c => by simpa using tells_onlyIf (.not c) hright

end Emission

end RubyJs
