import RubyJs.Proofs.Emission.UsedValues

set_option autoImplicit false

/-! # Code that accounts for what it uses

Control flow, calls and definitions account for what they use if their parts do. So do regular
trees, by induction on their parts (`accounted_emit`): the names of their variables and classes are
words, and no word is written like a temporary or like the block of a method.
-/

namespace RubyJs

open Script (Term Stmt Name Func Use Plain gist)

namespace Emission

variable {C : Prop} {e : Emission} {es : List Emission}
variable {elseBody : Option (List Emission)} {p : Params Emission} {value : Option Emission}
  {rs : List (Rescue Emission)} {c : Call Emission}

/-! ## Branches and loops -/

/-- That an optional body accounts for what it uses. -/
abbrev BodyAccounted (C : Prop) (body : Option (List Emission)) : Prop := ∀ es ∈ body, AllAccounted C es

theorem accounted_ifElse {cond : Emission} {thenBody elseBody : List Emission}
    (hcond : cond.Accounted C) (hthen : AllAccounted C thenBody) (helse : AllAccounted C elseBody) :
    (ifElse cond thenBody elseBody).Accounted C := by
  have hvalue : Tells C ∅ (ifElse cond thenBody elseBody).value gist := by
    refine hcond.test.bind fun c => (tells_sequence hthen).bind fun t => ?_
    exact (tells_sequence helse).map fun e => by simp
  refine ⟨hvalue, hvalue.map fun v => by simp, fun ret => ?_, fun _ _ h => nomatch h⟩
  refine hcond.test.bind fun c => (tells_body hthen ret).bind fun t => Tells.ite ?_ ?_
  · exact (tells_body helse ret).map fun e => by simp
  · exact Tells.pure (by simp)

section Case

variable {subject : Option Term} {before : Set (Option Use)}
variable {ws : List (When Emission)}

/-- The subject of a `case` is used before the tests are. -/
theorem tells_whenTest (hsubject : gist subject ⊆ before) (h : e.Accounted C) :
    Tells C before (whenTest subject e) fun t => before ∪ gist t := by
  unfold whenTest
  split
  · rename_i v t s hsplat
    refine (h.splat v t hsplat).1.map fun v => ?_
    ext u
    have : u ∈ gist s → u ∈ before := fun hu => hsubject (by simpa using hu)
    simp +decide
    tauto
  · rename_i s _
    refine h.recv.map fun v => ?_
    ext u
    have : u ∈ gist s → u ∈ before := fun hu => hsubject (by simpa using hu)
    simp
    tauto
  · rename_i v t hsplat
    exact (h.splat v t hsplat).2.carry
  · exact h.test.carry

theorem tells_whenTests (hsubject : gist subject ⊆ before) (h : AllAccounted C es) :
    Tells C before (whenTests subject es) fun ts => before ∪ gist ts := by
  induction es generalizing before with
  | nil => exact Tells.pure (by simp)
  | cons e es ih =>
      obtain ⟨he, hes⟩ := List.forall_mem_cons.mp h
      refine (tells_whenTest hsubject he).andThen fun t => ?_
      have hmore : gist subject ⊆ before ∪ gist t := fun u hu => .inl (hsubject hu)
      exact (ih hmore hes).andThen fun ts => Tells.pure (by simp [Set.union_assoc])

theorem gist_anyOf (ts : List Term) : gist (anyOf ts) = gist ts := by
  cases ts <;> simp +decide [anyOf]

theorem tells_whenClauses (hsubject : gist subject ⊆ before)
    (h : ∀ w ∈ ws, AllAccounted C w.values ∧ AllAccounted C w.body) (ret : Bool) :
    Tells C before (whenClauses subject ret ws) fun tests => before ∪ gist tests := by
  induction ws generalizing before with
  | nil => exact Tells.pure (by simp)
  | cons w ws ih =>
      obtain ⟨⟨hvalues, hbody⟩, hws⟩ := List.forall_mem_cons.mp h
      refine (tells_whenTests hsubject hvalues).andThen fun ts => ?_
      refine (tells_body hbody ret).bind fun b => ?_
      have hmore : gist subject ⊆ before ∪ gist ts ∪ gist b := fun u hu => .inl (.inl (hsubject hu))
      refine (ih hmore hws).andThen fun rest => Tells.pure ?_
      simp [gist_anyOf, Set.union_assoc]

/-- There are as many tests as clauses, so that an `if` has one. -/
theorem whenClauses_ne_nil (h : ws ≠ []) (ret : Bool) :
    Yields (whenClauses subject ret ws) (· ≠ []) := by
  cases ws with
  | nil => exact absurd rfl h
  | cons w ws => exact .bind fun _ => .bind fun _ => .bind fun _ => .pure (List.cons_ne_nil _ _)

theorem tells_elseClause (h : BodyAccounted C elseBody) (ret : Bool) :
    Tells C ∅ (elseClause elseBody ret) gist := by
  cases elseBody with
  | some es => exact (tells_body (h es rfl) ret).map fun ss => by simp
  | none =>
      refine Tells.pure ?_
      cases ret <;> simp [gist_returnNil]

theorem accounted_caseOf {subject : Option Emission} (hsubject : ∀ e ∈ subject, e.Accounted C)
    (hne : ws ≠ []) (hws : ∀ w ∈ ws, AllAccounted C w.values ∧ AllAccounted C w.body)
    (helse : BodyAccounted C elseBody) : (caseOf subject ws elseBody).Accounted C := by
  refine accounted_ofStmts fun ret => ?_
  cases subject with
  | some e =>
      refine (hsubject e rfl).value.bind fun v => Tells.temp.bind fun t => ?_
      have hused : gist (some (Term.temp t)) ⊆ ∅ ∪ gist v ∪ {some (.name (.temp t))} := by simp
      refine (tells_whenClauses hused hws ret).andThenOf (whenClauses_ne_nil hne ret) fun tests h => ?_
      refine (tells_elseClause helse ret).map fun e => ?_
      ext u
      simp [h]
      tauto
  | none =>
      refine (tells_whenClauses (by simp) hws ret).andThenOf (whenClauses_ne_nil hne ret) fun tests h => ?_
      exact (tells_elseClause helse ret).map fun e => by simp [h]

end Case

theorem accounted_loop {cond : Emission} (hcond : cond.Accounted C) (hes : AllAccounted C es)
    (isUntil bodyFirst : Bool) : (loop cond es isUntil bodyFirst).Accounted C := by
  refine accounted_ofStmts fun ret => hcond.test.bind fun c => ?_
  refine (tells_body hes false).inLoop.map fun b => ?_
  cases isUntil <;> simp [gist_returnNil]

/-! ## Handlers -/

@[simp] theorem gist_error : gist (Term.own "$err") = ∅ := Script.gist_own (by decide)

/-- That a clause of a handler accounts for what it uses. -/
abbrev RescueAccounted (C : Prop) : Rescue Emission → Prop := RescueOf QuietName (Emission.Accounted C)

theorem tells_rescueClasses (h : AllAccounted C es) : Tells C ∅ (rescueClasses es) gist :=
  Tells.ite (Tells.pure (by simp +decide)) (tells_values h)

theorem tells_rescueClauses (h : ∀ r ∈ rs, RescueAccounted C r) (ret : Bool) :
    Tells C ∅ (rescueClauses ret rs) gist := by
  induction rs with
  | nil => exact Tells.pure (by simp)
  | cons r rs ih =>
      obtain ⟨hr, hrs⟩ := List.forall_mem_cons.mp h
      refine (tells_rescueClasses hr.classes).bind fun classes => ?_
      split
      case' h_1 x hvar =>
        have hx : gist (Term.user x) = ∅ := gist_user (hr.var x hvar)
        refine (Tells.declareLocal (hr.var x hvar).plain).bind fun _ => Tells.pure_bind ?_
      case' h_2 => refine Tells.pure_bind ?_
      all_goals
        refine (tells_body hr.body ret).bind fun b => (ih hrs).map fun rest => ?_
        simp +decide [*, Set.union_assoc]

theorem rescueClauses_ne_nil (h : rs ≠ []) (ret : Bool) :
    Yields (rescueClauses ret rs) (· ≠ []) := by
  cases rs with
  | nil => exact absurd rfl h
  | cons r rs =>
      refine .bind fun _ => ?_
      split
      case' h_1 => refine .bind fun _ => ?_
      all_goals exact .bind fun _ => .bind fun _ => .bind fun _ => .pure (List.cons_ne_nil _ _)

theorem tells_guardedBody (hes : AllAccounted C es) (helse : BodyAccounted C elseBody)
    (ret : Bool) : Tells C ∅ (guardedBody es elseBody ret) gist := by
  cases elseBody with
  | none => exact tells_body hes ret
  | some es' =>
      refine (tells_body hes false).bind fun first => ?_
      exact (tells_body (helse es' rfl) ret).map fun second => by simp

theorem accounted_begin (hes : AllAccounted C es) (hrs : ∀ r ∈ rs, RescueAccounted C r)
    {ensureBody : Option (List Emission)} (helse : BodyAccounted C elseBody)
    (hensure : BodyAccounted C ensureBody) : (begin es rs elseBody ensureBody).Accounted C := by
  refine accounted_ofStmts fun ret => Tells.ite (tells_guardedBody hes helse ret) ?_
  refine (tells_guardedBody hes helse ret).bind fun b => ?_
  by_cases hnone : rs.isEmpty = true
  case' pos =>
    rw [if_pos hnone]
    refine Tells.pure_bind ?_
  case' neg =>
    rw [if_neg hnone]
    have hne : rs ≠ [] := by simpa using hnone
    refine (tells_rescueClauses hrs ret).carry.andThenOf (rescueClauses_ne_nil hne ret)
      fun tests h => Tells.pure_bind ?_
  all_goals
    split
    case' h_1 es' =>
      refine (tells_body (hensure es' rfl) false).bind fun ss => Tells.pure_bind ?_
    case' h_2 => refine Tells.pure_bind ?_
    all_goals exact Tells.pure (by simp [*])

theorem accounted_seq (h : AllAccounted C es) : (seq es).Accounted C where
  value := tells_sequence h
  test := (tells_sequence h).map fun v => by simp
  stmts ret := tells_body h ret
  splat _ _ h := nomatch h

/-! ## Jumps -/

/-- A `return` is a far one in the place of a value and in a block or wrapper, and a near one in a
function that it leaves. -/
theorem accounted_ret (h : ∀ e ∈ value, e.Accounted C) : (ret value).Accounted C := by
  have hvalue : Tells C ∅ (ret value).value gist := by
    refine (tells_optionalValue h).bind fun v => Tells.markReturn.map fun _ => ?_
    rw [Script.gist_runtime_ret, Set.union_comm {_}]
    simp
  refine ⟨hvalue, hvalue.map fun v => by simp, fun _ => ?_, fun _ _ h => nomatch h⟩
  refine (tells_optionalValue h).bind fun v => Tells.get fun s hs => ?_
  split
  · refine (Tells.markReturn.map fun _ => ?_) s hs
    rw [Script.gist_cons, Script.gist_stmt_term, Script.gist_runtime_ret, Set.union_comm {_}]
    simp
  · rename_i hsees
    intro stmts t hrun
    obtain ⟨rfl, rfl⟩ := run_ok_inj hrun
    have hnear : Accounts {.nearReturn} s s := .nearReturn (by simpa [Frame.ownsReturn] using hsees)
    obtain ⟨us, haccounts, hcloses, hus⟩ := hnear.tells Set.image_singleton (by simp)
    refine ⟨us, haccounts, hcloses, ?_⟩
    rw [Set.empty_union] at hus
    rw [← hus, Script.gist_cons, Script.gist_ret_explicit, Set.union_comm {_}]
    simp

theorem tells_jump (h : ∀ e ∈ value, e.Accounted C) (isBreak : Bool) :
    Tells C ∅ (jump isBreak value) gist := by
  refine Tells.get fun s hs => ?_
  split
  · refine .pure ?_
    cases isBreak <;> simp
  · split
    · exact Tells.refuse _ s hs
    · refine ((tells_optionalValue h).map fun v => ?_) s hs
      cases isBreak <;> simp +decide

theorem accounted_brk (h : ∀ e ∈ value, e.Accounted C) : (brk value).Accounted C := by
  have hvalue : Tells C ∅ (brk value).value gist := by
    refine Tells.get fun s hs => ?_
    split
    · exact ((tells_optionalValue h).map fun v => by simp +decide) s hs
    · exact Tells.refuse _ s hs
  exact ⟨hvalue, hvalue.map fun v => by simp, fun _ => tells_jump h true, fun _ _ h => nomatch h⟩

theorem accounted_nxt (h : ∀ e ∈ value, e.Accounted C) : (nxt value).Accounted C := by
  have hvalue : Tells C ∅ (nxt value).value gist := Tells.refuse _
  exact ⟨hvalue, hvalue.map fun v => by simp, fun _ => tells_jump h false, fun _ _ h => nomatch h⟩

/-! ## Calls -/

/-- That parameters have names that do not matter, and defaults that account for what they use. -/
abbrev ParamsAccounted (C : Prop) : Params Emission → Prop := ParamsOf QuietName (Emission.Accounted C)

theorem tells_defaults {ds : List (String × Emission)}
    (h : ∀ d ∈ ds, QuietName d.1 ∧ d.2.Accounted C) : Tells C ∅ (defaults ds) gist := by
  induction ds with
  | nil => exact Tells.pure (by simp)
  | cons d ds ih =>
      obtain ⟨⟨hx, he⟩, hds⟩ := List.forall_mem_cons.mp h
      exact he.value.bind fun v => (ih hds).map fun others => by
        simp [Script.gist_orDefault v hx.quiet]

theorem tells_paramSetup (h : ParamsAccounted C p) : Tells C ∅ (paramSetup p) gist := by
  have harray : gist (Term.own "Array") = ∅ := Script.gist_own (by decide)
  have harguments : gist (Term.own "arguments") = ∅ := Script.gist_own (by decide)
  refine (tells_defaults h.optional).bind fun ss => ?_
  split
  · exact Tells.pure (by simp)
  · rename_i x hrest
    have hx : gist (Term.user x) = ∅ := gist_user (h.rest x hrest)
    have hcount : Plain (positional p).length.repr := Script.plain_toString _
    refine (Tells.declareLocal (h.rest x hrest).plain).map fun _ => ?_
    simp +decide [hx, harray, harguments, hcount]

/-- That a block accounts for what it uses. -/
abbrev BlockAccounted (C : Prop) : Block Emission → Prop := BlockOf QuietName (Emission.Accounted C)

theorem tells_blockBody {b : Block Emission} (h : BlockAccounted C b) :
    Tells C ∅ (blockBody b) gist := by
  have hrequired : gist (b.params.required.map fun x => Stmt.orNil (.user x)) = ∅ := by
    refine Script.gist_eq_empty (List.forall_mem_map.mpr fun x hx => ?_)
    exact Script.gist_stmt_orNil (h.params.required x hx).quiet
  refine (tells_paramSetup h.params).bind fun setup => ?_
  split
  case' h_1 x hblock => refine (Tells.declareLocal (h.params.block x hblock).plain).bind fun _ => ?_
  all_goals exact (tells_body h.body true).map fun main => by simp [hrequired]

theorem tells_block {b : Block Emission} (h : BlockAccounted C b) : Tells C ∅ (block b) gist := by
  have hnames : ∀ x ∈ (positional b.params).map Name.user ++ ([] : List (Name × Term)).map (·.1),
      Plain x.text := by
    rw [List.map_nil, List.append_nil, List.forall_mem_map]
    exact fun x hx => (h.params.positional x hx).plain.localName
  have hself : (((positional b.params).map Name.user).contains (.own "self") ||
      (([] : List (Name × Term)).map (·.1)).contains (.own "self")) = false := by simp
  have hfinishes : Finishes { kind := .block, params := positional b.params } false fun ss g =>
      { g.function [] [] ss with params := (positional b.params).map Name.user } :=
    finishes_start (by decide) _ _ none [] hnames (by simp) (by simp) hself
  exact (Tells.inPlainFrame (tells_blockBody h) hfinishes).map fun r => by simp

theorem tells_givenBlock {b : Option (Block Emission)} (hb : ∀ b' ∈ b, BlockAccounted C b')
    {arg : Option Emission} (harg : ∀ e ∈ arg, e.Accounted C) :
    Tells C ∅ (givenBlock b arg) gist := by
  unfold givenBlock
  split
  · rename_i b'
    exact (tells_block (hb b' rfl)).map fun t => by simp
  · rename_i e
    exact (harg e rfl).value.map fun t => by simp
  · exact Tells.pure (by simp)

@[simp] theorem gist_iterTerm : gist (Term.own "$iter") = {some .iter} :=
  Script.gist_telling_name (by decide) (by decide)

theorem tells_iter : Tells C ∅ iter gist := by
  refine Tells.useIter.bind fun used => ?_
  cases used with
  | true => exact Tells.pure (by simp)
  | false => exact Tells.pure (by simp)

theorem tells_blockGiven : Tells C ∅ blockGiven gist := by
  refine Tells.useIter.bind fun used => ?_
  cases used with
  | true => exact Tells.pure (by simp +decide)
  | false => exact Tells.pure (by simp)

theorem tells_send {recv : Term} (name : String) (hes : AllAccounted C es) {block : Option Term}
    {before : Set (Option Use)} (hbefore : before = gist recv ∪ gist block) :
    Tells C before (send recv name es block) gist := by
  unfold send
  split
  · refine (tells_argumentArray hes).map fun list => ?_
    ext u
    cases block <;> simp +decide [hbefore]
    tauto
  · rename_i hplain
    have hnone : block = none := by
      cases block with
      | none => rfl
      | some t => exact absurd (by simp) hplain
    exact (tells_values hes).map fun vs => by simp [hbefore, hnone]

/-- That a call is made of parts that account for what they use. -/
abbrev CallAccounted (C : Prop) : Call Emission → Prop := CallOf QuietName (Emission.Accounted C)

theorem tells_ordinaryCall (h : CallAccounted C c) : Tells C ∅ (ordinaryCall c) gist := by
  unfold ordinaryCall
  split
  case' h_1 e hrecv => refine (h.recv e hrecv).recv.bind fun r => ?_
  case' h_2 => refine Tells.pure_bind ?_
  all_goals
    refine (tells_givenBlock h.block h.blockArg).bind fun b => ?_
    exact tells_send c.name h.args (by simp)

theorem gist_declarationTerm {d : Declaration} {t : Term} (h : declarationTerm d = some t) :
    gist t = ∅ := by
  unfold declarationTerm at h
  split at h
  · obtain rfl := Option.some.inj h
    simp
  · obtain rfl := Option.some.inj h
    simp
  · cases h

theorem tells_callValue {builtin : Option Builtin} {declared : Bool → Option Declaration}
    (h : CallAccounted C c) : Tells C ∅ (callValue builtin declared c) gist := by
  unfold callValue
  split
  · intro s _ v t hrun
    obtain ⟨rfl, rfl⟩ := run_ok_inj hrun
    simpa using Accounts.inline [.debugger, .ret .nil false] (by simp) s
  · exact tells_blockGiven
  · refine Tells.get fun s hs => ?_
    split
    · exact tells_ordinaryCall h s hs
    · refine ((Tells.record _).bind fun _ => ?_) s hs
      split
      · rename_i t hterm
        exact Tells.pure (by simp [gist_declarationTerm hterm])
      · simpa using tells_ordinaryCall h

theorem accounted_call {builtin : Option Builtin} {declared : Bool → Option Declaration}
    (h : CallAccounted C c) : (call builtin declared c).Accounted C := by
  have hplain : (ofValue true (callValue builtin declared c)).Accounted C :=
    accounted_ofValue (tells_callValue h)
  unfold call
  split
  · exact { hplain with stmts := fun ret => Tells.pure (by simp [gist_returnNil]) }
  · exact { hplain with test := tells_blockGiven }
  · exact hplain

theorem accounted_yield (h : AllAccounted C es) : (Emission.yield es).Accounted C :=
  accounted_ofValue (tells_iter.bind fun i => (tells_argumentArray h).map fun l => by simp +decide)

theorem accounted_super {args : Option (List Emission)} (hargs : BodyAccounted C args)
    {b : Option (Block Emission)} (hb : ∀ b' ∈ b, BlockAccounted C b') {arg : Option Emission}
    (harg : ∀ e ∈ arg, e.Accounted C) : (super args b arg).Accounted C := by
  refine accounted_ofValue (Tells.get fun s hs => ?_)
  split
  · exact Tells.refuse _ s hs
  · rename_i m hm
    obtain ⟨hquiet, hclosed⟩ := hs.method hm
    have hforwarded : Tells C ∅ (pure m.forwarded) gist :=
      .flawed (Script.told_eq_empty_iff.mp hquiet.forwarded) (fun hC => (hclosed hC).2)
        (Set.empty_union _).symm
    have hname : gist (Term.own m.function) = Script.flaw m.function :=
      Name.gist_of_quiet hquiet.function
    have hresult {before : Set (Option Use)} {t : Term}
        (h : gist t = before ∪ Script.flaw m.function) : Tells C before (pure t) gist :=
      .flawed (by simp [Script.flaw]) (fun hC => by simp [(hclosed hC).1]) h
    refine (show Tells C ∅ _ (gist : Term → Set (Option Use)) from ?_) s hs
    split
    case' h_1 items => refine (tells_argumentArray (hargs items rfl)).bind fun list => ?_
    case' h_2 => refine hforwarded.bind fun list => ?_
    all_goals
      refine (tells_givenBlock hb harg).bind fun given => ?_
      split
      case' h_1 t => refine Tells.pure_bind ?_
      case' h_2 => refine tells_iter.bind fun t => ?_
      all_goals exact hresult (by simp +decide [hname, Set.union_comm])

/-! ## Definitions -/

theorem gist_forwarded (h : ParamsAccounted C p) : gist (forwarded p) = ∅ := by
  have hlist : gist ((positional p).map Term.user) = ∅ :=
    Script.gist_eq_empty (List.forall_mem_map.mpr fun x hx => gist_user (h.positional x hx))
  unfold forwarded
  split
  · rename_i x hrest
    simp +decide [hlist, gist_user (h.rest x hrest)]
  · simp [hlist]

theorem quiet_functionName (name : String) : (Name.own (Script.functionName name)).Quiet := by
  have htext : (Script.functionName name).toList =
      '$' :: '$' :: (String.join (name.toList.map Script.spelledChar)).toList := by
    rw [Script.functionName, String.toList_append]
    rfl
  exact ⟨Name.isTelling_of_second htext rfl, Script.plain_functionName name⟩

/-- A parameter for the block uses the block without a note. -/
theorem tells_methodBody (hp : ParamsAccounted C p) (h : AllAccounted C es) :
    Tells C (unnoted p.block.isSome) (methodBody p es) gist := by
  refine (tells_paramSetup hp).bind fun setup => ?_
  split
  case' h_1 x hblock =>
    have hx : gist (Term.user x) = ∅ := gist_user (hp.block x hblock)
    refine (Tells.declareLocal (hp.block x hblock).plain).bind fun _ => Tells.pure_bind ?_
  case' h_2 hblock => refine Tells.pure_bind ?_
  all_goals
    refine (tells_body h true).map fun ss => ?_
    ext u
    simp [unnoted, *]
  tauto

/-- The function of a method takes its block if the block is used in it, with or without a note. -/
theorem finishes_method (hp : ParamsAccounted C p) (name : String) :
    Finishes
      { kind := .method, params := positional p,
        method := some { name, function := Script.functionName name, forwarded := forwarded p } }
      p.block.isSome fun ss g =>
        let slot : Term := .member (.own (Script.functionName name)) "$$p"
        let usesBlock := g.usesIter || p.block.isSome
        { g.function
            ((.own "self", .own "this") ::
              (if usesBlock then [(.own "$iter", .binary "||" slot .nil)] else []))
            (if usesBlock then [.term (.assign slot .null)] else []) ss with
          name := some (Script.functionName name), params := (positional p).map Name.user } where
  catchesReturn := rfl
  locals := rfl
  closed ss g hss hlocals := by
    have hslot : (Term.member (.own (Script.functionName name)) "$$p").Closed :=
      .member (.own (Script.plain_functionName name)) (by decide)
    refine
      { name := by simpa using (Script.plain_functionName name).closed
        params := List.forall_mem_map.mpr fun x hx => (hp.positional x hx).plain.localName.closed
        constructor := nofun
        inits := List.forall_mem_cons.mpr ⟨⟨Name.closed_own (by decide), .own (by decide)⟩, ?_⟩
        locals := hlocals
        setup := ?_
        body := hss }
    · split
      · refine List.forall_mem_singleton.mpr ⟨Name.closed_own (by decide), ?_⟩
        exact .binary (by decide) hslot .nil
      · exact List.forall_mem_nil _
    · change Script.StmtsClosed (if _ then _ else _)
      split
      · exact .single (.term (.assign hslot .null))
      · exact .nil
  method := by
    rintro m ⟨⟩
    have hforwarded := gist_forwarded hp
    refine ⟨⟨(quiet_functionName name).1, ?_⟩, fun _ => ⟨(quiet_functionName name).2, ?_⟩⟩
    · exact Script.told_eq_empty_iff.mpr (by simp [hforwarded])
    · simp [hforwarded]
  temps _ _ := rfl
  catches _ _ := rfl
  keeps ss g := by
    have hthis : gist (Term.own "this") = ∅ := Script.gist_own (by decide)
    have hname : gist (Term.own (Script.functionName name)) = ∅ :=
      Script.gist_own (quiet_functionName name)
    rw [Script.gist_function]
    cases g.usesIter || p.block.isSome <;> simp +decide [Frame.function, hthis, hname]
  bindsSelf ss g := by simp [Script.Func.bindsSelf, Frame.function, Frame.ownsReturn,
    FrameKind.seesOuter]
  onlyMethod _ := rfl
  iter _ ss g hiter := by
    have husesBlock : (g.usesIter || p.block.isSome) = true := by simpa using hiter
    refine ⟨Script.functionName name, rfl, ?_, ?_⟩
    · simp [Frame.function, husesBlock]
    · simp [Frame.function, husesBlock]

theorem tells_methodFunction (hp : ParamsAccounted C p) (h : AllAccounted C es) (name : String) :
    Tells C ∅ (methodFunction name p es) gist :=
  (Tells.inFrame (tells_methodBody hp h) (finishes_method hp name)).map fun r => by simp

theorem accounted_define {singleton : Option Emission} (hs : ∀ e ∈ singleton, e.Accounted C)
    (name : String) (hp : ParamsAccounted C p) (h : AllAccounted C es) :
    (define singleton name p es).Accounted C := by
  refine accounted_ofValue ?_
  split
  · rename_i e
    refine (hs e rfl).value.bind fun t => (tells_methodFunction hp h name).map fun f => ?_
    simp +decide
  · exact (tells_methodFunction hp h name).map fun f => by simp +decide

theorem gist_bodyInits : gist (bodyInits.map (·.2)) = ∅ := by
  simp +decide [bodyInits]

/-- The bodies of classes and modules are functions that are called at once. -/
theorem tells_calledBody {kind : FrameKind} {make : List Stmt → Frame → Func Term Stmt}
    (hmake : Finishes { kind } false make) (h : AllAccounted C es) (args : List Term) :
    Tells C (gist args) (do
      let r ← Gen.inFrame { kind } (body es true)
      pure (Term.call (.paren (.func (make r.1 r.2))) args)) gist :=
  (Tells.inPlainFrame (tells_body h true) hmake).map fun r => by simp [Set.union_comm]

theorem accounted_classDef {base : Base Emission} (hbase : BaseAccounted C base) {name : String}
    (hname : (Name.own ("$" ++ name)).Quiet) {superclass : Option Emission}
    (hsuper : ∀ e ∈ superclass, e.Accounted C) (h : AllAccounted C es) :
    (classDef base name superclass es).Accounted C := by
  have hconstructor : gist (Term.own ("$" ++ name)) = ∅ := Script.gist_own hname
  have hbaseTerm : gist (Term.own "$base") = ∅ := Script.gist_own (by decide)
  have hsuperTerm : gist (Term.own "$super") = ∅ := Script.gist_own (by decide)
  let made : Term := .runtime "klass" [.own "$base", .own "$super", .str name, .own ("$" ++ name)]
  let inits := (.own "self", .assign (.own ("$" ++ name)) made) :: bodyInits
  have hinits : gist (inits.map (·.2)) = ∅ := by
    simp +decide [inits, made, gist_bodyInits, hconstructor, hbaseTerm, hsuperTerm]
  have hmake : Finishes { kind := .classBody } false fun ss g =>
      { g.function inits [] ss with
        params := [.own "$base", .own "$super"], constructor := some ("$" ++ name) } :=
    finishes_start (by decide) [] _ _ inits (by simp +decide [inits, bodyInits])
      (fun x hx => Option.some.inj hx ▸ hname.2) hinits rfl
  refine accounted_ofValue ((tells_constantOwner hbase).bind fun owner => ?_)
  split
  · rename_i e
    refine (hsuper e rfl).value.bind fun parent => ?_
    simpa using tells_calledBody hmake h [owner, parent]
  · refine Tells.pure_bind ?_
    simpa using tells_calledBody hmake h [owner, .null]

theorem accounted_moduleDef {base : Base Emission} (hbase : BaseAccounted C base) (name : String)
    (h : AllAccounted C es) : (moduleDef base name es).Accounted C := by
  have hbaseTerm : gist (Term.own "$base") = ∅ := Script.gist_own (by decide)
  let inits := (.own "self", .runtime "module" [.own "$base", .str name]) :: bodyInits
  have hinits : gist (inits.map (·.2)) = ∅ := by
    simp +decide [inits, gist_bodyInits, hbaseTerm]
  have hmake : Finishes { kind := .moduleBody } false fun ss g =>
      { g.function inits [] ss with params := [.own "$base"] } :=
    finishes_start (by decide) [] _ none inits (by simp +decide [inits, bodyInits]) nofun hinits rfl
  refine accounted_ofValue ((tells_constantOwner hbase).bind fun owner => ?_)
  simpa using tells_calledBody hmake h [owner]

theorem accounted_singletonDef (he : e.Accounted C) (h : AllAccounted C es) :
    (singletonDef e es).Accounted C := by
  have hmake : Finishes { kind := .singletonBody } false fun ss g =>
      { g.function bodyInits [] ss with params := [.own "self"] } :=
    finishes_start (by decide) [] _ none bodyInits (by decide) nofun gist_bodyInits rfl
  refine accounted_ofValue (he.value.bind fun t => ?_)
  simpa +decide using tells_calledBody hmake h [.runtime "get_singleton_class" [t]]

theorem accounted_aliasMethod (newName oldName : String) :
    (aliasMethod newName oldName).Accounted C :=
  accounted_ofValue (Tells.pure (by simp +decide))

theorem accounted_undef (names : List String) : (undef names).Accounted C := by
  have hall : gist (names.map fun n => Term.runtime "udef" [.self, .methodName n]) = ∅ :=
    Script.gist_eq_empty (List.forall_mem_map.mpr fun n _ => by simp +decide)
  refine accounted_ofValue (Tells.pure ?_)
  split
  · rename_i one heq
    simpa [heq] using hall
  · simpa using hall

end Emission

/-! ## Trees -/

/-- The characters of words are no brackets and no quotes. -/
theorem IsWord.plain {x : String} (h : IsWord x) : Plain x := by
  intro c hc
  rcases h c hc with hname | rfl | rfl
  · exact Script.not_mem_delimiters hname (by decide)
  · decide
  · decide

/-- A word starts with no dollar, so it is no temporary. -/
theorem IsWord.quiet {x : String} (h : IsWord x) : QuietName x := by
  refine ⟨Name.isTelling_of_head ?_, h.plain⟩
  have hdollar : ∀ c ∈ x.toList, c ≠ '$' := by
    rintro c hc rfl
    rcases h _ hc with hname | hmark | hmark
    · exact absurd hname (by decide)
    · exact absurd hmark (by decide)
    · exact absurd hmark (by decide)
  rw [Name.text, Script.localName]
  cases hx : x.toList with
  | nil =>
      obtain rfl : x = "" := String.toList_eq_nil_iff.mp hx
      decide
  | cons c cs =>
      have hc : c ≠ '$' := hdollar c (hx ▸ List.mem_cons_self)
      split
      · rw [String.toList_append, hx]
        simpa using hc
      · rw [hx]
        simpa using hc

/-- The constructor of a class starts with a dollar and a capital letter. -/
theorem quiet_constructor {name : String} (hword : IsWord name)
    (h : isConstant name.toList = true) : (Name.own ("$" ++ name)).Quiet := by
  refine ⟨?_, Plain.append (by decide) hword.plain⟩
  cases hname : name.toList with
  | nil => simp [hname, isConstant] at h
  | cons c cs =>
      rw [hname] at h
      have htext : ("$" ++ name).toList = '$' :: c :: cs := by
        rw [String.toList_append, hname]
        rfl
      refine Name.isTelling_of_second htext (Bool.eq_false_iff.mpr fun hlower => ?_)
      have hupper : c.isUpper = true := h
      unfold Char.isUpper at hupper
      unfold Char.isLower at hlower
      simp [UInt32.le_iff_toNat_le] at hupper hlower
      omega

/-- Whether an expression is native text. -/
def Expr.isNative : Expr → Bool
  | xstr _ => true
  | _ => false

section Trees

open Emission

theorem Expr.Regular.quiet {e : Expr} (h : e.Regular) : ∀ x ∈ e.written, QuietName x :=
  fun x hx => (h.written x hx).quiet

/-- Regular trees account for what they use, and native text is the only text of theirs that can
open brackets. -/
theorem accounted_emit {C : Prop} (u : UnitInfo) {e : Expr} (h : e.All Expr.Regular)
    (hC : C → e.All (·.isNative = false)) : (emit u e).Accounted C := by
  induction e using Expr.induction_on_parts with
  | h e ih =>
  obtain ⟨hhere, hinside⟩ := h
  have hparts : ∀ s ∈ e.parts, (emit u s.expr).Accounted C := fun s hs =>
    ih s hs (hinside s hs) fun hc => (hC hc).inside s hs
  have hnative : C → e.isNative = false := fun hc => (hC hc).here
  have hquiet := hhere.quiet
  clear ih hinside hC
  cases e with
  | nil => exact accounted_ofTest (Tells.pure (by simp)) (Tells.pure (by simp))
  | bool b => exact accounted_ofTest (Tells.pure (by simp)) (Tells.pure (by simp))
  | selfRef => exact accounted_ofValue (Tells.pure (by simp))
  | int t => exact accounted_int t
  | float t => exact accounted_ofValue (Tells.pure (by simp [Script.plain_floatText]))
  | str t | sym t => exact accounted_ofValue (Tells.pure (by simp))
  | dstr ps | dsym ps => exact accounted_interpolated (emits_of_held hparts).parts
  | xstr ps => exact accounted_native (fun hc => nomatch hnative hc) (emits_of_held hparts).parts
  | array es => exact accounted_ofValue (tells_argumentArray (emits_of_held hparts).all)
  | hash ps => exact accounted_hash (emits_of_held hparts).pairs
  | range a b exclusive =>
      obtain ⟨ha, hb⟩ := List.forall_mem_append.mp hparts
      exact accounted_range (emits_of_held ha).expr (emits_of_held hb).expr exclusive
  | lvar x =>
      exact accounted_ofValue (Tells.pure (gist_user (hquiet x (List.mem_singleton_self _))))
  | ivar x =>
      have hx := (hquiet x (List.mem_singleton_self _)).plain
      exact accounted_ofValue (Tells.pure (by simp [gist_instancePlace hx]))
  | gvar x => exact accounted_ofValue (Tells.pure (by simp))
  | const base x => exact accounted_ofValue (tells_constantValue (emits_of_held hparts).base _ x)
  | assign t v =>
      obtain ⟨ht, hv⟩ := List.forall_mem_append.mp hparts
      refine accounted_assign ((emits_of_held ht).target fun x hx => ?_) (emits_of_held hv).expr _
      rcases hx with rfl | rfl <;> exact hquiet x (List.mem_singleton_self _)
  | opAssign t op v =>
      obtain ⟨ht, hv⟩ := List.forall_mem_append.mp hparts
      refine accounted_opAssign ((emits_of_held ht).target fun x hx => ?_) (emits_of_held hv).expr
        _ op
      rcases hx with rfl | rfl <;> exact hquiet x (List.mem_singleton_self _)
  | call c =>
      obtain ⟨recv, name, args, block, arg⟩ := c
      simp only [Expr.parts, heldArgument, List.forall_mem_append] at hparts
      obtain ⟨⟨⟨hrecv, hargs⟩, hblock⟩, harg⟩ := hparts
      have hnames : ∀ x ∈ blockNames block, QuietName x := by
        intro x hx
        cases recv with
        | none => exact hquiet x (List.mem_cons_of_mem _ hx)
        | some e => exact hquiet x hx
      exact accounted_call ⟨(emits_of_held hrecv).option, (emits_of_held hargs).all,
        (emits_of_held hblock).block? hnames, (emits_of_held harg).option⟩
  | splat e => exact accounted_splat (emits_of_held hparts).expr
  | not e => exact accounted_not (emits_of_held hparts).expr
  | and l r =>
      obtain ⟨hl, hr⟩ := List.forall_mem_append.mp hparts
      exact accounted_and (emits_of_held hl).expr (emits_of_held hr).expr
  | or l r =>
      obtain ⟨hl, hr⟩ := List.forall_mem_append.mp hparts
      exact accounted_or (emits_of_held hl).expr (emits_of_held hr).expr
  | ifElse c t e =>
      simp only [Expr.parts, List.forall_mem_append] at hparts
      obtain ⟨⟨hc, ht⟩, he⟩ := hparts
      exact accounted_ifElse (emits_of_held hc).expr (emits_of_held ht).all (emits_of_held he).all
  | ternary c t e =>
      simp only [Expr.parts, List.forall_mem_append] at hparts
      obtain ⟨⟨hc, ht⟩, he⟩ := hparts
      exact accounted_ifElse (emits_of_held hc).expr
        (List.forall_mem_singleton.mpr (emits_of_held ht).expr)
        (List.forall_mem_singleton.mpr (emits_of_held he).expr)
  | loop c b isUntil bodyFirst =>
      obtain ⟨hc, hb⟩ := List.forall_mem_append.mp hparts
      exact accounted_loop (emits_of_held hc).expr (emits_of_held hb).all isUntil bodyFirst
  | caseOf s ws e =>
      simp only [Expr.parts, List.forall_mem_append] at hparts
      obtain ⟨⟨hs, hws⟩, he⟩ := hparts
      refine accounted_caseOf (emits_of_held hs).option ?_ (emits_of_held hws).whens
        (emits_of_held he).body?
      cases ws with
      | nil => cases hhere.filled
      | cons w ws => exact List.cons_ne_nil _ _
  | begin b rs e f =>
      simp only [Expr.parts, List.forall_mem_append] at hparts
      obtain ⟨⟨⟨hb, hrs⟩, he⟩, hf⟩ := hparts
      exact accounted_begin (emits_of_held hb).all ((emits_of_held hrs).rescues hquiet)
        (emits_of_held he).body? (emits_of_held hf).body?
  | seq es => exact accounted_seq (emits_of_held hparts).all
  | ret v => exact accounted_ret (emits_of_held hparts).option
  | brk v => exact accounted_brk (emits_of_held hparts).option
  | nxt v => exact accounted_nxt (emits_of_held hparts).option
  | «yield» es => exact accounted_yield (emits_of_held hparts).all
  | super args block arg =>
      simp only [Expr.parts, heldArgument, List.forall_mem_append] at hparts
      obtain ⟨⟨hargs, hblock⟩, harg⟩ := hparts
      exact accounted_super (emits_of_held hargs).body? ((emits_of_held hblock).block? hquiet)
        (emits_of_held harg).option
  | define s name params b =>
      simp only [Expr.parts, List.forall_mem_append] at hparts
      obtain ⟨⟨hs, hparams⟩, hb⟩ := hparts
      exact accounted_define (emits_of_held hs).option name ((emits_of_held hparams).params hquiet)
        (emits_of_held hb).all
  | classDef base name s b =>
      simp only [Expr.parts, List.forall_mem_append] at hparts
      obtain ⟨⟨hbase, hs⟩, hb⟩ := hparts
      have hword : IsWord name := hhere.written name (List.mem_singleton_self _)
      have hconstant : isConstant name.toList = true := by
        simpa [Expr.isHollow] using hhere.filled
      exact accounted_classDef (emits_of_held hbase).base (quiet_constructor hword hconstant)
        (emits_of_held hs).option (emits_of_held hb).all
  | moduleDef base name b =>
      obtain ⟨hbase, hb⟩ := List.forall_mem_append.mp hparts
      exact accounted_moduleDef (emits_of_held hbase).base name (emits_of_held hb).all
  | singletonDef t b =>
      obtain ⟨ht, hb⟩ := List.forall_mem_append.mp hparts
      exact accounted_singletonDef (emits_of_held ht).expr (emits_of_held hb).all
  | aliasMethod a b => exact accounted_aliasMethod a b
  | undef names => exact accounted_undef names

end Trees

/-! ## Units -/

theorem gist_unitInits : gist (unitInits.map (·.2)) = ∅ := by
  simp +decide [unitInits]

/-- The text after the marker line is in a function that uses nothing. -/
theorem tells_endDataSetup {C : Prop} (data : Option String) :
    Tells C ∅ (pure (endDataSetup data)) gist := by
  cases data with
  | none => exact Tells.pure (by simp [endDataSetup])
  | some data =>
      intro s _ ss t hrun
      obtain ⟨rfl, rfl⟩ := run_ok_inj hrun
      have hname : gist (Term.own "$__END__") = ∅ := Script.gist_own (by decide)
      simpa +decide [endDataSetup, Emission.endObject, hname] using
        Accounts.inline [.ret (.str data) false] (by simp) s

/-- All functions of a unit whose tree is regular are tidy, and its brackets are closed if it has no
native text. -/
theorem script_of_generate {program : Program} {file : String} {g : Generated} {C : Prop}
    (hregular : Regular program.body)
    (hC : C → ∀ e ∈ program.body, e.All (·.isNative = false))
    (h : generate program file = .ok g) : g.script.Sound ∧ (C → g.script.Closed) := by
  simp only [generate] at h
  split at h
  · cases h
  · rename_i body t hrun
    obtain rfl := Except.ok.inj h
    have hemits : Emits (Emission.Accounted C) ⟨file, program.endData.isSome⟩ program.body :=
      fun e he => accounted_emit _ (hregular e he) fun hc =>
        hC hc e (by simpa [Holder.exprs] using he)
    have hstart : GenState.Ready C { frame := { kind := .top } } := by
      refine ⟨List.forall_mem_singleton.mpr fun m hm => ?_, by simp [GenState.Plain]⟩
      cases hm
    obtain ⟨us, hbody, hcloses, hused⟩ := Emission.tells_body hemits.all true _ hstart body t hrun
    have hend := hbody.ready hstart
    obtain ⟨vs, hsetup, hcloses', hused'⟩ :=
      tells_endDataSetup (C := C) program.endData t hend _ _ rfl
    rw [Set.empty_union] at hused hused'
    have hall : Accounts {u | some u ∈ us ∪ vs} _ t := hbody.trans hsetup
    let F : Func Term Stmt := t.frame.function unitInits (endDataSetup program.endData) body
    have hgist : gist F = unnoted false ∪ (us ∪ vs) := by
      rw [Script.gist_function]
      change gist (unitInits.map (·.2)) ∪ gist (endDataSetup program.endData) ∪ gist body = _
      rw [gist_unitInits, hused, hused']
      simp [unnoted, Set.union_comm]
    have htidy : F.Tidy := by
      refine tidy_of_run hall hgist rfl rfl rfl rfl ?_
      rintro (htakes | ⟨hkind, -⟩)
      · cases htakes
      · cases hkind
    refine ⟨sound_of_run hall hgist htidy, fun hc => ?_⟩
    have hinits : Script.TermsClosed (unitInits.map (·.2)) :=
      .of_gist (gist_unitInits ▸ Script.closes_empty)
    have hnames : ∀ p ∈ unitInits, Plain p.1.text := by decide
    exact
      { name := fun _ hx => by cases hx
        params := fun _ hx => by cases hx
        constructor := fun _ hx => by cases hx
        inits := fun p hp => ⟨(hnames p hp).closed, hinits _ (List.mem_map_of_mem hp)⟩
        locals := hend.plain hc _ List.mem_cons_self
        setup := .of_gist (hused' ▸ hcloses' hc)
        body := .of_gist (hused ▸ hcloses hc) }

end RubyJs
