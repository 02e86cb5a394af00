import RubyJs.Proofs.Emission.Constructs

set_option autoImplicit false

/-! # Which declarations are found

Code generation meets a call that declares a need exactly if the call gets code. Two kinds of parts
get none: the value of a `break` or `next` in a loop, and an argument `&e` beside a block. So the
declarations of a unit are those of the calls that stand outside of such parts, and a need is missed
if all calls that declare it stand inside (`generate_declares`).
-/

namespace RubyJs

variable {file : String}

/-- What an expression at `p` leaves behind: what it declares and assigns itself, and its parts. -/
def Deed.ofExpr (file : String) (p : Place) (e : Expr) : List Deed :=
  (match e with
    | .call c => Deed.ofDeclaration file p c
    | _ => []) ++ e.binds.map .binds ++ e.parts.map .part

theorem Deed.ofExpr_notes {p : Place} {e : Expr} {d : Declaration} :
    (∃ a ∈ Deed.ofExpr file p e, a.Notes file p d) ↔ e.Declares file generated p d := by
  rw [Expr.declares_iff]
  have hparts : (∃ a ∈ e.parts.map Deed.part, a.Notes file p d) ↔
      ∃ s ∈ e.parts, generated p s = true ∧
        s.expr.Declares file generated (p.enter s.nesting) d := by
    simp only [List.mem_map, exists_exists_and_eq_and]
    rfl
  have hbinds : ¬ ∃ a ∈ e.binds.map Deed.binds, a.Notes file p d := by
    simp only [List.mem_map, exists_exists_and_eq_and]
    rintro ⟨x, -, h⟩
    exact h
  simp only [Deed.ofExpr, List.mem_append, or_and_right, exists_or, hparts, hbinds, or_false]
  refine or_congr_left ?_
  cases e with
  | call c =>
      simp only [Deed.ofDeclaration, List.mem_map, exists_exists_and_eq_and, Deed.Notes]
      simp
  | _ => simp

theorem Deed.ofExpr_binds {p : Place} {e : Expr} {x : String} :
    (∃ a ∈ Deed.ofExpr file p e, a.Binds p x) ↔ e.Assigns generated p x := by
  rw [Expr.assigns_iff]
  have hparts : (∃ a ∈ e.parts.map Deed.part, a.Binds p x) ↔
      ∃ s ∈ e.parts, generated p s = true ∧ s.nesting.isOwn = true ∧
        s.expr.Assigns generated (p.enter s.nesting) x := by
    simp only [List.mem_map, exists_exists_and_eq_and]
    rfl
  have hbinds : (∃ a ∈ e.binds.map Deed.binds, a.Binds p x) ↔ x ∈ e.binds := by
    simp only [List.mem_map, exists_exists_and_eq_and]
    exact exists_eq_right
  simp only [Deed.ofExpr, List.mem_append, or_and_right, exists_or, hparts, hbinds]
  refine or_congr_left (or_iff_right ?_)
  cases e with
  | call c =>
      simp only [Deed.ofDeclaration, List.mem_map, exists_exists_and_eq_and]
      rintro ⟨d, -, h⟩
      exact h
  | _ => simp

/-- An emission that leaves behind what the expression and its parts do is one of the whole. -/
theorem Traced.whole {p : Place} {deeds : List Deed} {em : Emission} {e : Expr}
    (h : Traced file p deeds em)
    (hmem : ∀ a, a ∈ deeds ↔ a ∈ Deed.ofExpr file p e := by
      simp [Deed.ofExpr, Expr.binds, Expr.parts, Deed.ofBlock, Deed.allAs]) :
    Traced file p (Deed.all .here e) em := by
  have hwhole : ∀ {α : Type} {g : Gen α}, Traces file p deeds g →
      Traces file p (Deed.all .here e) g := by
    intro α g hg
    refine (hg.congr hmem).equiv (fun d => ?_) fun x => ?_
    · rw [Deed.ofExpr_notes, Deed.allAs_notes]
      simp [Holder.exprs, Fate.isGenerated, Place.enter]
    · rw [Deed.ofExpr_binds, Deed.allAs_binds]
      simp [Holder.exprs, Fate.isGenerated, Place.enter, Nesting.isOwn]
  refine ⟨hwhole h.value, hwhole h.test, fun ret => hwhole (h.stmts ret), fun v t heq => ?_⟩
  exact ⟨hwhole (h.splat v t heq).1, hwhole (h.splat v t heq).2⟩

/-- Where all parts are generated with their traces, so are the expressions they come from. -/
theorem sound_of_held {α : Type} [Holder α] {u : UnitInfo} {fate : Fate} {n : Nesting}
    {a : α}
    (h : ∀ s ∈ heldAs fate n a, ∀ p, Traced u.file p (Deed.all .here s.expr) (emit u s.expr))
    (p : Place) : Sound u p a :=
  fun e he => h ⟨e, n, fate⟩ (List.mem_map_of_mem he) p

/-- Every expression leaves behind what it and the expressions in it declare and assign, as far as
they get code. -/
theorem emit_traced (u : UnitInfo) (e : Expr) :
    ∀ p, Traced u.file p (Deed.all .here e) (emit u e) := by
  induction e using Expr.induction_on_parts with
  | h e ih =>
  intro p
  cases e with
  | nil | bool _ => exact .whole (.ofTest (Traces.pure _) (Traces.pure _))
  | selfRef | float _ | str _ | sym _ | lvar _ | ivar _ | gvar _ | aliasMethod _ _ | undef _ =>
      exact .whole (.ofValue (Traces.pure _))
  | int t => exact .whole (int_traced t)
  | dstr ps | dsym ps => exact .whole (interpolated_traced (sound_of_held ih p))
  | xstr ps => exact .whole (native_traced (sound_of_held ih p))
  | array es => exact .whole (.ofValue (argumentArray_traces (sound_of_held ih p)))
  | hash ps =>
      refine .whole (.ofValue (Traces.before (hashItems_traces (sound_of_held ih p)) fun _ => ?_))
      exact Traces.pure _
  | range a b exclusive =>
      obtain ⟨ha, hb⟩ := List.forall_mem_append.mp ih
      exact .whole (range_traced (sound_of_held ha p) (sound_of_held hb p) exclusive)
  | const base x => exact .whole (.ofValue (constantValue_traces (sound_of_held ih p) _ x))
  | assign t v =>
      obtain ⟨ht, hv⟩ := List.forall_mem_append.mp ih
      refine .whole (assign_traced (sound_of_held ht p) (sound_of_held hv p) _) ?_
      cases t <;> simp [Deed.ofExpr, Expr.binds, Expr.parts, Deed.ofTarget, Deed.allAs, heldAs,
        Holder.exprs]
  | opAssign t op v =>
      obtain ⟨ht, hv⟩ := List.forall_mem_append.mp ih
      refine .whole (opAssign_traced (sound_of_held ht p) (sound_of_held hv p) _ op) ?_
      cases t <;> simp [Deed.ofExpr, Expr.binds, Expr.parts, Deed.ofTarget, Deed.allAs, heldAs,
        Holder.exprs]
  | call c =>
      obtain ⟨recv, name, args, block, arg⟩ := c
      simp only [Expr.parts, heldArgument, List.forall_mem_append] at ih
      obtain ⟨⟨⟨hrecv, hargs⟩, hblock⟩, harg⟩ := ih
      refine .whole (call_traced (ordinaryCall_traces (sound_of_held hrecv p)
        (sound_of_held hblock _) (sound_of_held harg p) (sound_of_held hargs p))) ?_
      intro a
      simp only [Deed.ofExpr, Expr.binds, Expr.parts, Deed.ofCall, Deed.ofBlock, Deed.allAs,
        List.map_append, List.mem_append]
      grind
  | splat e => exact .whole (splat_traced (sound_of_held ih p))
  | not e => exact .whole (not_traced (sound_of_held ih p))
  | and l r =>
      obtain ⟨hl, hr⟩ := List.forall_mem_append.mp ih
      exact .whole (operator_traced (sound_of_held hl p) (sound_of_held hr p)).1
  | or l r =>
      obtain ⟨hl, hr⟩ := List.forall_mem_append.mp ih
      exact .whole (operator_traced (sound_of_held hl p) (sound_of_held hr p)).2
  | ifElse c t e =>
      simp only [Expr.parts, List.forall_mem_append] at ih
      obtain ⟨⟨hc, ht⟩, he⟩ := ih
      exact .whole (ifElse_traced (sound_of_held hc p) (sound_of_held ht p) (sound_of_held he p))
  | ternary c t e =>
      simp only [Expr.parts, List.forall_mem_append] at ih
      obtain ⟨⟨hc, ht⟩, he⟩ := ih
      have hthen : Sound u p [t] := sound_of_held ht p
      have helse : Sound u p [e] := sound_of_held he p
      exact .whole (ifElse_traced (sound_of_held hc p) hthen helse)
  | loop c b isUntil bodyFirst =>
      obtain ⟨hc, hb⟩ := List.forall_mem_append.mp ih
      exact .whole (loop_traced (sound_of_held hc p) (sound_of_held hb _) isUntil bodyFirst)
  | caseOf s ws e =>
      simp only [Expr.parts, List.forall_mem_append] at ih
      obtain ⟨⟨hs, hws⟩, he⟩ := ih
      exact .whole (caseOf_traced (sound_of_held hs p) (sound_of_held hws p) (sound_of_held he p))
  | begin b rs e f =>
      simp only [Expr.parts, List.forall_mem_append] at ih
      obtain ⟨⟨⟨hb, hrs⟩, he⟩, hf⟩ := ih
      refine .whole (begin_traced (sound_of_held hb p) (sound_of_held hrs p) (sound_of_held he p)
        (sound_of_held hf p)) ?_
      intro a
      simp only [Deed.ofExpr, Expr.binds, Expr.parts, Deed.ofRescues, Deed.allAs, List.map_append,
        List.mem_append]
      grind
  | seq es => exact .whole (seq_traced (sound_of_held ih p))
  | ret v => exact .whole (ret_traced (sound_of_held ih p))
  | brk v => exact .whole (brk_traced (sound_of_held ih p))
  | nxt v => exact .whole (nxt_traced (sound_of_held ih p))
  | «yield» es => exact .whole (yield_traced (sound_of_held ih p))
  | super args block arg =>
      simp only [Expr.parts, heldArgument, List.forall_mem_append] at ih
      obtain ⟨⟨hargs, hblock⟩, harg⟩ := ih
      exact .whole (super_traced (sound_of_held hargs p) (sound_of_held hblock _)
        (sound_of_held harg p))
  | define s name params b =>
      simp only [Expr.parts, List.forall_mem_append] at ih
      obtain ⟨⟨hs, hparams⟩, hb⟩ := ih
      refine .whole (define_traced (sound_of_held hs p) (sound_of_held hparams _)
        (sound_of_held hb _) name) ?_
      rw [Deed.all_append (a := (params, b)) rfl]
      simp [Deed.ofExpr, Expr.binds, Expr.parts, Deed.allAs]
  | classDef base name s b =>
      simp only [Expr.parts, List.forall_mem_append] at ih
      obtain ⟨⟨hbase, hs⟩, hb⟩ := ih
      exact .whole (classDef_traced (sound_of_held hbase p) (sound_of_held hs p)
        (sound_of_held hb _) name)
  | moduleDef base name b =>
      obtain ⟨hbase, hb⟩ := List.forall_mem_append.mp ih
      exact .whole (moduleDef_traced (sound_of_held hbase p) (sound_of_held hb _) name)
  | singletonDef t b =>
      obtain ⟨ht, hb⟩ := List.forall_mem_append.mp ih
      exact .whole (singletonDef_traced (sound_of_held ht p) (sound_of_held hb _))

/-! ## Units -/

/-- A unit begins outside of classes and loops. -/
theorem fits_start : Place.Fits {} { frame := { kind := .top } } where
  owner := ⟨_, List.mem_cons_self, FrameKind.noConfusion⟩
  inClass := rfl
  inLoop h := absurd h Bool.false_ne_true
  outsideLoops _ := rfl

theorem mem_declarations_iff {program : Program} {g : Generated} (h : generate program file = .ok g)
    (d : Declaration) : d ∈ g.declarations ↔ program.Declares file generated d := by
  have hsound : Sound ⟨file, program.endData.isSome⟩ {} program.body :=
    fun e _ => emit_traced _ e {}
  simp only [generate] at h
  split at h
  · cases h
  · rename_i stmts s hrun
    obtain rfl := Except.ok.inj h
    have hleaves := body_traces hsound true _ _ _ fits_start hrun
    refine (hleaves.declarations d).trans ?_
    rw [Deed.allAs_notes, Program.Declares]
    simp [Holder.exprs, Fate.isGenerated, Place.enter]

/-- The declarations of a unit are those of the calls that get code. So none is missed if and only
if each declaration of a call that gets none is also one of a call that does. -/
theorem generate_declares (program : Program) (file : String) (g : Generated)
    (h : generate program file = .ok g) :
    (∀ d, d ∈ g.declarations ↔ program.Declares file generated d) ∧
    ((∀ d, program.Declares file anywhere d → d ∈ g.declarations) ↔
      ∀ d, program.Declares file anywhere d → program.Declares file generated d) := by
  have hmem := mem_declarations_iff h
  refine ⟨hmem, ?_⟩
  simp only [hmem]

/-- `while true; break require("a"); end` -/
def breakWithNeed : Program where
  body := [.loop (.bool true)
    [.brk (some (.call { recv := none, name := "require", args := [.str "a"] }))] false false]
  endData := none

/-- The value of a `break` in a loop gets no code, and what it declares is missed. -/
theorem generate_declares_break : ∃ g, generate breakWithNeed "main" = .ok g ∧
    breakWithNeed.Declares "main" anywhere ⟨"a", .direct⟩ ∧ ⟨"a", .direct⟩ ∉ g.declarations ∧
    ¬ breakWithNeed.Declares "main" generated ⟨"a", .direct⟩ := by
  refine ⟨_, rfl, ?_, ?_, ?_⟩
  · let need : Call Expr := { recv := none, name := "require", args := [.str "a"] }
    have hvalue : ⟨.call need, .here, .outsideLoops⟩ ∈ (Expr.brk (some (.call need))).parts :=
      List.mem_singleton_self _
    have hloop : ⟨.brk (some (.call need)), .loop, .always⟩ ∈
        (Expr.loop (.bool true) [.brk (some (.call need))] false false).parts :=
      List.mem_append_right _ (List.mem_singleton_self _)
    exact ⟨_, List.mem_singleton_self _, need, _, .inside hloop rfl (.inside hvalue rfl .here),
      by decide⟩
  · decide
  · intro hd
    have := ((generate_declares breakWithNeed "main" _ rfl).1 _).mpr hd
    revert this
    decide

end RubyJs
