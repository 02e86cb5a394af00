import RubyJs.Proofs.Script.Brackets

set_option autoImplicit false

/-! # Scripts that close their brackets

A construct of a script is printed from the texts of its parts, with brackets around some of them.
Some of these brackets are opened in one line and closed in another:

    if (a) {            leaves `{` open
    } else if (b) {     closes it and leaves another open
    }                   closes it

There is a lemma for each construct that says that it is closed if its parts are. Native text is as
closed as it was written, and an `if` needs a test.
-/

namespace RubyJs.Script

variable {tests : List (Term × List Stmt)} {x : Name}

/-- That the text of a name is closed. -/
def Name.Closed (x : Name) : Prop := Script.Closed x.text

/-- That the text of a term is closed. -/
def Term.Closed (e : Term) : Prop := ∀ indent, Script.Closed (e.text indent)

/-- That the lines of a statement are closed. -/
def Stmt.Closed (s : Stmt) : Prop := ∀ indent, ClosedLines (s.lines indent)

/-- That the texts of terms are closed. -/
abbrev TermsClosed (es : List Term) : Prop := ∀ e ∈ es, e.Closed

/-- That the lines of statements are closed. -/
abbrev StmtsClosed (ss : List Stmt) : Prop := ∀ s ∈ ss, s.Closed

/-- That a group of statements is closed, if there is one. -/
abbrev GroupClosed (group : Option (List Stmt)) : Prop := ∀ ss ∈ group, StmtsClosed ss

/-- That all that a function is printed from is closed. -/
structure Func.Closed (f : Func Term Stmt) : Prop where
  name : ∀ x ∈ f.name, Script.Closed x
  params : ∀ x ∈ f.params, x.Closed
  constructor : ∀ x ∈ f.constructor, Script.Closed x
  inits : ∀ p ∈ f.inits, p.1.Closed ∧ p.2.Closed
  locals : ∀ x ∈ f.locals, Plain x
  setup : StmtsClosed f.setup
  body : StmtsClosed f.body

theorem Name.closed_own {x : String} (h : Plain x) : (Name.own x).Closed := h.closed

/-! ## Lists -/

theorem termTexts_eq_map (indent : Nat) (es : List Term) :
    termTexts indent es = es.map (Term.text indent) := by
  induction es with
  | nil => rfl
  | cons e es ih => rw [termTexts, ih, List.map_cons]

theorem closed_termTexts {es : List Term} (h : TermsClosed es) (indent : Nat) :
    Closed (commas (termTexts indent es)) := by
  rw [termTexts_eq_map]
  refine closed_commas fun s hs => ?_
  obtain ⟨e, he, rfl⟩ := List.mem_map.mp hs
  exact h e he indent

theorem closed_stmtLines {ss : List Stmt} (h : StmtsClosed ss) (indent : Nat) :
    ClosedLines (stmtLines indent ss) := by
  induction ss with
  | nil => exact .nil
  | cons s ss ih =>
      obtain ⟨hs, hss⟩ := List.forall_mem_cons.mp h
      rw [stmtLines]
      exact (hs indent).append (ih hss)

/-- Blanks at the start of a line change nothing. -/
theorem Moves.padded {a b : List Bracket} {text : String} (h : Moves a b text) (indent : Nat) :
    Moves a b (pad indent ++ text) := (closed_pad indent).moves.append h

theorem TermsClosed.nil : TermsClosed [] := fun _ he => absurd he List.not_mem_nil

theorem TermsClosed.cons {e : Term} {es : List Term} (h : e.Closed) (hes : TermsClosed es) :
    TermsClosed (e :: es) := List.forall_mem_cons.mpr ⟨h, hes⟩

theorem StmtsClosed.nil : StmtsClosed [] := fun _ hs => absurd hs List.not_mem_nil

theorem StmtsClosed.cons {s : Stmt} {ss : List Stmt} (h : s.Closed) (hss : StmtsClosed ss) :
    StmtsClosed (s :: ss) := List.forall_mem_cons.mpr ⟨h, hss⟩

theorem StmtsClosed.single {s : Stmt} (h : s.Closed) : StmtsClosed [s] := .cons h .nil

theorem GroupClosed.none : GroupClosed none := fun _ h => nomatch h

theorem GroupClosed.some {ss : List Stmt} (h : StmtsClosed ss) : GroupClosed (some ss) := by
  rintro _ ⟨⟩
  exact h

/-! ## Functions -/

theorem closed_varLine {inits locals : List String} {temps : Nat} (hinits : ∀ s ∈ inits, Closed s)
    (hlocals : ∀ x ∈ locals, Plain x) : ∀ l ∈ varLine inits locals temps, Closed l := by
  have hvars : ∀ s ∈ inits ++ locals.map (fun x => localName x ++ " = nil") ++
      (List.range temps).map (fun i => (Name.temp (i + 1)).text), Closed s := by
    simp only [List.forall_mem_append, List.forall_mem_map]
    refine ⟨⟨hinits, fun x hx => ?_⟩, fun i _ => (plain_temp _).closed⟩
    exact (hlocals x hx).localName.closed.append fun _ => rfl
  simp only [varLine]
  split
  · exact fun l hl => absurd hl List.not_mem_nil
  · intro l hl
    rw [List.mem_singleton.mp hl]
    have hvar : Closed "var " := fun _ => rfl
    exact (hvar.append (closed_commas hvars)).append fun _ => rfl

theorem closed_handlerLines {body : List String} (h : ClosedLines body) (indent : Nat)
    (catchesReturn : Bool) : ClosedLines (handlerLines indent catchesReturn body) := by
  unfold handlerLines
  cases catchesReturn with
  | false => exact h
  | true =>
      have hopen : Moves [] [.curly] (pad indent ++ "try \x7b") := Moves.padded (fun _ => rfl) _
      have hinner : LinesMove [.curly] [.curly] (body.map ("  " ++ ·)) :=
        h.moves.map fun a b l hl => Moves.append (Closed.moves fun _ => rfl) hl
      have hcatch : Moves [.curly] [.curly, .curly]
          (pad indent ++ "\x7d catch ($returner) \x7b if ($returner === Opal.returner) \x7b ") :=
        Moves.padded (fun _ => rfl) _
      exact ((LinesMove.line hopen).append hinner).append (.line (hcatch.append fun _ => rfl))

theorem closed_initTexts {inits : List (Name × Term)} (h : ∀ p ∈ inits, p.1.Closed ∧ p.2.Closed)
    (indent : Nat) : ∀ s ∈ initTexts indent inits, Closed s := by
  induction inits with
  | nil => exact fun s hs => absurd hs List.not_mem_nil
  | cons p inits ih =>
      obtain ⟨⟨hname, hterm⟩, hrest⟩ := List.forall_mem_cons.mp h
      rw [initTexts]
      refine List.forall_mem_cons.mpr ⟨?_, ih hrest⟩
      have hequals : Closed " = " := fun _ => rfl
      exact (Moves.append hname hequals).append (hterm indent)

theorem Func.Closed.lines {f : Func Term Stmt} (h : f.Closed) (indent : Nat) :
    ClosedLines (funcLines indent f) := by
  obtain ⟨name, params, constructor, inits, locals, temps, setup, catchesReturn, body⟩ := f
  rw [funcLines]
  have hconstructor : ClosedLines
      (constructor.toList.map fun c => pad (indent + 1) ++ "function " ++ c ++ "()\x7b\x7d;") := by
    refine closedLines_of_forall (List.forall_mem_map.mpr fun c hc => ?_)
    have hfunction : Script.Closed "function " := fun _ => rfl
    exact ((hfunction.padded _).append (h.constructor c (Option.mem_toList.mp hc))).append
      fun _ => rfl
  have hvars : ClosedLines
      ((varLine (initTexts (indent + 1) inits) locals temps).map (pad (indent + 1) ++ ·)) := by
    refine closedLines_of_forall (List.forall_mem_map.mpr fun l hl => ?_)
    exact (closed_varLine (closed_initTexts h.inits _) h.locals l hl).padded _
  exact ((hconstructor.append hvars).append (closed_stmtLines h.setup _)).append
    (closed_handlerLines (closed_stmtLines h.body _) _ _)

theorem closed_functionText {name : Option String} {params : List Name} {lines : List String}
    (hname : ∀ x ∈ name, Closed x) (hparams : ∀ x ∈ params, x.Closed) (hlines : ClosedLines lines)
    (indent : Nat) : Closed (functionText indent name params lines) := by
  have hword : Closed "function" := fun _ => rfl
  have hparams' : Closed (commas (params.map Name.text)) :=
    closed_commas (List.forall_mem_map.mpr hparams)
  have hbody : Moves [.curly] [.curly] ("\n".intercalate lines) :=
    hlines.moves.intercalate fun _ => rfl
  have hopen : Moves [] [.round] "(" := fun _ => rfl
  have hmiddle : Moves [.round] [.curly] ") \x7b\n" := fun _ => rfl
  have hend : Moves [.curly] [.curly] "\n" := fun _ => rfl
  have hclose : Moves [.curly] [] "\x7d" := fun _ => rfl
  unfold functionText
  refine (((((((hword.append (c := []) ?_).append hopen).append hparams'.moves).append
    hmiddle).append hbody).append hend).append (closed_pad indent).moves).append hclose
  cases name with
  | none => exact closed_empty
  | some n =>
      have hblank : Closed " " := fun _ => rfl
      exact hblank.append (hname n rfl)

/-! ## Terms -/

namespace Term.Closed

variable {e e' e'' : Term} {es : List Term}

theorem name (h : x.Closed) : (Term.name x).Closed := fun _ => h

theorem word {w : String} (h : Plain w) : (Term.word w).Closed := fun _ => h.closed

theorem str (text : String) : (Term.str text).Closed := fun _ => closed_stringLiteral text

theorem paren (h : e.Closed) : (Term.paren e).Closed := fun indent =>
  (h indent).between (a := [.round]) (fun _ => rfl) fun _ => rfl

theorem not (h : e.Closed) : (Term.not e).Closed := fun indent =>
  Moves.append (fun _ => rfl) (h indent)

theorem binary {op : String} (hop : Plain op) (h : e.Closed) (h' : e'.Closed) :
    (Term.binary op e e').Closed := fun indent =>
  have hblank : Script.Closed " " := fun _ => rfl
  ((((h indent).append hblank).append hop.closed).append hblank).append (h' indent)

theorem choice (h : e.Closed) (h' : e'.Closed) (h'' : e''.Closed) :
    (Term.choice e e' e'').Closed := fun indent =>
  have hyes : Script.Closed " ? " := fun _ => rfl
  have hno : Script.Closed " : " := fun _ => rfl
  ((((h indent).append hyes).append (h' indent)).append hno).append (h'' indent)

theorem assign (h : e.Closed) (h' : e'.Closed) : (Term.assign e e').Closed := fun indent =>
  have hequals : Script.Closed " = " := fun _ => rfl
  ((h indent).append hequals).append (h' indent)

theorem comma (h : TermsClosed es) : (Term.comma es).Closed := fun indent =>
  closed_termTexts h indent

theorem call (h : e.Closed) (hes : TermsClosed es) : (Term.call e es).Closed := fun indent =>
  have hopen : Moves [] [.round] "(" := fun _ => rfl
  (((h indent).append hopen).append (closed_termTexts hes indent).moves).append fun _ => rfl

theorem member {p : String} (h : e.Closed) (hp : Plain p) : (Term.member e p).Closed :=
  fun indent =>
    have hdot : Script.Closed "." := fun _ => rfl
    ((h indent).append hdot).append hp.closed

theorem index (h : e.Closed) (h' : e'.Closed) : (Term.index e e').Closed := fun indent =>
  have hopen : Moves [] [.square] "[" := fun _ => rfl
  (((h indent).append hopen).append (h' indent).moves).append fun _ => rfl

theorem method (h : e.Closed) (name : String) : (Term.method e name).Closed := fun indent =>
  (h indent).append (closed_methodAccess name)

theorem array (h : TermsClosed es) : (Term.array es).Closed := fun indent =>
  (closed_termTexts h indent).between (a := [.square]) (fun _ => rfl) fun _ => rfl

theorem func {f : Func Term Stmt} (h : f.Closed) : (Term.func f).Closed := fun indent =>
  closed_functionText h.name h.params (h.lines indent) indent

theorem inline {ss : List Stmt} (h : StmtsClosed ss) : (Term.inline ss).Closed := fun _ =>
  have hbody : Script.Closed (" ".intercalate (stmtLines 0 ss)) :=
    (closed_stmtLines h 0).intercalate fun _ => rfl
  hbody.between (a := [.curly]) (fun _ => rfl) fun _ => rfl

/-! ### Abbreviations -/

theorem own {x : String} (h : Plain x) : (Term.own x).Closed := name (Name.closed_own h)

theorem nil : Term.nil.Closed := own (by decide)

theorem null : Term.null.Closed := word (by decide)

end Term.Closed

/-! ## Statements -/

/-- The lines of the tests after the first. Each closes the bracket of the one before. -/
theorem linesMove_testLines (h : ∀ t ∈ tests, t.1.Closed ∧ StmtsClosed t.2) (indent : Nat) :
    LinesMove [.curly] [.curly] (testLines indent false tests) := by
  induction tests with
  | nil => exact .nil
  | cons t tests ih =>
      obtain ⟨⟨hcond, hbody⟩, hrest⟩ := List.forall_mem_cons.mp h
      have hopen : Moves [.curly] [.round] "\x7d else if (" := fun _ => rfl
      have hline := ((hopen.padded indent).append (hcond indent).moves).append
        (t := ") \x7b") (c := [.curly]) fun _ => rfl
      exact .cons hline ((closed_stmtLines hbody _).moves.append (ih hrest))

theorem linesMove_tests (hne : tests ≠ []) (h : ∀ t ∈ tests, t.1.Closed ∧ StmtsClosed t.2)
    (indent : Nat) : LinesMove [] [.curly] (testLines indent true tests) := by
  cases tests with
  | nil => exact absurd rfl hne
  | cons t tests =>
      obtain ⟨⟨hcond, hbody⟩, hrest⟩ := List.forall_mem_cons.mp h
      have hopen : Moves [] [.round] "if (" := fun _ => rfl
      have hline := ((hopen.padded indent).append (hcond indent).moves).append
        (t := ") \x7b") (c := [.curly]) fun _ => rfl
      exact .cons hline ((closed_stmtLines hbody _).moves.append (linesMove_testLines hrest _))

/-- A group of statements after the one before. -/
theorem linesMove_blockLines {head : String} (hhead : Moves [.curly] [.curly] head)
    {group : Option (List Stmt)} (h : GroupClosed group) (indent : Nat) :
    LinesMove [.curly] [.curly] (blockLines indent head group) := by
  cases group with
  | none => exact .nil
  | some body => exact .cons (hhead.padded _) (closed_stmtLines (h body rfl) _).moves

namespace Stmt.Closed

variable {e : Term} {ss : List Stmt}

/-- A statement on a line of its own. -/
theorem line {s : Stmt} {text : Nat → String} (hlines : ∀ i, s.lines i = [pad i ++ text i])
    (h : ∀ i, Script.Closed (text i)) : s.Closed := by
  intro indent
  rw [hlines]
  exact .line ((h indent).padded _)

theorem term (h : e.Closed) : (Stmt.term e).Closed := fun indent =>
  .line (((h indent).padded _).append fun _ => rfl)

theorem ret (h : e.Closed) (explicit : Bool) : (Stmt.ret e explicit).Closed := fun indent =>
  have hword : Script.Closed "return " := fun _ => rfl
  .line (((hword.padded _).append (h indent)).append fun _ => rfl)

theorem var (hx : x.Closed) (h : e.Closed) : (Stmt.var x e).Closed := fun indent =>
  have hword : Script.Closed "var " := fun _ => rfl
  have hequals : Script.Closed " = " := fun _ => rfl
  .line (((((hword.padded _).append hx).append hequals).append (h indent)).append fun _ => rfl)

/-- With at least one test, all brackets are closed by the last line. -/
theorem branches {otherwise : Option (List Stmt)} (hne : tests ≠ [])
    (h : ∀ t ∈ tests, t.1.Closed ∧ StmtsClosed t.2) (hotherwise : GroupClosed otherwise) :
    (Stmt.branches tests otherwise).Closed := fun indent =>
  have helse : Moves [.curly] [.curly] "\x7d else \x7b" := fun _ => rfl
  have hclose : Moves [.curly] [] "\x7d" := fun _ => rfl
  ((linesMove_tests hne h indent).append (linesMove_blockLines helse hotherwise indent)).append
    (.line (hclose.padded _))

theorem loop (h : e.Closed) (hbody : StmtsClosed ss) (bodyFirst : Bool) :
    (Stmt.loop e ss bodyFirst).Closed := by
  intro indent
  have hinner := (closed_stmtLines hbody (indent + 1)).moves (a := [.curly])
  rw [Stmt.lines]
  cases bodyFirst with
  | true =>
      have hopen : Moves [] [.curly] "do \x7b" := fun _ => rfl
      have hwhile : Moves [.curly] [.round] "\x7d while (" := fun _ => rfl
      exact ((LinesMove.line (hopen.padded _)).append hinner).append
        (.line (((hwhile.padded _).append (h indent).moves).append fun _ => rfl))
  | false =>
      have hwhile : Moves [] [.round] "while (" := fun _ => rfl
      have hopen : Moves [.round] [.curly] ") \x7b" := fun _ => rfl
      have hclose : Moves [.curly] [] "\x7d" := fun _ => rfl
      exact ((LinesMove.line (((hwhile.padded _).append (h indent).moves).append hopen)).append
        hinner).append (.line (hclose.padded _))

theorem guarded {handler finalizer : Option (List Stmt)} (hbody : StmtsClosed ss)
    (hhandler : GroupClosed handler)
    (hfinalizer : GroupClosed finalizer) :
    (Stmt.guarded ss handler finalizer).Closed := fun indent =>
  have hopen : Moves [] [.curly] "try \x7b" := fun _ => rfl
  have hcatch : Moves [.curly] [.curly] "\x7d catch ($err) \x7b" := fun _ => rfl
  have hfinally : Moves [.curly] [.curly] "\x7d finally \x7b" := fun _ => rfl
  have hclose : Moves [.curly] [] "\x7d" := fun _ => rfl
  ((((LinesMove.line (hopen.padded _)).append (closed_stmtLines hbody _).moves).append
    (linesMove_blockLines hcatch hhandler indent)).append
    (linesMove_blockLines hfinally hfinalizer indent)).append (.line (hclose.padded _))

theorem rethrow : Stmt.rethrow.Closed := line (fun _ => rfl) fun _ _ => rfl

theorem brk : Stmt.brk.Closed := line (fun _ => rfl) fun _ _ => rfl

theorem goOn : Stmt.goOn.Closed := line (fun _ => rfl) fun _ _ => rfl

theorem debugger : Stmt.debugger.Closed := line (fun _ => rfl) fun _ _ => rfl

theorem orNil (hx : x.Closed) : (Stmt.orNil x).Closed := fun indent =>
  have hopen : Moves [] [.round] "if (" := fun _ => rfl
  have htest : Moves [.round] [] " == null) " := fun _ => rfl
  .line (((((hopen.padded indent).append (Script.Closed.moves hx)).append htest).append hx).append
    fun _ => rfl)

theorem orDefault (hx : x.Closed) (h : e.Closed) : (Stmt.orDefault x e).Closed := by
  intro indent
  have hopen : Moves [] [.round] "if (" := fun _ => rfl
  have htest : Moves [.round] [.curly] " == null) \x7b " := fun _ => rfl
  have hequals : Moves [.curly] [.curly] " = " := fun _ => rfl
  have hx' : ∀ a, Moves a a x.text := fun a => Script.Closed.moves hx
  have hstart := (((hopen.padded indent).append (hx' _)).append htest).append (hx' _)
  exact .line (((hstart.append hequals).append (h indent).moves).append fun _ => rfl)

end Stmt.Closed

end RubyJs.Script
