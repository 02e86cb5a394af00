import Mathlib.Data.List.Forall2
import RubyJs.Proofs.JavaScript.Phrases
import RubyJs.Proofs.JavaScript.Spelling
import RubyJs.Script.Printer

set_option autoImplicit false

/-! # Scripts are read as they are meant

A script is a tree that is printed as it is, so its text can group otherwise than the tree does:
nothing but the parentheses that are in it keeps an operator together with its operands. `Printed`
says that the text of a term is read as a term of some level; there is a lemma for each construct,
which asks for operands of the levels that are read there. `PrintedStmts` says the same of
statements, which are printed on lines of their own.
-/

namespace RubyJs.JavaScript

open Script (Name pad)

variable {L : Letters}
variable {us : List Token} {x : String}

/-! ## Terms -/

/-- That the text of a term is read as `e`, with the properties and calls that may follow. -/
def Bare (L : Letters) (t : Script.Term) (e : Term) : Prop :=
  ∀ i, ∃ us, Spells L (t.text i) us ∧ Chain L us e

/-- That the text of a term is read as `e`, which is of level `k`. -/
def Printed (L : Letters) (k : Nat) (t : Script.Term) (e : Term) : Prop :=
  ∀ i, ∃ us, Spells L (t.text i) us ∧ Phrase L k us e

theorem Bare.printed {t : Script.Term} {e : Term} (h : Bare L t e) {k : Nat} (hk : k ≤ 5) :
    Printed L k t e := by
  intro i
  obtain ⟨us, hus, hchain⟩ := h i
  exact ⟨us, hus, hchain.phrase.lift (Nat.zero_le k) hk⟩

theorem Printed.lift {k k' : Nat} {t : Script.Term} {e : Term} (h : Printed L k t e) (hk : k ≤ k')
    (hk' : k' ≤ 5) : Printed L k' t e := by
  intro i
  obtain ⟨us, hus, hphrase⟩ := h i
  exact ⟨us, hus, hphrase.lift hk hk'⟩

theorem isName_of_isVariable (h : L.isVariable x = true) : L.isName x = true :=
  (Bool.and_eq_true _ _ ▸ h).1

theorem bare_name {x : Name} (h : L.isVariable x.text = true) :
    Bare L (.name x) (.name x.text) := by
  intro i
  rw [Script.Term.text]
  exact ⟨_, spells_word (isName_of_isVariable h), chain_name h⟩

theorem isName_ascii {w : String} (h : Script.isIdentifier w = true) : L.isName w = true := by
  unfold Script.isIdentifier at h
  unfold Letters.isName
  split at h
  · exact absurd h Bool.false_ne_true
  · rename_i c cs hw
    rw [Bool.and_eq_true, List.all_eq_true] at h
    simp only [hw, Bool.and_eq_true, List.all_eq_true]
    refine ⟨?_, fun d hd => ?_⟩
    · rw [Letters.isStart, h.1, Bool.true_or]
    · rw [Letters.isWord, h.2 d hd, Bool.true_or]

theorem isVariable_ascii {w : String} (h : Script.isIdentifier w = true)
    (hw : reservedWords.contains w = false) : L.isVariable w = true := by
  rw [Letters.isVariable, isName_ascii h, hw]
  rfl

theorem bare_bool (b : Bool) : Bare L (.bool b) (.bool b) := by
  intro i
  refine ⟨_, ?_, chain_bool b⟩
  rw [Script.Term.bool, Script.Term.text]
  exact spells_word (isName_ascii (by cases b <;> decide))

theorem Printed.paren {t : Script.Term} {e : Term} (h : Printed L 5 t e) : Bare L (.paren t) e := by
  intro i
  obtain ⟨us, hus, hphrase⟩ := h i
  refine ⟨_, ?_, hphrase.paren⟩
  rw [Script.Term.text]
  exact ((mark_lparen.lexes.spells hus).mark mark_rparen).toSpells

theorem Bare.member {t : Script.Term} {e : Term} (h : Bare L t e) {p : String}
    (hp : L.isName p = true) : Bare L (.member t p) (.member e p) := by
  intro i
  obtain ⟨us, hus, hchain⟩ := h i
  refine ⟨_, ?_, hchain.member hp⟩
  rw [Script.Term.text]
  have hspells := (hus.mark mark_dot).spells (spells_word hp)
  rwa [List.append_assoc] at hspells

theorem Bare.invoke {t : Script.Term} {e : Term} (h : Bare L t e) :
    Bare L (.call t []) (.invoke e) := by
  intro i
  obtain ⟨us, hus, hchain⟩ := h i
  refine ⟨_, ?_, hchain.invoke⟩
  rw [Script.Term.text]
  have hlexes := ((hus.mark mark_lparen).append Lexes.empty).append mark_rparen.lexes
  rw [List.append_nil, List.append_assoc] at hlexes
  exact hlexes.toSpells

theorem Bare.apply {t u : Script.Term} {e a : Term} (h : Bare L t e) (hu : Printed L 4 u a) :
    Bare L (.call t [u]) (.apply e a) := by
  intro i
  obtain ⟨us, hus, hchain⟩ := h i
  obtain ⟨vs, hvs, hphrase⟩ := hu i
  refine ⟨_, ?_, hchain.apply hphrase⟩
  rw [Script.Term.text]
  have hlexes := ((hus.mark mark_lparen).spells hvs).mark mark_rparen
  rw [List.append_assoc, List.append_assoc] at hlexes
  exact hlexes.toSpells

/-- A test of what counts as true. -/
theorem bare_truthy {t : Script.Term} {e : Term} (h : Printed L 4 t e) :
    Bare L (.truthy t) (.apply (.member (.name "Opal") "truthy") e) := by
  have hopal : Bare L .opal (.name "Opal") := bare_name (isVariable_ascii (by decide) (by decide))
  exact (hopal.member (isName_ascii (by decide))).apply h

namespace Printed

variable {t u v : Script.Term} {e e' e'' : Term}

theorem not (h : Printed L 1 t e) : Printed L 1 (.not t) (.not e) := by
  intro i
  obtain ⟨us, hus, hphrase⟩ := h i
  refine ⟨_, ?_, hphrase.not⟩
  rw [Script.Term.text]
  exact mark_bang.lexes.spells hus

/-- An operator between two terms. -/
theorem spells_binary {op : String} {o : Token} (ho : Mark L op [o]) {i : Nat} {vs : List Token}
    (hus : Spells L (t.text i) us) (hvs : Spells L (u.text i) vs) :
    Spells L ((Script.Term.binary op t u).text i) (us ++ o :: vs) := by
  rw [Script.Term.text]
  have hspells := ((((hus.mark mark_blank).append ho.lexes).append mark_blank.lexes).spells hvs)
  simpa using hspells

theorem and (h : Printed L 1 t e) (h' : Printed L 2 u e') :
    Printed L 2 (.binary "&&" t u) (.and e e') := by
  intro i
  obtain ⟨us, hus, hphrase⟩ := h i
  obtain ⟨vs, hvs, hphrase'⟩ := h' i
  exact ⟨_, spells_binary mark_and hus hvs, hphrase.and hphrase'⟩

theorem or (h : Printed L 2 t e) (h' : Printed L 3 u e') :
    Printed L 3 (.binary "||" t u) (.or e e') := by
  intro i
  obtain ⟨us, hus, hphrase⟩ := h i
  obtain ⟨vs, hvs, hphrase'⟩ := h' i
  exact ⟨_, spells_binary mark_or hus hvs, hphrase.or hphrase'⟩

theorem choice (h : Printed L 3 t e) (h' : Printed L 4 u e') (h'' : Printed L 4 v e'') :
    Printed L 4 (.choice t u v) (.choice e e' e'') := by
  intro i
  obtain ⟨us, hus, hphrase⟩ := h i
  obtain ⟨vs, hvs, hphrase'⟩ := h' i
  obtain ⟨ws, hws, hphrase''⟩ := h'' i
  refine ⟨_, ?_, hphrase.choice hphrase' hphrase''⟩
  rw [Script.Term.text]
  have hspells := ((hus.mark mark_question).spells hvs).mark mark_colon |>.spells hws
  simpa using hspells

theorem assign (h : Bare L t e) (htarget : e.isTarget = true) (h' : Printed L 4 u e') :
    Printed L 4 (.assign t u) (.assign e e') := by
  intro i
  obtain ⟨us, hus, hphrase⟩ := h.printed (k := 3) (by decide) i
  obtain ⟨vs, hvs, hphrase'⟩ := h' i
  refine ⟨_, ?_, hphrase.assign htarget hphrase'.reads⟩
  rw [Script.Term.text]
  have hspells := (hus.mark mark_assign).spells hvs
  simpa using hspells

/-- Terms with commas between them, the last one being `u`. -/
theorem comma_singleton (h : Printed L 4 u e) : Printed L 5 (.comma [u]) e := by
  intro i
  obtain ⟨us, hus, hphrase⟩ := h i
  refine ⟨us, ?_, hphrase.lift (by decide) (by decide)⟩
  rw [Script.Term.text]
  exact hus

theorem comma_cons {us : List Script.Term} (h : Printed L 4 t e)
    (h' : Printed L 5 (.comma (u :: us)) e') :
    Printed L 5 (.comma (t :: u :: us)) (.comma e e') := by
  intro i
  obtain ⟨vs, hvs, hphrase⟩ := h i
  obtain ⟨ws, hws, hphrase'⟩ := h' i
  refine ⟨_, ?_, hphrase.comma hphrase'⟩
  rw [Script.Term.text] at hws ⊢
  have htexts : Script.commas (Script.termTexts i (t :: u :: us)) =
      t.text i ++ ", " ++ Script.commas (Script.termTexts i (u :: us)) := by
    simp only [Script.commas, Script.termTexts]
    rw [String.intercalate_cons_cons]
  rw [htexts]
  have hspells := (hvs.mark mark_comma).spells hws
  simpa using hspells

end Printed

/-- The front of a function that only returns. -/
theorem lexes_function : Lexes L ("function() \x7b " ++ "return ")
    [.word "function", .lparen, .rparen, .lbrace, .word "return"] := by
  have hbrace : Mark L (" " ++ ("\x7b" ++ " ")) [.lbrace] :=
    mark_blank.append (mark_lbrace.append mark_blank.lexes).lexes
  have hparens : Mark L ("(" ++ (")" ++ (" " ++ ("\x7b" ++ " ")))) [.lparen, .rparen, .lbrace] :=
    mark_lparen.append (mark_rparen.append hbrace.lexes).lexes
  have hfunction : Spells L "function" [.word "function"] := spells_word (isName_ascii (by decide))
  have hreturn : Spells L "return" [.word "return"] := spells_word (isName_ascii (by decide))
  have hfront : Lexes L "function() \x7b " _ := hfunction.mark hparens
  have hback : Lexes L "return " _ := hreturn.mark mark_blank
  exact hfront.append hback

/-- A function that returns a string can be the value of an assignment. -/
theorem printed_assign_function {t : Script.Term} {e : Term} (h : Bare L t e)
    (htarget : e.isTarget = true) (text : String) :
    Printed L 4 (.assign t (.inline [.ret (.str text) false])) (.assign e (.func .str)) := by
  intro i
  obtain ⟨us, hus, hphrase⟩ := h.printed (k := 3) (by decide) i
  have hstr : Phrase L 5 [.str] .str := chain_str.phrase.lift (by decide) (by decide)
  refine ⟨us ++ .assign :: functionTokens [.str], ?_,
    hphrase.assign htarget fun rest _ m hm => term_function hstr rest hm⟩
  have htext : (Script.Term.assign t (.inline [.ret (.str text) false])).text i =
      t.text i ++ " = " ++ ("function() \x7b " ++ "return " ++ Script.stringLiteral text ++ ";" ++
        " \x7d") := by
    simp only [Script.Term.text, Script.stmtLines, Script.Stmt.lines, List.append_nil,
      String.intercalate_singleton, Script.pad, String.empty_append, String.append_assoc]
  have hfront : Lexes L _ _ := lexes_function.append (lexes_string text)
  have hback : Lexes L " \x7d" _ := (mark_blank.append mark_rbrace.lexes).lexes
  have hfunction := (hfront.append mark_semi.lexes).append hback
  rw [htext]
  have hspells := (hus.mark mark_assign).spells hfunction.toSpells
  simpa [functionTokens] using hspells

/-! ## Statements -/

/-- The text of lines. -/
def lineText (lines : List String) : String := String.join (lines.map (· ++ "\n"))

theorem lineText_append (lines lines' : List String) :
    lineText (lines ++ lines') = lineText lines ++ lineText lines' := by
  rw [lineText, List.map_append, String.join_append, lineText, lineText]

theorem lineText_singleton (line : String) : lineText [line] = line ++ "\n" := by
  rw [lineText, List.map_singleton, String.join_cons, String.join_nil, String.append_empty]

/-- That lines are read as statements, whatever statements follow. -/
def PrintedLines (L : Letters) (lines : List String) (ss : List Stmt) : Prop :=
  ∃ us, Lexes L (lineText lines) us ∧ ∀ vs ss', Body L vs ss' → Body L (us ++ vs) (ss ++ ss')

namespace PrintedLines

variable {lines lines' : List String} {ss ss' : List Stmt}

theorem nil : PrintedLines L [] [] := ⟨[], Lexes.empty, fun _ _ h => h⟩

theorem append (h : PrintedLines L lines ss) (h' : PrintedLines L lines' ss') :
    PrintedLines L (lines ++ lines') (ss ++ ss') := by
  obtain ⟨us, hus, hbody⟩ := h
  obtain ⟨vs, hvs, hbody'⟩ := h'
  refine ⟨us ++ vs, ?_, fun ws ss'' hws => ?_⟩
  · rw [lineText_append]
    exact hus.append hvs
  · rw [List.append_assoc, List.append_assoc]
    exact hbody _ _ (hbody' _ _ hws)

/-- A statement, with the end of its last line. -/
theorem of_lexes {s : Stmt} (hus : Lexes L (lineText lines) (us ++ [.line]))
    (h : StmtPhrase L us s) : PrintedLines L lines [s] := by
  refine ⟨us ++ [.line], hus, fun vs ss hvs => ?_⟩
  rw [List.append_assoc]
  exact h.body hvs

/-- A statement on a line of its own. -/
theorem single {line : String} {s : Stmt} (hus : Spells L line us) (h : StmtPhrase L us s) :
    PrintedLines L [line] [s] := by
  refine of_lexes ?_ h
  rw [lineText_singleton]
  exact hus.mark mark_line

/-- The tokens of lines by themselves. -/
theorem body (h : PrintedLines L lines ss) : ∃ us, Lexes L (lineText lines) us ∧ Body L us ss := by
  obtain ⟨us, hus, hbody⟩ := h
  have hself := hbody [] [] body_nil
  rw [List.append_nil, List.append_nil] at hself
  exact ⟨us, hus, hself⟩

end PrintedLines

theorem lexes_pad (i : Nat) : Lexes L (pad i) [] := by
  induction i with
  | zero => exact Lexes.empty
  | succ i ih => exact (mark_blank.append mark_blank.lexes).lexes.append ih

/-- That statements are read as `ss`, at every indent. -/
def PrintedStmts (L : Letters) (stmts : List Script.Stmt) (ss : List Stmt) : Prop :=
  ∀ i, PrintedLines L (Script.stmtLines i stmts) ss

theorem stmtLines_append (i : Nat) (a b : List Script.Stmt) :
    Script.stmtLines i (a ++ b) = Script.stmtLines i a ++ Script.stmtLines i b := by
  induction a with
  | nil => rfl
  | cons s a ih => simp only [List.cons_append, Script.stmtLines, ih, List.append_assoc]

namespace PrintedStmts

variable {t : Script.Term} {e : Term}

theorem nil : PrintedStmts L [] [] := fun _ => PrintedLines.nil

theorem append {a b : List Script.Stmt} {ss ss' : List Stmt} (h : PrintedStmts L a ss)
    (h' : PrintedStmts L b ss') : PrintedStmts L (a ++ b) (ss ++ ss') := by
  intro i
  rw [stmtLines_append]
  exact (h i).append (h' i)

theorem term (h : Printed L 5 t e) : PrintedStmts L [.term t] [.term e] := by
  intro i
  obtain ⟨us, hus, hphrase⟩ := h i
  simp only [Script.stmtLines, Script.Stmt.lines, List.append_nil]
  refine PrintedLines.single ?_ hphrase.stmt
  exact (((lexes_pad i).spells hus).mark mark_semi).toSpells

theorem ret (h : Printed L 5 t e) (explicit : Bool) :
    PrintedStmts L [.ret t explicit] [.ret e] := by
  intro i
  obtain ⟨us, hus, hphrase⟩ := h i
  simp only [Script.stmtLines, Script.Stmt.lines, List.append_nil]
  have hword : Spells L "return" [.word "return"] := spells_word (isName_ascii (by decide))
  have hreturn : Lexes L ("return" ++ " ") [.word "return"] := hword.mark mark_blank
  refine PrintedLines.single ?_ hphrase.ret
  exact ((((lexes_pad i).append hreturn).spells hus).mark mark_semi).toSpells

/-- The line that an `if` begins with. -/
theorem spells_if {i : Nat} (hus : Spells L (t.text i) us) :
    Spells L (pad i ++ "if (" ++ t.text i ++ ") \x7b") (ifTokens us) := by
  have hword : Spells L "if" [.word "if"] := spells_word (isName_ascii (by decide))
  have hopen : Lexes L ("if" ++ (" " ++ "(")) ([.word "if"] ++ ([] ++ [.lparen])) :=
    hword.mark (mark_blank.append mark_lparen.lexes)
  have hclose : Mark L (")" ++ (" " ++ "\x7b")) [.rparen, .lbrace] :=
    mark_rparen.append (mark_blank.append mark_lbrace.lexes).lexes
  have hline := (((lexes_pad i).append hopen).spells hus).mark hclose
  simpa [ifTokens] using hline.toSpells

/-- The line that closes a branch, or that stands between two. -/
theorem lexes_close (i : Nat) : Lexes L (lineText [pad i ++ "\x7d"]) [.rbrace, .line] := by
  rw [lineText_singleton]
  exact ((lexes_pad i).append mark_rbrace.lexes).append mark_line.lexes

theorem lexes_else (i : Nat) : Lexes L (lineText [pad i ++ "\x7d else \x7b"])
    [.rbrace, .word "else", .lbrace, .line] := by
  have hword : Spells L "else" [.word "else"] := spells_word (isName_ascii (by decide))
  have hopen : Lexes L ("\x7d" ++ " ") [.rbrace] := (mark_rbrace.append mark_blank.lexes).lexes
  have hbrace : Mark L (" " ++ "\x7b") [.lbrace] := mark_blank.append mark_lbrace.lexes
  rw [lineText_singleton]
  exact ((lexes_pad i).append ((hopen.spells hword).mark hbrace)).append mark_line.lexes

theorem onlyIf {a : List Script.Stmt} {yes : List Stmt} (h : Printed L 5 t e)
    (hyes : PrintedStmts L a yes) :
    PrintedStmts L [.branches [(t, a)] none] [.ifElse e yes []] := by
  intro i
  obtain ⟨us, hus, hphrase⟩ := h i
  obtain ⟨vs, hvs, hbody⟩ := (hyes (i + 1)).body
  refine PrintedLines.of_lexes ?_ (hphrase.onlyIf hbody)
  have hlines : Script.stmtLines i [.branches [(t, a)] none] =
      [pad i ++ "if (" ++ t.text i ++ ") \x7b"] ++ Script.stmtLines (i + 1) a ++
        [pad i ++ "\x7d"] := by
    simp [Script.stmtLines, Script.Stmt.lines, Script.testLines, Script.blockLines]
  rw [hlines, lineText_append, lineText_append, lineText_singleton]
  have hlexes := (((spells_if hus).mark mark_line).append hvs).append (lexes_close i)
  simpa using hlexes

theorem ifElse {a b : List Script.Stmt} {yes no : List Stmt} (h : Printed L 5 t e)
    (hyes : PrintedStmts L a yes) (hno : PrintedStmts L b no) :
    PrintedStmts L [.branches [(t, a)] (some b)] [.ifElse e yes no] := by
  intro i
  obtain ⟨us, hus, hphrase⟩ := h i
  obtain ⟨vs, hvs, hbody⟩ := (hyes (i + 1)).body
  obtain ⟨ws, hws, hbody'⟩ := (hno (i + 1)).body
  refine PrintedLines.of_lexes ?_ (hphrase.ifElse hbody hbody')
  have hlines : Script.stmtLines i [.branches [(t, a)] (some b)] =
      [pad i ++ "if (" ++ t.text i ++ ") \x7b"] ++ Script.stmtLines (i + 1) a ++
        [pad i ++ "\x7d else \x7b"] ++ Script.stmtLines (i + 1) b ++ [pad i ++ "\x7d"] := by
    simp [Script.stmtLines, Script.Stmt.lines, Script.testLines, Script.blockLines]
  rw [hlines, lineText_append, lineText_append, lineText_append, lineText_append,
    lineText_singleton]
  have hlexes := (((((spells_if hus).mark mark_line).append hvs).append (lexes_else i)).append
    hws).append (lexes_close i)
  simpa using hlexes

end PrintedStmts

/-! ## Declarations -/

/-- That a text is read as an item of a declaration. -/
def PrintedItem (L : Letters) (text : String) (item : String × Option Term) : Prop :=
  ∃ us, Spells L text us ∧ ItemPhrase L us item

theorem printedItem_name (h : L.isVariable x = true) : PrintedItem L x (x, none) :=
  ⟨_, spells_word (isName_of_isVariable h), item_name h⟩

theorem printedItem_value (h : L.isVariable x = true) {t : Script.Term} {e : Term}
    (he : Printed L 4 t e) (i : Nat) : PrintedItem L (x ++ " = " ++ t.text i) (x, some e) := by
  obtain ⟨us, hus, hphrase⟩ := he i
  refine ⟨_, ?_, item_value h hphrase⟩
  exact ((spells_word (isName_of_isVariable h)).mark mark_assign).spells hus

/-- Items with commas between them, up to the semicolon. -/
theorem lexes_items {text : String} {texts : List String} {items : List (String × Option Term)}
    (h : List.Forall₂ (PrintedItem L) (text :: texts) items) :
    ∃ us, Lexes L (Script.commas (text :: texts) ++ ";") us ∧ ∀ rest m, 8 * us.length + 6 ≤ m →
      declaration L m (us ++ rest) = some (items, rest) := by
  induction texts generalizing text items with
  | nil =>
      obtain ⟨item, _, ⟨us, hus, hitem⟩, hnil, rfl⟩ := List.forall₂_cons_left_iff.mp h
      rw [List.forall₂_nil_left_iff.mp hnil]
      refine ⟨us ++ [.semi], hus.mark mark_semi, fun rest m hm => ?_⟩
      rw [List.length_append, List.length_singleton] at hm
      rw [List.append_assoc]
      exact hitem.last rest m (by omega)
  | cons next texts ih =>
      obtain ⟨item, items, ⟨us, hus, hitem⟩, hothers, rfl⟩ := List.forall₂_cons_left_iff.mp h
      obtain ⟨vs, hvs, hreads⟩ := ih hothers
      refine ⟨us ++ [.comma] ++ vs, ?_, fun rest m hm => ?_⟩
      · rw [Script.commas, String.intercalate_cons_cons, String.append_assoc]
        exact (hus.mark mark_comma).append hvs
      · rw [List.length_append, List.length_append, List.length_singleton] at hm
        cases m with
        | zero => omega
        | succ m =>
            rw [List.append_assoc, List.append_assoc]
            exact hitem.more _ _ _ m (by omega) (hreads rest m (by omega))

/-- A declaration on a line of its own. -/
theorem printed_var {text : String} {texts : List String} {items : List (String × Option Term)}
    (h : List.Forall₂ (PrintedItem L) (text :: texts) items) (i : Nat) :
    PrintedLines L [pad i ++ ("var " ++ Script.commas (text :: texts) ++ ";")] [.var items] := by
  obtain ⟨us, hus, hreads⟩ := lexes_items h
  have hword : Spells L "var" [.word "var"] := spells_word (isName_ascii (by decide))
  have hvar : Lexes L ("var" ++ " ") [.word "var"] := hword.mark mark_blank
  refine PrintedLines.single ?_ (stmt_var hreads)
  rw [String.append_assoc]
  exact ((lexes_pad i).append (hvar.append hus)).toSpells

theorem PrintedStmts.var {x : Name} (hx : L.isVariable x.text = true) {t : Script.Term} {e : Term}
    (h : Printed L 4 t e) : PrintedStmts L [.var x t] [.var [(x.text, some e)]] := by
  intro i
  have hline : Script.stmtLines i [.var x t] =
      [pad i ++ ("var " ++ Script.commas [x.text ++ " = " ++ t.text i] ++ ";")] := by
    simp only [Script.stmtLines, Script.Stmt.lines, Script.commas, String.intercalate_singleton,
      List.append_nil, String.append_assoc]
  rw [hline]
  exact printed_var (.cons (printedItem_value hx h i) .nil) i

/-! ## Texts -/

theorem PrintedLines.read {lines : List String} {ss : List Stmt} (h : PrintedLines L lines ss) :
    read L (lineText lines) = some ss := by
  obtain ⟨us, hus, hbody⟩ := h.body
  have hlex : lex L .code (lineText lines).toList = us := by
    simpa [lex] using hus []
  have hstmts : stmts L (8 * us.length + 8) us = some (ss, []) := by
    simpa using hbody [] (Or.inl rfl) _ (Nat.le_refl _)
  simp only [JavaScript.read, hlex, hstmts]

end RubyJs.JavaScript
