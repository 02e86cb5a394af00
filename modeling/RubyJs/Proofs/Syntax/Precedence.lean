import RubyJs.Proofs.Syntax.Single
import RubyJs.Proofs.Token.Chains

set_option autoImplicit false

/-! # How operators group

A chain is a sequence of integers with binary operators between them. It is read as the tree whose
leaves and nodes from left to right are the chain, and which is grouped as the operators bind: of
two operators that bind alike the left one is done first, except for `**`, where the right one is.

    1 - 2 - 3 * 4 ** 5 ** 6        (1 - 2) - (3 * (4 ** (5 ** 6)))

Reading climbs: the rule for chains is given a level, takes the operators of that level or a higher
one, and reads what stands to the right of an operator by itself, one level up. What it hands back
(`binary_chain`) is a grouped tree whose root binds at that level at least, before an operator that
binds looser.
-/

namespace RubyJs

open Reading Grammar

/-! ## Operators and chains -/

namespace Operator

/-- How tightly an operator binds. -/
def level : Operator → Nat
  | or => 0
  | and => 1
  | cmp | eq | eqq | notEq | isMatch | noMatch => 2
  | lt | le | gt | ge => 3
  | pipe | caret => 4
  | amp => 5
  | shl | shr => 6
  | plus | minus => 7
  | times | divided | modulo => 8
  | power => 9

/-- The tree of an operator between two trees: two of them are not calls, and one is the negation of
another. -/
def tree (left right : Expr) : Operator → Expr
  | or => .or left right
  | and => .and left right
  | noMatch => .not (.call { recv := some left, name := "=~", args := [right] })
  | o => .call { recv := some left, name := o.text, args := [right] }

theorem level_lt_iff (o : Operator) : o.level < 9 ↔ o ≠ power := by cases o <;> decide

theorem binaryOperator?_kind (o : Operator) (h : o ≠ power) :
    binaryOperator? o.kind = some (o.level, o.text) := by
  cases o
  case power => exact absurd rfl h
  all_goals rfl

theorem kind_ne_pow (o : Operator) (h : o ≠ power) : o.kind ≠ .pow := by
  cases o
  case power => exact absurd rfl h
  all_goals simp [kind]

theorem combine_text (o : Operator) (left right : Expr) :
    combine o.text left right = o.tree left right := by
  cases o <;> rfl

theorem endsOperand_kind (o : Operator) : EndsOperand o.kind := by
  cases o <;> simp [EndsOperand, kind]

end Operator

/-- The tree of a chain. -/
inductive OperatorTree where
  | operand (text : String)
  | node (op : Operator) (left right : OperatorTree)
deriving DecidableEq, Repr

namespace OperatorTree

/-- The tree as it is parsed. -/
def expr : OperatorTree → Expr
  | operand t => .int t
  | node o l r => o.tree l.expr r.expr

/-- The first operand from the left. -/
def first : OperatorTree → String
  | operand t => t
  | node _ l _ => l.first

/-- The operators behind it from left to right, each with the operand to its right. -/
def rest : OperatorTree → List (Operator × String)
  | operand _ => []
  | node o l r => l.rest ++ (o, r.first) :: r.rest

/-- How tightly the root binds: an operand binds tighter than any operator. -/
def strength : OperatorTree → Nat
  | operand _ => 10
  | node o _ _ => o.level

/-- That a tree is grouped as its operators bind. To the left of an operator stands what binds at
least as tightly, and to its right what binds tighter; with `**` it is the other way round. -/
def Grouped : OperatorTree → Prop
  | operand _ => True
  | node o l r =>
    (if o = .power then o.level < l.strength ∧ o.level ≤ r.strength
      else o.level ≤ l.strength ∧ o.level < r.strength)
      ∧ l.Grouped ∧ r.Grouped

/-- That a tree is one of the chain of `first` and `rest`, grouped as its operators bind. -/
structure Groups (tree : OperatorTree) (first : String) (rest : List (Operator × String)) :
    Prop where
  first_eq : tree.first = first
  rest_eq : tree.rest = rest
  grouped : tree.Grouped

variable {tree other left right left' right' : OperatorTree} {o o' : Operator}

/-- In a grouped tree no operator binds looser than the root. -/
theorem strength_le_of_mem (h : tree.Grouped) {p : Operator × String} (hp : p ∈ tree.rest) :
    tree.strength ≤ p.1.level := by
  induction tree with
  | operand t => cases hp
  | node o l r ihl ihr =>
      obtain ⟨hroot, hl, hr⟩ := h
      have hle : o.level ≤ l.strength ∧ o.level ≤ r.strength := by
        split at hroot <;> omega
      rcases List.mem_append.mp hp with hp | hp
      · exact Nat.le_trans hle.1 (ihl hl hp)
      · rcases List.mem_cons.mp hp with rfl | hp
        · exact Nat.le_refl _
        · exact Nat.le_trans hle.2 (ihr hr hp)

/-- The root of a grouped tree does not stand to the left of that of another one: each of them would
be an operator in a part of the other tree, and so bind tighter than itself. -/
theorem Grouped.not_before (h : (node o left right).Grouped) (h' : (node o' left' right').Grouped)
    {x x' : String} (hleft : (o, x) ∈ left'.rest) (hright : (o', x') ∈ right.rest) : False := by
  have hlow : left'.strength ≤ o.level := strength_le_of_mem h'.2.1 hleft
  have hhigh : right.strength ≤ o'.level := strength_le_of_mem h.2.2 hright
  have hroot := h.1
  have hroot' := h'.1
  by_cases ho : o = .power
  · by_cases ho' : o' = .power
    · rw [if_pos ho'] at hroot'
      rw [ho] at hlow
      rw [ho'] at hroot'
      omega
    · have hlt : o'.level < 9 := o'.level_lt_iff.mpr ho'
      have hnine : o.level = 9 := by rw [ho]; rfl
      rw [if_pos ho] at hroot
      omega
  · rw [if_neg ho] at hroot
    split at hroot' <;> omega

/-- Two grouped trees of one chain are cut at the same operator. -/
theorem Grouped.root_eq (h : (node o left right).Grouped) (h' : (node o' left' right').Grouped)
    (heq : (node o left right).rest = (node o' left' right').rest) :
    left.rest = left'.rest ∧ o = o' ∧ right.first = right'.first ∧ right.rest = right'.rest := by
  rcases List.append_eq_append_iff.mp heq with ⟨w, hleft, hright⟩ | ⟨w, hleft, hright⟩
  · cases w with
    | nil => simp_all
    | cons p w =>
        obtain ⟨rfl, hrest⟩ := List.cons.inj hright
        have hmem : (o, right.first) ∈ left'.rest := by simp [hleft]
        have hmem' : (o', right'.first) ∈ right.rest := by rw [hrest]; simp
        exact (h.not_before h' hmem hmem').elim
  · cases w with
    | nil => simp_all
    | cons p w =>
        obtain ⟨rfl, hrest⟩ := List.cons.inj hright
        have hmem : (o', right'.first) ∈ left.rest := by simp [hleft]
        have hmem' : (o, right.first) ∈ right'.rest := by rw [hrest]; simp
        exact (h'.not_before h hmem hmem').elim

/-- A chain has one grouped tree at most. -/
theorem Groups.unique {first : String} {rest : List (Operator × String)}
    (h : tree.Groups first rest) (h' : other.Groups first rest) : tree = other := by
  induction tree generalizing other first rest with
  | operand t =>
      have hrest := h'.rest_eq.trans h.rest_eq.symm
      cases other with
      | operand t' => rw [show t = t' from h.first_eq.trans h'.first_eq.symm]
      | node o' l' r' => simp [OperatorTree.rest] at hrest
  | node o l r ihl ihr =>
      have hrest := h'.rest_eq.trans h.rest_eq.symm
      cases other with
      | operand t' => simp [OperatorTree.rest] at hrest
      | node o' l' r' =>
          obtain ⟨hl, rfl, hfirst, hr⟩ := h'.grouped.root_eq h.grouped hrest
          have hleft : l = l' :=
            ihl ⟨h.first_eq, rfl, h.grouped.2.1⟩ ⟨h'.first_eq, hl, h'.grouped.2.1⟩
          have hright : r = r' := ihr ⟨rfl, rfl, h.grouped.2.2⟩ ⟨hfirst, hr, h'.grouped.2.2⟩
          rw [hleft, hright]

end OperatorTree

theorem length_tailKinds (rest : List (Operator × String)) :
    (tailKinds rest).length = 2 * rest.length := by
  induction rest with
  | nil => rfl
  | cons p rest ih =>
      simp only [tailKinds, List.length_cons, ih]
      omega

/-! ## Reading a chain -/

/-- That no operator of `level` or a higher one comes first in `rest`. -/
def Looser (level : Nat) (rest : List (Operator × String)) : Prop :=
  ∀ p ∈ rest.head?, p.1.level < level

/-- That reading the chain of `first` and `rest` by `m` from `s` gives a grouped tree whose root
binds at `level` at least, and stops before an operator that binds looser. -/
def Climbs (m : Reading Expr) (s : ReadState) (level : Nat) (first : String)
    (rest : List (Operator × String)) : Prop :=
  ∃ (tree : OperatorTree) (after : List (Operator × String)) (t : ReadState),
    m s = .ok (tree.expr, t) ∧ t.Ahead (tailKinds after ++ [.eof])
      ∧ tree.first = first ∧ tree.rest ++ after = rest
      ∧ tree.Grouped ∧ level ≤ tree.strength ∧ Looser level after

theorem Climbs.of_run_eq {m m' : Reading Expr} {s s' : ReadState} {level : Nat} {first : String}
    {rest : List (Operator × String)} (h : Climbs m' s' level first rest) (heq : m s = m' s') :
    Climbs m s level first rest := by
  unfold Climbs
  rw [heq]
  exact h

namespace Grammar

variable {file text : String} {n level : Nat} {r : Rules} {s : ReadState} {first : String}
  {rest : List (Operator × String)} {k : TokenKind} {ks : List TokenKind}

theorem unary_of_int (hs : s.Ahead (.int first :: k :: ks)) (hk : EndsOperand k) :
    ∃ t, unary r s = power r (.int first) t ∧ t.Ahead (k :: ks) := by
  obtain ⟨t, hadvance, ht⟩ := hs.advance
  have hprimary : primary r s = .ok (.int first, t) := by
    have htoken : currentToken s = .ok (s.tokens.current, s) := rfl
    unfold primary primary.taken
    rw [run_bind_of_ok htoken, run_bind_of_ok hs.peek]
    exact run_bind_of_ok hadvance
  refine ⟨t, ?_, ht⟩
  unfold unary
  rw [run_bind_of_ok hs.peek]
  show (primary r >>= _) s = _
  rw [run_bind_of_ok hprimary, run_bind_of_ok (trailers_of_ahead ht hk)]

/-- An operand takes all powers that follow. -/
theorem unary_chain (hs : s.Ahead (chainKinds first rest ++ [.eof])) (hn : rest.length ≤ n) :
    Climbs (unary (Rules.level file text n)) s 9 first rest := by
  induction rest generalizing s first n with
  | nil =>
      obtain ⟨t, hread, ht⟩ :=
        unary_of_int (r := Rules.level file text n) hs (by simp [EndsOperand])
      refine ⟨.operand first, [], t, ?_, ht, rfl, rfl, trivial, Nat.le_succ 9, by simp [Looser]⟩
      rw [hread]
      exact power_of_ahead ht (by simp)
  | cons p rest ih =>
      obtain ⟨o, x⟩ := p
      obtain ⟨t, hread, ht⟩ := unary_of_int (r := Rules.level file text n) hs o.endsOperand_kind
      -- the exponent is an operand again, so powers nest to the right
      by_cases ho : o = .power
      · subst ho
        obtain ⟨n, rfl⟩ : ∃ m, n = m + 1 := ⟨n - 1, by simp at hn; omega⟩
        obtain ⟨u, (heat : eat .pow t = _), hu⟩ := ht.eat
        obtain ⟨right, after, v, hright, hv, hfirst, hrest, hgrouped, hstrength, hlooser⟩ :=
          ih hu (Nat.le_of_succ_le_succ hn)
        refine ⟨.node .power (.operand first) right, after, v, ?_, hv, rfl, ?_, ?_, ?_, hlooser⟩
        · rw [hread]
          unfold power
          rw [run_bind_of_ok heat]
          exact run_bind_of_ok hright
        · simp [OperatorTree.rest, hfirst, hrest]
        · exact ⟨⟨Nat.lt_succ_self 9, hstrength⟩, trivial, hgrouped⟩
        · exact Nat.le_refl 9
      · refine ⟨.operand first, (o, x) :: rest, t, ?_, ht, rfl, rfl, trivial, Nat.le_succ 9, ?_⟩
        · rw [hread]
          exact power_of_ahead ht (o.kind_ne_pow ho)
        · simpa [Looser] using o.level_lt_iff.mpr ho

/-- One turn of the reading of a chain, with what has been read of it. -/
def chainTurn (r : Rules) (level : Nat) (left : Expr) : Reading (Step Expr Expr) := do
  match binaryOperator? (← peek) with
  | none => return .done left
  | some (opLevel, op) =>
    if opLevel < level then return .done left
    let _ ← advance
    skipNewlines
    let right ← r.binary (opLevel + 1)
    return .again (combine op left right)

theorem binary_eq (r : Rules) (level : Nat) :
    binary r level = (unary r >>= fun first => repeatFrom first (chainTurn r level)) := rfl

theorem chainTurn_of_looser {left : Expr} (hs : s.Ahead (tailKinds rest ++ [.eof]))
    (hrest : Looser level rest) (hpower : ∀ p ∈ rest.head?, p.1 ≠ .power) :
    chainTurn r level left s = .ok (.done left, s) := by
  unfold chainTurn
  cases rest with
  | nil => exact run_bind_of_ok hs.peek
  | cons p rest =>
      have hlt : p.1.level < level := hrest p rfl
      rw [run_bind_of_ok (ReadState.Ahead.peek hs), p.1.binaryOperator?_kind (hpower p rfl)]
      simp only [if_pos hlt]
      rfl

theorem chainTurn_of_tighter (left : Expr) {o : Operator} {x : String}
    (hs : s.Ahead (o.kind :: .int x :: ks)) (ho : o ≠ .power) (hlevel : level ≤ o.level) :
    ∃ t, t.Ahead (.int x :: ks) ∧ ∀ {right u}, r.binary (o.level + 1) t = .ok (right, u) →
      chainTurn r level left s = .ok (.again (o.tree left right), u) := by
  obtain ⟨t, hadvance, ht⟩ := hs.advance
  refine ⟨t, ht, ?_⟩
  intro right u hright
  unfold chainTurn
  rw [run_bind_of_ok hs.peek, o.binaryOperator?_kind ho]
  simp only [if_neg (Nat.not_lt.mpr hlevel)]
  rw [run_bind_of_ok hadvance, run_bind_of_ok (skipNewlines_of ht (by simp)), run_bind_of_ok hright,
    o.combine_text]
  rfl

/-- A chain goes on from a grouped tree, if the operator that follows binds no tighter than its
root. The operand to the right of an operator is read one level up. -/
theorem iterate_chain {m : Nat} {left : OperatorTree}
    (hright : ∀ {level s first rest}, s.Ahead (chainKinds first rest ++ [.eof]) → rest.length < n →
      level ≤ 9 → Climbs (r.binary level) s level first rest)
    (hs : s.Ahead (tailKinds rest ++ [.eof])) (hn : rest.length ≤ n) (hm : rest.length < m)
    (hleft : left.Grouped) (hlevel : level ≤ left.strength)
    (hnext : ∀ p ∈ rest.head?, p.1 ≠ .power ∧ p.1.level ≤ left.strength) :
    Climbs (iterate (chainTurn r level) m left.expr) s level left.first (left.rest ++ rest) := by
  -- by induction on the turns that are left: after each, the tree that was read is grouped, and
  -- its root binds no looser than what follows
  induction m generalizing s left rest with
  | zero => omega
  | succ m ih =>
      by_cases hlooser : Looser level rest
      · refine ⟨left, rest, s, ?_, hs, rfl, rfl, hleft, hlevel, hlooser⟩
        exact Steady.iterate_done (chainTurn_of_looser hs hlooser fun p hp => (hnext p hp).1)
      · cases rest with
        | nil => exact absurd (by simp [Looser]) hlooser
        | cons p rest =>
            obtain ⟨o, x⟩ := p
            have hle : level ≤ o.level := by simpa [Looser] using hlooser
            obtain ⟨ho, hstrength⟩ := hnext (o, x) rfl
            obtain ⟨t, ht, hturn⟩ := chainTurn_of_tighter left.expr hs ho hle
            obtain ⟨right, after, u, hread, hu, rfl, rfl, hgrouped, htight, hafter⟩ :=
              hright ht hn (o.level_lt_iff.mpr ho)
            have hnode : (OperatorTree.node o left right).Grouped := by
              refine ⟨?_, hleft, hgrouped⟩
              rw [if_neg ho]
              exact ⟨hstrength, htight⟩
            have hlength : after.length ≤ (right.rest ++ after).length := by simp
            have hgo := ih hu (Nat.le_trans hlength (Nat.le_of_lt hn))
              (Nat.lt_of_le_of_lt hlength (Nat.lt_of_succ_lt_succ hm)) hnode hle ?_
            · simpa [OperatorTree.first, OperatorTree.rest] using
                hgo.of_run_eq (Steady.iterate_again (hturn hread))
            · -- what follows binds no tighter than `o`, so it is no power
              intro p hp
              have hlt : p.1.level ≤ o.level := Nat.le_of_lt_succ (hafter p hp)
              exact ⟨p.1.level_lt_iff.mp (Nat.lt_of_le_of_lt hlt (o.level_lt_iff.mpr ho)), hlt⟩

theorem binary_of_right
    (hright : ∀ {level s first rest}, s.Ahead (chainKinds first rest ++ [.eof]) → rest.length < n →
      level ≤ 9 → Climbs ((Rules.level file text n).binary level) s level first rest)
    (hs : s.Ahead (chainKinds first rest ++ [.eof])) (hn : rest.length ≤ n) (hlevel : level ≤ 9) :
    Climbs (binary (Rules.level file text n) level) s level first rest := by
  have hfirst : Climbs (unary (Rules.level file text n)) s 9 first rest := unary_chain hs hn
  obtain ⟨left, after, t, hunary, ht, rfl, rfl, hgrouped, hstrength, hlooser⟩ := hfirst
  have hlength : after.length < t.tokens.length + 1 := by
    rw [ht.length, List.length_append, length_tailKinds]
    omega
  have hgo : Climbs (iterate (chainTurn (Rules.level file text n) level) (t.tokens.length + 1)
      left.expr) t level left.first (left.rest ++ after) := by
    refine iterate_chain hright ht ?_ hlength hgrouped (Nat.le_trans hlevel hstrength) ?_
    · rw [List.length_append] at hn
      omega
    · intro p hp
      have hlt : p.1.level < 9 := hlooser p hp
      exact ⟨p.1.level_lt_iff.mp hlt, Nat.le_of_lt (Nat.lt_of_lt_of_le hlt hstrength)⟩
  refine hgo.of_run_eq ?_
  rw [binary_eq, run_bind_of_ok hunary]
  rfl

/-- A chain is read as a grouped tree, up to an operator that binds looser than the level. -/
theorem binary_chain (hs : s.Ahead (chainKinds first rest ++ [.eof])) (hn : rest.length ≤ n)
    (hlevel : level ≤ 9) : Climbs (binary (Rules.level file text n) level) s level first rest := by
  induction n generalizing s level first rest with
  | zero => exact binary_of_right (fun _ hlt => absurd hlt (Nat.not_lt_zero _)) hs hn hlevel
  | succ n ih => exact binary_of_right (fun hs hlt => ih hs (Nat.le_of_lt_succ hlt)) hs hn hlevel

end Grammar

theorem length_written_le {text : String} {l : Lexed} (h : lex text = .ok l) :
    l.written.length ≤ text.utf8ByteSize := by
  have hplaced := Lexer.lex_placed h
  obtain ⟨t, ht⟩ : ∃ t, l.tokens[0]? = some t := by
    rw [hplaced.tokens_eq]
    cases l.written <;> simp
  have hlast := hplaced.getElem?_last
  rw [← Nat.zero_add l.written.length] at hlast
  have hle := hplaced.start_add_le ht hlast
  rw [utf8ByteSize_eq_byteSize]
  dsimp only at hle
  omega

/-- A text whose tokens are a chain is read as a grouped tree of that chain. -/
theorem parse_of_chainKinds (file : String) {text : String} {l : Lexed} {first : String}
    {rest : List (Operator × String)} (hlex : lex text = .ok l)
    (hkinds : l.written.map Token.kind = chainKinds first rest) :
    ∃ tree : OperatorTree, tree.Groups first rest
      ∧ parse file text = .ok ⟨[tree.expr], l.endData⟩ := by
  have hs := ReadState.ahead_ofLexed l [⟨[], false⟩] 0
  rw [hkinds] at hs
  have hlength : rest.length ≤ text.utf8ByteSize + 1 := by
    have hle := length_written_le hlex
    rw [← List.length_map Token.kind, hkinds, chainKinds, List.length_cons, length_tailKinds] at hle
    omega
  obtain ⟨tree, after, t, hread, ht, hfirst, hrest, hgrouped, -, hlooser⟩ :
      Climbs (binary (Rules.level file text (text.utf8ByteSize + 1)) 0) _ 0 first rest :=
    binary_chain hs hlength (Nat.zero_le 9)
  -- no operator binds looser than level 0, so the whole chain has been read
  have hafter : after = [] := by
    cases after with
    | nil => rfl
    | cons p after => exact absurd (hlooser p rfl) (Nat.not_lt_zero _)
  subst hafter
  rw [List.append_nil] at hrest
  exact ⟨tree, ⟨hfirst, hrest, hgrouped⟩, parse_of_binary hlex hkinds ⟨rfl, rfl, by simp⟩ hread ht⟩

/-- **Every chain is read as its grouped tree**, whatever its operands, its operators and their
order are. That is so for any text with these tokens, and for every text with any number of blanks
around the operators. There is only one grouped tree for a chain. -/
theorem chain_parses_grouped (file first : String) (rest : List (Operator × String)) :
    (∀ text l, lex text = .ok l → l.written.map Token.kind = chainKinds first rest →
      ∃ tree : OperatorTree, tree.Groups first rest
        ∧ parse file text = .ok ⟨[tree.expr], l.endData⟩)
      ∧ (∀ text, Spelled first rest text →
        ∃ tree : OperatorTree, tree.Groups first rest ∧ parse file text = .ok ⟨[tree.expr], none⟩)
      ∧ ∀ tree tree' : OperatorTree, tree.Groups first rest → tree'.Groups first rest →
        tree = tree' := by
  refine ⟨fun text l => parse_of_chainKinds file, ?_, fun _ _ h h' => h.unique h'⟩
  intro text hspelled
  obtain ⟨l, hlex, hkinds, hdata⟩ := hspelled.lex_eq
  rw [← hdata]
  exact parse_of_chainKinds file hlex hkinds

/-- A chain with operators of four levels, in which two that bind alike follow each other. -/
theorem chain_parses_grouped_mixed :
    parse "a.rb" "1-2 - 0x3*4 ** 5**6 !~ 7"
      = .ok ⟨[.not (send (send (send (.int "1") "-" [.int "2"]) "-"
        [send (.int "0x3") "*" [send (.int "4") "**" [send (.int "5") "**" [.int "6"]]]])
        "=~" [.int "7"])], none⟩ := by
  have hspelled : Spelled "1" [(.minus, "2"), (.minus, "0x3"), (.times, "4"), (.power, "5"),
      (.power, "6"), (.noMatch, "7")] "1-2 - 0x3*4 ** 5**6 !~ 7" :=
    ⟨by decide, _, .cons 0 0 (by decide) (.cons 1 1 (by decide) (.cons 0 0 (by decide)
      (.cons 1 1 (by decide) (.cons 0 0 (by decide) (.cons 1 1 (by decide) .nil))))), by decide⟩
  obtain ⟨tree, hgroups, hparse⟩ := (chain_parses_grouped "a.rb" _ _).2.1 _ hspelled
  have htree := (chain_parses_grouped "a.rb" _ _).2.2 tree
    (.node .noMatch (.node .minus (.node .minus (.operand "1") (.operand "2"))
      (.node .times (.operand "0x3")
        (.node .power (.operand "4") (.node .power (.operand "5") (.operand "6")))))
      (.operand "7")) hgroups
    ⟨rfl, rfl, by simp [OperatorTree.Grouped, OperatorTree.strength, Operator.level]⟩
  rw [hparse, htree]
  rfl

end RubyJs
