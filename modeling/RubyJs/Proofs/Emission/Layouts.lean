import Mathlib.Data.List.Forall2
import RubyJs.Proofs.Emission.UsedCode

set_option autoImplicit false

/-! # Operator assignment

`target op= value` both reads and writes its target, and with `||` and `&&` it is read twice in the
text. The parts of an attribute or of an index are kept in temporaries for that:

    f.a ||= v       ($t1 = self.$f(), (Opal.truthy($t1.$a()) ? $t1.$a() : $t1["$a="](v)))
    f[i] += v       ($t1 = self.$f(), $t2 = i, $t1["$[]="]($t2, $t1["$[]"]($t2)["$+"](v)))

A layout is such a text with places for the code of the parts. It is made from the kind of target
and the names in it alone (`Target.layout`), so the places are all the uses of that code. There is
one for each part, where it is assigned to its temporary. Only the scope of a constant has no
temporary, and its code is there two or three times (`opAssign_layout`).
-/

namespace RubyJs

open Script (Term)

variable {items : List (Nat × Term)} {u : UnitInfo}

/-! ## Layouts -/

/-- A piece of a layout. -/
inductive Chunk where
  | text (text : String)
  | temp (index : Nat)
  /-- The code of a part of the target. -/
  | code (part : Nat)
  /-- The code of the first part, generated anew. -/
  | again
  | value
deriving DecidableEq

namespace Chunk

/-- Whether the code of the part `i` stands here. -/
def isCode (i : Nat) : Chunk → Bool
  | code part => part == i
  | again => i == 0
  | _ => false

/-- Whether a chunk is the code of a part, or a temporary that is not one of `temps`. -/
def isLoose (temps : List Nat) : Chunk → Bool
  | temp k => k ∉ temps
  | code _ | again => true
  | _ => false

/-- The code that a layout is filled with. -/
structure Filling where
  codes : List Term
  again : Term
  value : Term

/-- The text of a chunk, filled with code in a line at `indent`. -/
def shown (indent : Nat) (f : Filling) : Chunk → String
  | text t => t
  | temp k => (Term.temp k).text indent
  | code i => (f.codes.getD i .nil).text indent
  | again => f.again.text indent
  | value => f.value.text indent

/-- Layouts with commas between them. -/
def commas : List (List Chunk) → List Chunk
  | [] => []
  | [cs] => cs
  | cs :: ds :: rest => cs ++ text ", " :: commas (ds :: rest)

end Chunk

/-- The text of a layout. -/
def shown (indent : Nat) (f : Chunk.Filling) : List Chunk → String
  | [] => ""
  | c :: cs => c.shown indent f ++ shown indent f cs

namespace Target

open Chunk
open Script (localName instanceProperty stringLiteral methodAccess)

variable {ε : Type}

/-- The expressions in a target. -/
def parts : Target ε → List ε
  | .const (.within e) _ => [e]
  | .attr e _ => [e]
  | .index e args => e :: args
  | _ => []

/-- Whether a target is a constant in a scope that is given. -/
def isScoped : Target ε → Bool
  | .const (.within _) _ => true
  | _ => false

/-- A call of a method of the first temporary. -/
def sent (temps : List Nat) (method : String) (args : List (List Chunk)) : List Chunk :=
  [temp (temps.headD 0), text (methodAccess method ++ "(")] ++ commas args ++ [text ")"]

/-- The declaration of a constant in a scope. -/
def declared (scope : List Chunk) (name : String) (inner : List Chunk) : List Chunk :=
  text "Opal.cdecl(" :: commas [scope, [text (stringLiteral name)], inner] ++ [text ")"]

/-- The places of the arguments of an index. -/
def indexed (temps : List Nat) : List (List Chunk) := temps.tail.map fun k => [temp k]

/-- How a target is read. -/
def reading (hasEndData : Bool) (temps : List Nat) : Target ε → List Chunk
  | .lvar x => [text (localName x)]
  | .ivar x =>
    let place := "self." ++ instanceProperty x
    [text ("(" ++ place ++ " == null ? nil : " ++ place ++ ")")]
  | .gvar x =>
    let place := "Opal.gvars[" ++ stringLiteral x ++ "]"
    [text ("(" ++ place ++ " == null ? nil : " ++ place ++ ")")]
  | .const .lexical x =>
    [text (if x == "DATA" && hasEndData then "$__END__"
      else "$scope.get(" ++ stringLiteral x ++ ")")]
  | .const .top x => [text ("Opal.Object.$$scope.get(" ++ stringLiteral x ++ ")")]
  | .const (.within _) x =>
    [text "Opal.const_get_qualified(", again, text (", " ++ stringLiteral x ++ ")")]
  | .attr _ x => sent temps x []
  | .index _ _ => sent temps "[]" (indexed temps)

/-- How `inner` is written to a target. -/
def writing (temps : List Nat) (inner : List Chunk) : Target ε → List Chunk
  | .lvar x => text (localName x ++ " = ") :: inner
  | .ivar x => text ("self." ++ instanceProperty x ++ " = ") :: inner
  | .gvar x => text ("Opal.gvars[" ++ stringLiteral x ++ "] = ") :: inner
  | .const .lexical x => declared [text "$scope"] x inner
  | .const .top x => declared [text "Opal.Object.$$scope"] x inner
  | .const (.within _) x => declared [code 0, text ".$$scope"] x inner
  | .attr _ x => sent temps (x ++ "=") [inner]
  | .index _ _ => sent temps "[]=" (indexed temps ++ [inner])

/-- How a target is read and written by an operator. -/
def updating (hasEndData : Bool) (op : String) (temps : List Nat) (target : Target ε) :
    List Chunk :=
  let read := target.reading hasEndData temps
  let tested := text "(" :: text "Opal.truthy(" :: read ++ [text ") ? "]
  if op == "||" then tested ++ read ++ text " : " :: target.writing temps [value] ++ [text ")"]
  else if op == "&&" then tested ++ target.writing temps [value] ++ text " : " :: read ++ [text ")"]
  else target.writing temps (read ++ [text (methodAccess op ++ "("), value, text ")"])

/-- The assignments of the parts, from the part `i` on, to temporaries. -/
def assignments (i : Nat) : List Nat → List (List Chunk)
  | [] => []
  | k :: ks => [temp k, text " = ", code i] :: assignments (i + 1) ks

/-- A layout after the assignments of the temporaries that it uses. -/
def settingUp (temps : List Nat) (body : List Chunk) : List Chunk :=
  if temps.isEmpty then body
  else text "(" :: commas (assignments 0 temps ++ [body]) ++ [text ")"]

/-- The layout of an operator assignment. -/
def layout (hasEndData : Bool) (op : String) (temps : List Nat) (target : Target ε) : List Chunk :=
  settingUp temps (target.updating hasEndData op temps)

/-- How often the code of a part is there. -/
def uses (op : String) (target : Target ε) : Nat :=
  if target.isScoped then if op == "||" || op == "&&" then 3 else 2 else 1

end Target

/-! ## Filling a layout -/

section Shown

variable {indent : Nat} {f : Chunk.Filling}

theorem shown_append (cs ds : List Chunk) :
    shown indent f (cs ++ ds) = shown indent f cs ++ shown indent f ds := by
  induction cs with
  | nil => exact (String.empty_append).symm
  | cons c cs ih => rw [List.cons_append, shown, shown, ih, String.append_assoc]

theorem shown_commas (layouts : List (List Chunk)) :
    shown indent f (Chunk.commas layouts) = Script.commas (layouts.map (shown indent f)) := by
  induction layouts with
  | nil => rfl
  | cons cs rest ih =>
      cases rest with
      | nil => exact (String.intercalate_singleton).symm
      | cons ds rest =>
          rw [Chunk.commas, shown_append, shown, ih]
          simp only [Script.commas, List.map_cons, String.intercalate_cons_cons, String.append_assoc]
          rfl

/-- Arguments are written as their layouts say. -/
theorem commas_termTexts {args : List Term} {layouts : List (List Chunk)}
    (h : args.map (Term.text indent) = layouts.map (shown indent f)) :
    Script.commas (Script.termTexts indent args) = shown indent f (Chunk.commas layouts) := by
  rw [Script.termTexts_eq_map, h, shown_commas]

theorem text_sent {args : List Term} {layouts : List (List Chunk)} (k : Nat) (ks : List Nat)
    (method : String) (h : args.map (Term.text indent) = layouts.map (shown indent f)) :
    (Term.call (.method (.temp k) method) args).text indent =
      shown indent f (Target.sent (k :: ks) method layouts) := by
  simp only [Target.sent, shown_append, ← commas_termTexts h, Term.text, shown, Chunk.shown,
    List.headD_cons, String.append_assoc, String.append_empty]

theorem text_declared {scope w : Term} {place inner : List Chunk} (name : String)
    (hs : scope.text indent = shown indent f place) (hw : w.text indent = shown indent f inner) :
    (Term.runtime "cdecl" [scope, .str name, w]).text indent =
      shown indent f (Target.declared place name inner) := by
  have h : [scope, .str name, w].map (Term.text indent) =
      [place, [.text (Script.stringLiteral name)], inner].map (shown indent f) := by
    simp [hs, hw, Term.text, shown, Chunk.shown]
  simp only [Term.runtime, Target.declared, shown_append, ← commas_termTexts h, Term.text, Term.opal,
    Term.own, Script.Name.text, shown, Chunk.shown, List.cons_append, String.append_assoc,
    String.append_empty]
  rfl

end Shown

/-- That `c` is generated for an expression, perhaps as a receiver. -/
def Emission.Codes (e : Emission) (c : Term) : Prop :=
  ∃ s s', e.value s = .ok (c, s') ∨ e.recv s = .ok (c, s')

/-- That a place is read and written as a layout says. -/
structure Emission.Place.Follows (p : Emission.Place) (read : Term) (hasEndData : Bool)
    (target : Target Expr) (temps : List Nat) (codes : List Term) (again : Term) : Prop where
  setup : p.setup = temps.zip codes
  reads : ∀ indent v, read.text indent =
    shown indent ⟨codes, again, v⟩ (target.reading hasEndData temps)
  writes : ∀ indent v w inner, w.text indent = shown indent ⟨codes, again, v⟩ inner →
    (p.write w).text indent = shown indent ⟨codes, again, v⟩ (target.writing temps inner)

/-- An argument of an index is generated, then its temporary, then the others. -/
theorem indexArguments_cons {e : Expr} {es : List Expr} {s s' : GenState}
    (h : Emission.indexArguments (emitAll u (e :: es)) s = .ok (items, s')) :
    ∃ c k rest s₁ s₂, (emit u e).value s = .ok (c, s₁) ∧ Gen.temp s₁ = .ok (k, s₂)
      ∧ Emission.indexArguments (emitAll u es) s₂ = .ok (rest, s') ∧ items = (k, c) :: rest := by
  rw [emitAll, Emission.indexArguments] at h
  cases hsplat : (emit u e).splat? with
  | some _ => rw [hsplat] at h; cases h
  | none =>
      rw [hsplat] at h
      obtain ⟨c, s₁, hc, h⟩ := run_bind_eq_ok h
      obtain ⟨k, s₂, hk, h⟩ := run_bind_eq_ok h
      obtain ⟨rest, _, hrest, h⟩ := run_bind_eq_ok h
      obtain ⟨rfl, rfl⟩ := run_ok_inj h
      exact ⟨c, k, rest, s₁, s₂, hc, hk, hrest, rfl⟩

theorem indexArguments_codes {args : List Expr} {s s' : GenState}
    (h : Emission.indexArguments (emitAll u args) s = .ok (items, s')) :
    List.Forall₂ (fun e => (emit u e).Codes) args (items.map Prod.snd) := by
  induction args generalizing s items with
  | nil =>
      obtain ⟨rfl, -⟩ := run_ok_inj h
      exact .nil
  | cons e es ih =>
      obtain ⟨c, k, rest, s₁, s₂, hc, -, hrest, rfl⟩ := indexArguments_cons h
      exact .cons ⟨_, _, .inl hc⟩ (ih hrest)

section Places

attribute [local simp] shown Chunk.shown Target.reading Target.writing Term.text Script.Name.text
  Term.user Term.own Term.orNil Term.self Term.scope Term.opal Term.nil Term.null Term.runtime
  Emission.instancePlace Emission.globalPlace Emission.globalScope Emission.globalObject
  Emission.endObject Script.commas Script.termTexts_eq_map String.append_assoc

/-- A place is read and written as its layout says, with the code of the parts of its target. -/
theorem place_follows (u : UnitInfo) {target : Target Expr} {s s₁ s₂ : GenState}
    {p : Emission.Place} {read : Term}
    (hplace : Emission.place u.hasEndData (emitTarget u target) s = .ok (p, s₁))
    (hread : p.read s₁ = .ok (read, s₂)) : ∃ temps codes again,
      p.Follows read u.hasEndData target temps codes again
      ∧ List.Forall₂ (fun e => (emit u e).Codes) target.parts codes
      ∧ if target.isScoped then temps = [] ∧ ∀ e ∈ target.parts, (emit u e).Codes again
        else temps.length = codes.length := by
  cases target
  case' lvar x => obtain ⟨_, _, -, hplace⟩ := run_bind_eq_ok hplace
  case lvar x | ivar x | gvar x =>
      obtain ⟨rfl, -⟩ := run_ok_inj hplace
      obtain ⟨rfl, -⟩ := run_ok_inj hread
      refine ⟨[], [], .nil, ⟨rfl, fun indent v => ?_, fun indent v w inner hw => ?_⟩, .nil, rfl⟩
      · simp
      · simp [hw]
  case const base x =>
      obtain ⟨scope, _, hscope, hplace⟩ := run_bind_eq_ok hplace
      obtain ⟨rfl, rfl⟩ := run_ok_inj hplace
      cases base with
      | lexical =>
          obtain ⟨rfl, -⟩ := run_ok_inj hscope
          refine ⟨[], [], .nil, ⟨rfl, fun indent v => ?_, fun indent v w inner hw => ?_⟩, .nil, rfl⟩
          · change Emission.constantValue _ .lexical x _ = _ at hread
            rw [Emission.constantValue] at hread
            split at hread <;> obtain ⟨rfl, -⟩ := run_ok_inj hread <;> simp [*]
          · exact text_declared x (by simp) hw
      | top =>
          obtain ⟨rfl, -⟩ := run_ok_inj hscope
          obtain ⟨rfl, -⟩ := run_ok_inj hread
          refine ⟨[], [], .nil, ⟨rfl, fun indent v => ?_, fun indent v w inner hw => ?_⟩, .nil, rfl⟩
          · simp
          · exact text_declared x (by simp) hw
      | within e =>
          obtain ⟨c, _, hc, hscope⟩ := run_bind_eq_ok hscope
          obtain ⟨rfl, -⟩ := run_ok_inj hscope
          obtain ⟨again, _, hagain, hread⟩ := run_bind_eq_ok hread
          obtain ⟨rfl, -⟩ := run_ok_inj hread
          refine ⟨[], [c], again, ⟨rfl, fun indent v => ?_, fun indent v w inner hw => ?_⟩,
            .cons ⟨_, _, .inr hc⟩ .nil, rfl, ?_⟩
          · simp
          · exact text_declared x (by simp) hw
          · exact List.forall_mem_singleton.mpr ⟨_, _, .inl hagain⟩
  case attr e x =>
      obtain ⟨c, _, hc, hplace⟩ := run_bind_eq_ok hplace
      obtain ⟨k, _, -, hplace⟩ := run_bind_eq_ok hplace
      obtain ⟨rfl, -⟩ := run_ok_inj hplace
      obtain ⟨rfl, -⟩ := run_ok_inj hread
      refine ⟨[k], [c], .nil, ⟨rfl, fun indent v => ?_, fun indent v w inner hw => ?_⟩,
        .cons ⟨_, _, .inr hc⟩ .nil, rfl⟩
      · exact text_sent k [] x rfl
      · exact text_sent k [] (x ++ "=") (congrArg (fun text => [text]) hw)
  case index e args =>
      obtain ⟨c, _, hc, hplace⟩ := run_bind_eq_ok hplace
      obtain ⟨k, _, -, hplace⟩ := run_bind_eq_ok hplace
      obtain ⟨items, _, hitems, hplace⟩ := run_bind_eq_ok hplace
      obtain ⟨rfl, -⟩ := run_ok_inj hplace
      obtain ⟨rfl, -⟩ := run_ok_inj hread
      refine ⟨k :: items.map Prod.fst, c :: items.map Prod.snd, .nil, ⟨?_, fun indent v => ?_,
        fun indent v w inner hw => ?_⟩, .cons ⟨_, _, .inr hc⟩ (indexArguments_codes hitems), ?_⟩
      · exact congrArg (_ :: ·) (List.zip_of_prod rfl rfl)
      · exact text_sent k _ "[]" (by simp [Target.indexed])
      · exact text_sent k _ "[]=" (by simp [Target.indexed, hw])
      · change List.length _ = List.length _
        simp

end Places

/-! ## Counting the places -/

namespace Target

open Chunk

variable {ε : Type} {p : Chunk → Bool} {temps : List Nat} {target : Target ε}

theorem countP_commas (htext : ∀ t, p (text t) = false) (layouts : List (List Chunk)) :
    (commas layouts).countP p = (layouts.map (List.countP p)).sum := by
  induction layouts with
  | nil => rfl
  | cons cs rest ih =>
      cases rest with
      | nil => simp [commas]
      | cons ds rest => simp [commas, htext, ih]

section Updating

variable (htext : ∀ t, p (text t) = false) (htemps : ∀ k ∈ temps, p (temp k) = false)

include htext htemps

theorem countP_sent (method : String) (args : List (List Chunk)) (hne : temps ≠ []) :
    (sent temps method args).countP p = (args.map (List.countP p)).sum := by
  obtain ⟨k, ks, rfl⟩ := List.exists_cons_of_ne_nil hne
  have hk := htemps k (List.mem_cons_self ..)
  simp [sent, countP_commas htext, htext, hk]

omit htext in
theorem countP_indexed : ((indexed temps).map (List.countP p)).sum = 0 := by
  rw [List.sum_eq_zero_iff_forall_eq_nat]
  intro n hn
  simp only [indexed, List.mem_map] at hn
  obtain ⟨_, ⟨k, hk, rfl⟩, rfl⟩ := hn
  simp [htemps k (List.mem_of_mem_tail hk)]

variable (hparts : target.isScoped = false → temps.length = target.parts.length)

include hparts

theorem countP_reading (hasEndData : Bool) :
    (target.reading hasEndData temps).countP p = if target.isScoped then (p again).toNat else 0 := by
  cases target with
  | lvar x | ivar x | gvar x => simp [reading, isScoped, htext]
  | const base x =>
      cases base <;> cases hp : p again <;> simp [reading, isScoped, htext, hp]
  | attr e x => exact countP_sent htext htemps x [] (List.ne_nil_of_length_eq_add_one (hparts rfl))
  | index e args =>
      rw [reading, countP_sent htext htemps _ _ (List.ne_nil_of_length_eq_add_one (hparts rfl)),
        countP_indexed htemps]
      rfl

theorem countP_writing (inner : List Chunk) : (target.writing temps inner).countP p =
    (if target.isScoped then (p (code 0)).toNat else 0) + inner.countP p := by
  cases target with
  | lvar x | ivar x | gvar x => simp [writing, isScoped, htext]
  | const base x =>
      cases base <;> cases hp : p (code 0) <;>
        simp [writing, declared, countP_commas htext, isScoped, htext, hp]
  | attr e x =>
      rw [writing, countP_sent htext htemps _ _ (List.ne_nil_of_length_eq_add_one (hparts rfl))]
      simp [isScoped]
  | index e args =>
      rw [writing, countP_sent htext htemps _ _ (List.ne_nil_of_length_eq_add_one (hparts rfl)),
        List.map_append, List.sum_append, countP_indexed htemps]
      simp [isScoped]

/-- The operators `||` and `&&` read the target twice. -/
theorem countP_updating (hvalue : p value = false) (hasEndData : Bool) (op : String) :
    (target.updating hasEndData op temps).countP p = if target.isScoped then
      (p (code 0)).toNat + (if op == "||" || op == "&&" then 2 else 1) * (p again).toNat else 0 := by
  have hread := countP_reading htext htemps hparts hasEndData
  have hwrite := fun inner => countP_writing htext htemps hparts inner
  rw [updating]
  cases hor : op == "||" <;> cases hand : op == "&&" <;>
    simp [htext, hread, hwrite, hvalue] <;> split <;> omega

end Updating

/-- The part `j` is assigned once, if it is one of those from `i` on. -/
theorem countP_assignments (i j : Nat) (temps : List Nat) :
    ((assignments i temps).map (List.countP (isCode j))).sum =
      if i ≤ j ∧ j < i + temps.length then 1 else 0 := by
  induction temps generalizing i with
  | nil => simp [assignments]
  | cons k ks ih =>
      have hhere : List.countP (isCode j) [temp k, text " = ", code i] = if i = j then 1 else 0 := by
        simp [List.countP_cons, isCode]
      rw [assignments, List.map_cons, List.sum_cons, ih, hhere, List.length_cons]
      split_ifs <;> omega

theorem countP_layout (hasEndData : Bool) (op : String)
    (hscoped : target.isScoped = true → temps = [])
    (hparts : target.isScoped = false → temps.length = target.parts.length) {i : Nat}
    (hi : i < target.parts.length) :
    (target.layout hasEndData op temps).countP (isCode i) = target.uses op := by
  have hupdate := countP_updating (p := isCode i) (fun _ => rfl) (fun _ _ => rfl) hparts rfl
    hasEndData op
  rw [layout, uses]
  cases h : target.isScoped with
  | true =>
      have hlength : target.parts.length = 1 := by
        rcases target with _ | _ | _ | ⟨_ | _ | _, _⟩ | _ | _ <;> first | rfl | cases h
      obtain rfl : i = 0 := by omega
      rw [hscoped h, settingUp, List.isEmpty_nil, if_pos rfl, ← hscoped h, hupdate, h]
      cases op == "||" <;> cases op == "&&" <;> rfl
  | false =>
      have hne : temps.isEmpty = false := by
        rw [List.isEmpty_eq_false_iff, ← List.length_pos_iff, hparts h]
        exact Nat.zero_lt_of_lt hi
      rw [settingUp, hne, if_neg Bool.false_ne_true]
      have hcount := countP_assignments 0 i temps
      rw [if_pos ⟨Nat.zero_le i, by rw [hparts h]; omega⟩] at hcount
      simp [countP_commas (p := isCode i) (fun _ => rfl), hcount, hupdate, h, isCode]

end Target

/-- The parts from `i` on are assigned to their temporaries. -/
theorem text_assignments (indent : Nat) {f : Chunk.Filling} {i : Nat} {temps : List Nat}
    {codes : List Term} (hcodes : f.codes.drop i = codes) (hlength : temps.length ≤ codes.length) :
    ((temps.zip codes).map fun item => (Term.assign (.temp item.1) item.2).text indent) =
      (Target.assignments i temps).map (shown indent f) := by
  induction temps generalizing i codes with
  | nil => rfl
  | cons k ks ih =>
      obtain ⟨c, cs, rfl⟩ :=
        List.exists_cons_of_length_pos (Nat.lt_of_lt_of_le (Nat.succ_pos _) hlength)
      have hc : f.codes[i]?.getD .nil = c := by rw [← List.head?_drop, hcodes]; rfl
      have hrest : f.codes.drop (i + 1) = cs := by rw [← List.tail_drop, hcodes]; rfl
      rw [List.zip_cons_cons, List.map_cons, ih hrest (Nat.le_of_succ_le_succ hlength)]
      simp [Target.assignments, shown, Chunk.shown, hc, Term.text, String.append_assoc]

theorem text_withSetup {indent : Nat} {f : Chunk.Filling} {temps : List Nat}
    (hlength : temps.length ≤ f.codes.length) {result : Term} {body : List Chunk}
    (hbody : result.text indent = shown indent f body) :
    (Emission.withSetup (temps.zip f.codes) result).text indent =
      shown indent f (Target.settingUp temps body) := by
  cases temps with
  | nil => exact hbody
  | cons k ks =>
      obtain ⟨c, cs, hcodes⟩ :=
        List.exists_cons_of_length_pos (Nat.lt_of_lt_of_le (Nat.succ_pos _) hlength)
      have hne : ((k :: ks).zip f.codes).isEmpty = false := by rw [hcodes]; rfl
      have hassign := text_assignments indent (f := f) (i := 0) List.drop_zero hlength
      have hitems : Script.commas (Script.termTexts indent (((k :: ks).zip f.codes).map
          (fun item => Term.assign (.temp item.1) item.2) ++ [result])) =
          shown indent f (Chunk.commas (Target.assignments 0 (k :: ks) ++ [body])) := by
        refine commas_termTexts ?_
        rw [List.map_append, List.map_map, List.map_append, ← hassign]
        exact congrArg (_ ++ [·]) hbody
      rw [Emission.withSetup, hne, if_neg Bool.false_ne_true, Term.text, Term.text, hitems]
      simp [Target.settingUp, shown, Chunk.shown, shown_append, String.append_assoc]

/-- An operator reads and writes a place as its layout says. -/
theorem Emission.Place.Follows.updates {p : Emission.Place} {read : Term} {hasEndData : Bool}
    {target : Target Expr} {temps : List Nat} {codes : List Term} {again : Term}
    (h : p.Follows read hasEndData target temps codes again) (op : String) (indent : Nat) (v : Term) :
    Term.text indent (if op == "||" then .paren (.choice (.truthy read) read (p.write v))
      else if op == "&&" then .paren (.choice (.truthy read) (p.write v) read)
      else p.write (.call (.method read op) [v])) =
      shown indent ⟨codes, again, v⟩ (target.updating hasEndData op temps) := by
  have hread := h.reads indent v
  have hwrite := h.writes indent v v [.value] (String.append_empty).symm
  have htest : (Term.truthy read).text indent = "Opal.truthy(" ++ read.text indent ++ ")" := by
    simp [Term.truthy, Term.runtime, Term.opal, Term.own, Term.text, Script.Name.text, Script.commas,
      Script.termTexts]
  rw [Target.updating]
  split
  · simp [Term.text, htest, hread, hwrite, shown, Chunk.shown, shown_append, String.append_assoc]
  · split
    · simp [Term.text, htest, hread, hwrite, shown, Chunk.shown, shown_append, String.append_assoc]
    · refine h.writes indent v _ _ ?_
      simp [Term.text, hread, shown, Chunk.shown, shown_append, Script.termTexts, Script.commas,
        String.append_assoc]

/-! ## Temporaries -/

/-- Generating takes no temporary back. -/
theorem Tells.grows {α : Type} {before : Set (Option Script.Use)} {m : Gen α}
    {after : α → Set (Option Script.Use)} {s t : GenState} {a : α} (h : Tells False before m after)
    (hs : s.Quiet) (hrun : m s = .ok (a, t)) : s.frame.temps ≤ t.frame.temps ∧ t.Quiet := by
  obtain ⟨us, haccounts, -⟩ := h s hs.ready a t hrun
  refine ⟨haccounts.temps, ?_⟩
  rw [GenState.Quiet, haccounts.bearings]
  exact hs

/-- The arguments of an index get temporaries one after the other. -/
theorem indexArguments_temps {args : List Expr} {s s' : GenState}
    (h : Emission.indexArguments (emitAll u args) s = .ok (items, s'))
    (haccounted : ∀ e ∈ args, (emit u e).Accounted False) (hs : s.Quiet) :
    (items.map Prod.fst).Pairwise (· < ·) ∧ ∀ k ∈ items.map Prod.fst, s.frame.temps < k := by
  induction args generalizing s s' items with
  | nil =>
      obtain ⟨rfl, -⟩ := run_ok_inj h
      exact ⟨.nil, nofun⟩
  | cons e es ih =>
      obtain ⟨c, k, rest, s₁, s₂, hc, hk, hrest, rfl⟩ := indexArguments_cons h
      obtain ⟨he, hes⟩ := List.forall_mem_cons.mp haccounted
      obtain ⟨hgrows, hs₁⟩ := he.value.grows hs hc
      obtain ⟨rfl, rfl⟩ := run_ok_inj hk
      obtain ⟨hsorted, habove⟩ := ih hrest hes hs₁
      refine ⟨List.pairwise_cons.mpr ⟨habove, hsorted⟩, fun k hk => ?_⟩
      rcases List.mem_cons.mp hk with rfl | hk
      · exact Nat.lt_succ_of_le hgrows
      · exact Nat.lt_of_le_of_lt (Nat.le_succ_of_le hgrows) (habove k hk)

theorem place_temps {target : Target Expr} {s s₁ : GenState} {p : Emission.Place}
    (hplace : Emission.place u.hasEndData (emitTarget u target) s = .ok (p, s₁))
    (haccounted : ∀ e ∈ target.parts, (emit u e).Accounted False) (hs : s.Quiet) :
    (p.setup.map Prod.fst).Pairwise (· < ·) := by
  cases target with
  | lvar x | const base x =>
      obtain ⟨_, _, -, hplace⟩ := run_bind_eq_ok hplace
      obtain ⟨rfl, -⟩ := run_ok_inj hplace
      exact .nil
  | ivar x | gvar x =>
      obtain ⟨rfl, -⟩ := run_ok_inj hplace
      exact .nil
  | attr e x =>
      obtain ⟨c, _, -, hplace⟩ := run_bind_eq_ok hplace
      obtain ⟨k, _, -, hplace⟩ := run_bind_eq_ok hplace
      obtain ⟨rfl, -⟩ := run_ok_inj hplace
      exact List.pairwise_singleton ..
  | index e args =>
      obtain ⟨c, _, hc, hplace⟩ := run_bind_eq_ok hplace
      obtain ⟨k, _, hk, hplace⟩ := run_bind_eq_ok hplace
      obtain ⟨items, _, hitems, hplace⟩ := run_bind_eq_ok hplace
      obtain ⟨rfl, -⟩ := run_ok_inj hplace
      obtain ⟨he, hargs⟩ := List.forall_mem_cons.mp haccounted
      obtain ⟨-, hs₁⟩ := he.recv.grows hs hc
      obtain ⟨rfl, rfl⟩ := run_ok_inj hk
      obtain ⟨hsorted, habove⟩ := indexArguments_temps hitems hargs hs₁
      exact List.pairwise_cons.mpr ⟨habove, hsorted⟩

/-- What an operator assignment is written as, and how often the code of each part of its target is
there. A part that has a temporary is there once, where the temporary is assigned, and what follows
uses the temporaries only; those of a tree that was read are different from each other. The scope of
a constant has none. -/
theorem opAssign_layout (u : UnitInfo) {target : Target Expr} {op : String} {value : Expr}
    {s s' : GenState} {t : Term} (h : (emit u (.opAssign target op value)).value s = .ok (t, s')) :
    ∃ temps codes again v, List.Forall₂ (fun e => (emit u e).Codes) target.parts codes ∧
      (emit u value).Codes v ∧
      (∀ indent, t.text indent =
        shown indent ⟨codes, again, v⟩ (target.layout u.hasEndData op temps)) ∧
      (∀ i < target.parts.length,
        (target.layout u.hasEndData op temps).countP (Chunk.isCode i) = target.uses op) ∧
      if target.isScoped then ∀ e ∈ target.parts, (emit u e).Codes again
      else temps.length = target.parts.length ∧
        (∀ c ∈ target.updating u.hasEndData op temps, c.isLoose temps = false) ∧
        ((∀ e ∈ target.parts, e.All Expr.Regular) → s.Quiet → temps.Pairwise (· < ·)) := by
  obtain ⟨p, s₁, hplace, h⟩ := run_bind_eq_ok h
  obtain ⟨read, s₂, hread, h⟩ := run_bind_eq_ok h
  obtain ⟨v, s₃, hv, h⟩ := run_bind_eq_ok h
  obtain ⟨rfl, -⟩ := run_ok_inj h
  obtain ⟨temps, codes, again, hp, hcodes, hkind⟩ := place_follows u hplace hread
  have hlength := hcodes.length_eq
  have htext : temps.length ≤ codes.length → ∀ indent, (Emission.withSetup p.setup _).text indent =
      shown indent ⟨codes, again, v⟩ (target.layout u.hasEndData op temps) := fun hle indent => by
    rw [hp.setup]
    exact text_withSetup (f := ⟨codes, again, v⟩) hle (hp.updates op indent v)
  refine ⟨temps, codes, again, v, hcodes, ⟨_, _, .inl hv⟩, ?_⟩
  cases hscoped : target.isScoped with
  | true =>
      rw [hscoped, if_pos rfl] at hkind
      obtain ⟨rfl, hagain⟩ := hkind
      exact ⟨htext (Nat.zero_le _), fun i hi => Target.countP_layout _ _ (fun _ => rfl)
        (fun hfalse => absurd (hscoped.symm.trans hfalse) nofun) hi, hagain⟩
  | false =>
      rw [hscoped, if_neg Bool.false_ne_true] at hkind
      have hparts := hkind.trans hlength.symm
      refine ⟨htext hkind.le, fun i hi => Target.countP_layout _ _
        (fun htrue => absurd (hscoped.symm.trans htrue) nofun) (fun _ => hparts) hi,
        hparts, ?_, fun hregular hs => ?_⟩
      · have hloose := Target.countP_updating (p := Chunk.isLoose temps) (fun _ => rfl)
          (fun k hk => decide_eq_false (not_not.mpr hk)) (fun _ => hparts) rfl u.hasEndData op
        rw [hscoped] at hloose
        exact fun c hc => Bool.eq_false_iff.mpr (List.countP_eq_zero.mp hloose c hc)
      · have htemps := place_temps hplace (fun e he => accounted_emit u (hregular e he) False.elim) hs
        rwa [hp.setup, List.map_fst_zip hkind.le] at htemps

/-- `self[$g] ||= 1` keeps `self` and `$g` in temporaries. -/
theorem opAssign_layout_index : ∃ temps : List Nat, temps.length = 2 ∧ temps.Pairwise (· < ·) ∧
    ∀ i < 2, (Target.layout false "||" temps (.index Expr.selfRef [.gvar "$g"])).countP
      (Chunk.isCode i) = 1 := by
  obtain ⟨t, s', hrun⟩ : ∃ t s', (emit ⟨"main", false⟩ (.opAssign (.index .selfRef [.gvar "$g"])
      "||" (.int "1"))).value { frame := { kind := .top } } = .ok (t, s') := ⟨_, _, rfl⟩
  obtain ⟨temps, -, -, -, -, -, -, hcount, hlength, -, hsorted⟩ := opAssign_layout _ hrun
  refine ⟨temps, hlength, hsorted ?_ ?_, hcount⟩
  · refine List.forall_mem_cons.mpr ⟨⟨⟨nofun, rfl⟩, nofun⟩, List.forall_mem_singleton.mpr ?_⟩
    exact ⟨⟨nofun, rfl⟩, nofun⟩
  · exact List.forall_mem_singleton.mpr nofun

/-- The scope of a constant is there twice: `f::A += 1` calls `f` to read and to write. -/
theorem opAssign_scope_twice : ∃ program g, parse "main" "f::A += 1" = .ok program ∧
    generate program "main" = .ok g ∧ g.lines[1]? =
      some ("  return Opal.cdecl(self.$f().$$scope, \"A\", " ++
        "Opal.const_get_qualified(self.$f(), \"A\")[\"$+\"](1));") := by
  have hruns : ∃ program, parse "main" "f::A += 1" = .ok program ∧
      (generate program "main").toOption.any (fun g => decide (g.lines[1]? =
      some ("  return Opal.cdecl(self.$f().$$scope, \"A\", " ++
        "Opal.const_get_qualified(self.$f(), \"A\")[\"$+\"](1));"))) = true :=
    exists_ok_of_any (by decide +kernel)
  obtain ⟨program, hparse, hgenerate⟩ := hruns
  obtain ⟨g, hgenerate, hlines⟩ := exists_ok_of_any hgenerate
  exact ⟨program, g, hparse, hgenerate, hlines⟩

end RubyJs
