import RubyJs.Emission.Control
import RubyJs.Emission.Definitions
import RubyJs.Script.Printer

set_option autoImplicit false

/-! # The script of a tree

The emission of a tree is made from the emissions of its parts, by recursion on the tree. The script
of a unit is the function around its body:

    var self = Opal.top, $scope = Opal, nil = Opal.nil, …;
    …
-/

namespace RubyJs

open Script (Term Stmt Name Func)

/-- What code generation knows of the unit. -/
structure UnitInfo where
  /-- The name of the unit, which relative needs start from. -/
  file : String
  /-- Whether the unit has text after the marker line. -/
  hasEndData : Bool

mutual

/-- The emission of an expression. -/
def emit (u : UnitInfo) : Expr → Emission
  | .nil => Emission.nil
  | .bool b => Emission.bool b
  | .selfRef => Emission.selfRef
  | .int t => Emission.int t
  | .float t => Emission.float t
  | .str t => Emission.str t
  | .sym t => Emission.str t
  | .dstr ps => Emission.interpolated (emitParts u ps)
  | .dsym ps => Emission.interpolated (emitParts u ps)
  | .xstr ps => Emission.native (emitParts u ps)
  | .array es => Emission.array (emitAll u es)
  | .hash ps => Emission.hash (emitPairs u ps)
  | .range a b exclusive => Emission.range (emit u a) (emit u b) exclusive
  | .lvar x => Emission.lvar x
  | .ivar x => Emission.ivar x
  | .gvar x => Emission.gvar x
  | .const base x => Emission.const u.hasEndData (emitBase u base) x
  | .assign t v => Emission.assign u.hasEndData (emitTarget u t) (emit u v)
  | .opAssign t op v => Emission.opAssign u.hasEndData (emitTarget u t) op (emit u v)
  | .call c => Emission.call c.builtin? (c.declaration? u.file) (emitCall u c)
  | .splat e => Emission.splat (emit u e)
  | .not e => Emission.not (emit u e)
  | .and l r => Emission.and (emit u l) (emit u r)
  | .or l r => Emission.or (emit u l) (emit u r)
  | .ifElse c t e => Emission.ifElse (emit u c) (emitAll u t) (emitAll u e)
  | .ternary c t e => Emission.ifElse (emit u c) [emit u t] [emit u e]
  | .loop c b isUntil bodyFirst => Emission.loop (emit u c) (emitAll u b) isUntil bodyFirst
  | .caseOf s ws e => Emission.caseOf (emitOption u s) (emitWhens u ws) (emitBody? u e)
  | .begin b rs e f =>
    Emission.begin (emitAll u b) (emitRescues u rs) (emitBody? u e) (emitBody? u f)
  | .seq es => Emission.seq (emitAll u es)
  | .ret v => Emission.ret (emitOption u v)
  | .brk v => Emission.brk (emitOption u v)
  | .nxt v => Emission.nxt (emitOption u v)
  | .yield args => Emission.yield (emitAll u args)
  | .super args b arg => Emission.super (emitBody? u args) (emitBlock? u b) (emitOption u arg)
  | .define s name p b => Emission.define (emitOption u s) name (emitParams u p) (emitAll u b)
  | .classDef base name s b =>
    Emission.classDef (emitBase u base) name (emitOption u s) (emitAll u b)
  | .moduleDef base name b => Emission.moduleDef (emitBase u base) name (emitAll u b)
  | .singletonDef t b => Emission.singletonDef (emit u t) (emitAll u b)
  | .aliasMethod a b => Emission.aliasMethod a b
  | .undef names => Emission.undef names

/-- The emissions of expressions. -/
def emitAll (u : UnitInfo) : List Expr → List Emission
  | [] => []
  | e :: es => emit u e :: emitAll u es

/-- The emission of an optional expression. -/
def emitOption (u : UnitInfo) : Option Expr → Option Emission
  | none => none
  | some e => some (emit u e)

/-- The emissions of an optional body. -/
def emitBody? (u : UnitInfo) : Option (List Expr) → Option (List Emission)
  | none => none
  | some es => some (emitAll u es)

/-- The emissions of the parts of a string. -/
def emitParts (u : UnitInfo) : List (Part Expr) → List (Part Emission)
  | [] => []
  | .lit t :: ps => .lit t :: emitParts u ps
  | .code es :: ps => .code (emitAll u es) :: emitParts u ps

/-- The emissions of keys and values. -/
def emitPairs (u : UnitInfo) : List (Expr × Expr) → List (Emission × Emission)
  | [] => []
  | (k, v) :: ps => (emit u k, emit u v) :: emitPairs u ps

/-- The emission of the place of a constant. -/
def emitBase (u : UnitInfo) : Base Expr → Base Emission
  | .lexical => .lexical
  | .top => .top
  | .within e => .within (emit u e)

/-- The emissions in a target. -/
def emitTarget (u : UnitInfo) : Target Expr → Target Emission
  | .lvar x => .lvar x
  | .ivar x => .ivar x
  | .gvar x => .gvar x
  | .const base x => .const (emitBase u base) x
  | .attr e x => .attr (emit u e) x
  | .index e args => .index (emit u e) (emitAll u args)

/-- The emissions of defaults. -/
def emitNamed (u : UnitInfo) : List (String × Expr) → List (String × Emission)
  | [] => []
  | (x, e) :: ps => (x, emit u e) :: emitNamed u ps

/-- The emissions in parameters. -/
def emitParams (u : UnitInfo) : Params Expr → Params Emission
  | ⟨required, optional, rest, block⟩ => ⟨required, emitNamed u optional, rest, block⟩

/-- The emissions in an optional block. -/
def emitBlock? (u : UnitInfo) : Option (Block Expr) → Option (Block Emission)
  | none => none
  | some ⟨params, body⟩ => some ⟨emitParams u params, emitAll u body⟩

/-- The emissions in a call. -/
def emitCall (u : UnitInfo) : Call Expr → Call Emission
  | ⟨recv, name, args, block, arg⟩ =>
    ⟨emitOption u recv, name, emitAll u args, emitBlock? u block, emitOption u arg⟩

/-- The emissions in the clauses of a `case`. -/
def emitWhens (u : UnitInfo) : List (When Expr) → List (When Emission)
  | [] => []
  | ⟨values, body⟩ :: ws => ⟨emitAll u values, emitAll u body⟩ :: emitWhens u ws

/-- The emissions in the clauses of a handler. -/
def emitRescues (u : UnitInfo) : List (Rescue Expr) → List (Rescue Emission)
  | [] => []
  | ⟨classes, var, body⟩ :: rs => ⟨emitAll u classes, var, emitAll u body⟩ :: emitRescues u rs

end

/-! ## Units -/

/-- The script of a unit and what the unit declares. -/
structure Generated where
  script : Func Term Stmt
  declarations : List Declaration

/-- The lines of the script. -/
def Generated.lines (g : Generated) : List String := Script.funcLines 0 g.script

/-- The variables around a unit's body. -/
def unitInits : List (Name × Term) :=
  [(.own "self", .member .opal "top"), (.own "$scope", .opal), (.own "nil", .member .opal "nil")]

/-- The statements that make the text after the marker line readable. -/
def endDataSetup : Option String → List Stmt
  | none => []
  | some data =>
    [.var (.own "$__END__") (.call (.member Emission.globalObject "$new") []),
      .term (.assign (.member Emission.endObject "$read") (.inline [.ret (.str data) false]))]

/-- The script of the unit `file`. -/
def generate (program : Program) (file : String) : Except Refusal Generated :=
  let u : UnitInfo := { file, hasEndData := program.endData.isSome }
  match Emission.body (emitAll u program.body) true { frame := { kind := .top } } with
  | .error r => .error r
  | .ok (body, s) =>
    .ok
      { script := s.frame.function unitInits (endDataSetup program.endData) body
        declarations := s.declarations }

end RubyJs
