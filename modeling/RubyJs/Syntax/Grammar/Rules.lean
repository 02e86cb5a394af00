import RubyJs.Syntax.Reading
import RubyJs.Text.Lowercase

set_option autoImplicit false

/-! # The rules of the grammar, and names

The grammar is recursive: an operand may be a whole list of statements between parentheses. Each
rule is a function of the `Rules` it may fall back on, and uses one of them only after it has taken
a token. `parse` ties the knot.

From the loosest rule to the tightest:

    stmts → stmt → exprStmt (and, or) → notExpr → expr (=) → ternary → range → binary → unary
-/

namespace RubyJs

/-- The rules to fall back on, with the unit that is read. -/
structure Rules where
  file : String
  text : String
  stmts : Reading (List Expr)
  exprStmt : Reading Expr
  notExpr : Reading Expr
  expr : Reading Expr
  ternary : Reading Expr
  /-- Chains of binary operators that bind at least as tightly as the argument says. -/
  binary : Nat → Reading Expr
  unary : Reading Expr

namespace Grammar

open Reading

/-- Whether `name` can be a local variable: it begins with a lower-case letter or an underscore and
ends in no mark. -/
def isLocalName (name : String) : Bool :=
  match name.toList with
  | [] => false
  | c :: cs =>
    let last := cs.getLastD c
    (c == '_' || Text.isLowercase c) && last != '?' && last != '!'

/-- The method that an operator token names; any other token has the fault `cause`. -/
def operatorName (kind : TokenKind) (cause : Cause) : Reading String :=
  match kind.operatorName? with
  | some op => return op
  | none => faultBefore cause

/-- The name of the method that is called after a dot. -/
def methodNameAfterDot : Reading String := do
  match ← advance with
  | .ident n | .const n => return n
  | .keyword w => return w.text
  | kind => operatorName kind .methodNameAfterDot

/-- The name of the method that a definition defines. -/
def definedName : Reading String := do
  let name ← match ← advance with
    | .ident n | .const n => pure n
    | .keyword w => pure w.text
    | .lbracket => do
      expect .rbracket "']' in method name"
      pure "[]"
    | kind => operatorName kind .methodName
  let t ← currentToken
  if t.kind == .assign && !t.spaced && (isLocalName name || name == "[]") then
    let _ ← advance
    return name ++ "="
  else return name

/-- The name of a method after `alias` or `undef`: a name, an operator or a symbol. -/
def methodOperand : Reading String := do
  match ← advance with
  | .ident n | .const n | .symbol n => return n
  | .gvar n => return "$" ++ n
  | .keyword w => return w.text
  | .lbracket =>
    expect .rbracket "']' in method name"
    return "[]"
  | kind => operatorName kind .methodName

/-- The name of a parameter, which becomes a local variable. -/
def parameterName : Reading String := do
  match ← advance with
  | .ident n =>
    declare n
    return n
  | _ => faultBefore .parameterName

/-- The name of a class or module, with where it is defined: `A`, `::A`, `A::B`. -/
def constantPath : Reading (Base Expr × String) := do
  let base : Base Expr := if ← eat .colonColon then .top else .lexical
  let first ← constantName
  repeatFrom (base, first) fun (base, name) => do
    if ← eat .colonColon then
      let inner ← constantName
      return .again (.within (.const base name), inner)
    else return .done (base, name)
where
  /-- A constant, which has to be there. -/
  constantName : Reading String := do
    match ← advance with
    | .const n => return n
    | _ => faultBefore .constantName

end Grammar

end RubyJs
