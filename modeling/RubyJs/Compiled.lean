import RubyJs.Emission.Tree
import RubyJs.Failure
import RubyJs.Syntax.Parser

set_option autoImplicit false

/-! # Compiled units

The text of a unit becomes JavaScript: its script in a function that runs at once, or that is put
into the module table under the unit's name.

    (function(Opal) {                       Opal.modules["name"] = function(Opal) {
      …                                       …
    })(Opal);                               };
-/

namespace RubyJs

/-- How a unit is compiled. -/
structure CompileOptions where
  /-- The name of the unit. -/
  file : String := "(file)"
  /-- Whether the unit goes into the module table. -/
  requirable : Bool := false
  /-- Whether a comment names the compiler. -/
  banner : Bool := true

/-- A unit as JavaScript, and what it declares. -/
structure Compiled where
  javascript : String
  declarations : List Declaration
deriving DecidableEq, Repr

namespace Compiled

/-- The names of the units that are needed. -/
def requires (c : Compiled) : List String :=
  (c.declarations.filter (·.kind != .tree)).map (·.name)

/-- The directories whose units are needed. -/
def requiredTrees (c : Compiled) : List String :=
  (c.declarations.filter (·.kind == .tree)).map (·.name)

end Compiled

/-- The version that the banner names. -/
def version : String := "0.1.0"

/-- The comment that names the compiler. -/
def unitBanner : String := "/* Generated by opalite " ++ version ++ " */\n"

namespace CompileOptions

/-- What stands before the script. -/
def opening (o : CompileOptions) : String :=
  (if o.banner then unitBanner else "") ++
    (if o.requirable then
      "Opal.modules[" ++ Script.stringLiteral o.file ++ "] = function(Opal) \x7b\n"
    else "(function(Opal) \x7b\n")

/-- What stands after the script. -/
def closing (o : CompileOptions) : String := if o.requirable then "\x7d;\n" else "\x7d)(Opal);\n"

end CompileOptions

/-- Compiles a tree. -/
def compileProgram (program : Program) (o : CompileOptions) : Except Failure Compiled :=
  match generate program o.file with
  | .error r => .error (.unsupported o.file r)
  | .ok g =>
    .ok
      { javascript := o.opening ++ String.join (g.lines.map (· ++ "\n")) ++ o.closing
        declarations := g.declarations }

/-- The tree of a text, under the name `file`. -/
def parseUnit (file text : String) : Except Failure Program :=
  match parse file text with
  | .error e => .error (.parse e)
  | .ok p => .ok p

/-- Compiles a text. -/
def compile (text : String) (o : CompileOptions) : Except Failure Compiled :=
  match parseUnit o.file text with
  | .error f => .error f
  | .ok p => compileProgram p o

end RubyJs
