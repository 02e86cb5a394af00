import RubyJs.Dependency
import RubyJs.Script.Names

set_option autoImplicit false

/-! # Bundles

A bundle is the text of its units one after the other. A module that is loaded ahead of the entry is
followed by a line that runs it.
-/

namespace RubyJs

/-- What a unit is in a bundle. -/
inductive RecordKind where
  /-- A module of the module table. -/
  | module
  /-- JavaScript that is copied. -/
  | native
  /-- The entry, which runs at once. -/
  | entry
deriving DecidableEq, Repr

/-- A unit of a bundle. -/
structure Record where
  logical : String
  kind : RecordKind
  javascript : String
  /-- Whether the unit is run where it stands. -/
  preload : Bool
deriving DecidableEq, Repr

/-- The text with a newline at its end. -/
def endLine (text : String) : String :=
  if text.toList.getLast? == some '\n' then text else text ++ "\n"

namespace Record

/-- The line that runs a module. -/
def requireLine (logical : String) : String :=
  "Opal.require(" ++ Script.stringLiteral logical ++ ");\n"

/-- The text of a unit in the bundle. -/
def text (r : Record) : String :=
  endLine r.javascript ++
    (if r.preload && r.kind == .module then requireLine r.logical else "")

end Record

/-- A finished bundle. -/
structure Artifact where
  text : String
  /-- The logical names of the units, in order. -/
  units : List String
  edges : List Edge
deriving DecidableEq, Repr

namespace Artifact

/-- Whether a unit is in the bundle. -/
def contains (a : Artifact) (logical : String) : Bool := a.units.contains logical

/-- The edges, one on a line. -/
def edgeText (a : Artifact) : String := String.join (a.edges.map (·.text ++ "\n"))

end Artifact

/-- The comment at the front of a bundle. -/
def bundleBanner (count : Nat) : String := "/* opalite bundle: " ++ toString count ++ " units */\n"

/-- The bundle of units. -/
def assemble (records : List Record) (edges : List Edge) (banner : Bool) : Artifact where
  text :=
    (if banner then bundleBanner records.length else "") ++ String.join (records.map Record.text)
  units := records.map (·.logical)
  edges

end RubyJs
