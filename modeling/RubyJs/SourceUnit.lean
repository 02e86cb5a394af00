import RubyJs.Compiled
import RubyJs.SearchPath

set_option autoImplicit false

/-! # Source units

A unit with its text. A unit is compiled under its logical name, as a module for the module table or
as the entry that runs at once.
-/

namespace RubyJs

/-- A unit with its text. -/
structure SourceUnit where
  logical : String
  path : Path
  text : String
  processor : Processor
  /-- The module that the unit was compiled to before. -/
  kept : Option Compiled := none

namespace SourceUnit

/-- The unit of a file with this text. -/
def ofResolved (r : Resolved) (text : String) : SourceUnit :=
  { logical := r.logical, path := r.path, text, processor := r.processor }

/-- The empty unit that stands for a name. -/
def stub (logical : String) : SourceUnit :=
  { logical, path := ⟨logical⟩, text := "", processor := .ruby }

/-- The tree of the unit. -/
def tree (u : SourceUnit) : Except Failure Program := parseUnit u.logical u.text

/-- The unit as a module. -/
def asModule (u : SourceUnit) (banner : Bool) : Except Failure Compiled :=
  compile u.text { file := u.logical, requirable := true, banner }

/-- The unit as an entry. -/
def asEntry (u : SourceUnit) (banner : Bool) : Except Failure Compiled :=
  compile u.text { file := u.logical, requirable := false, banner }

/-- The unit as a module, and the unit that keeps it: the first result is given again later. -/
def compiled (u : SourceUnit) (banner : Bool) : Except Failure (Compiled × SourceUnit) :=
  match u.kept with
  | some c => .ok (c, u)
  | none => do
    let c ← u.asModule banner
    pure (c, { u with kept := some c })

end SourceUnit

end RubyJs
