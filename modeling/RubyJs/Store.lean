import RubyJs.Failure

set_option autoImplicit false

/-! # Stores

Where the texts of units come from. A build asks a store four things and never writes to it.
-/

namespace RubyJs

/-- Read access to a store of texts. -/
structure Reader where
  isFile : Path → Bool
  isDir : Path → Bool
  /-- The text of a file. -/
  read : Path → Except Failure String
  /-- The files below a directory, in the order of their paths. -/
  walk : Path → Except Failure (List Path)
  /-- A bound on the number of paths, seen from one place, that are files. -/
  size : Nat

end RubyJs
