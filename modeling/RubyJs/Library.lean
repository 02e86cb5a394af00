import RubyJs.Library.Texts
import RubyJs.Store.FileTree

set_option autoImplicit false

/-! # The standard library

The units that come with the compiler. They stand in a directory of their own, which is searched
last, and the runtime is loaded ahead of everything else.
-/

namespace RubyJs.Library

/-- A text of lines. -/
def linesText (lines : List String) : String := String.join (lines.map (· ++ "\n"))

/-- The files of the library, by their paths in it. -/
def files : List (Location × String) :=
  [(["corelib", "boolean.rb"], linesText booleanLines),
    (["corelib", "runtime.js"], linesText runtimeLines),
    (["nodejs", "process.rb"], linesText processLines),
    (["opal.rb"], linesText opalLines)]

/-- The name of the runtime, which is loaded ahead of everything else. -/
def runtimeUnit : String := "corelib/runtime"

/-- Where the library stands. -/
def root : Path := ⟨"/rubyjs/stdlib"⟩

/-- The tree with the library in its place. -/
def mount (t : FileTree) : FileTree :=
  files.foldl (fun t f => t.withFile (root.join ("/".intercalate f.1)) f.2.toUTF8) t

/-- The place `root`, if the runtime is there. -/
def ensureRoot (r : Reader) (root : Path) : Except Failure Path :=
  if r.isFile (root.join (runtimeUnit ++ ".js")) then .ok root else .error (.missingLibrary root)

end RubyJs.Library
