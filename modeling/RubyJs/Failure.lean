import RubyJs.Emission.Frame
import RubyJs.Fault
import RubyJs.Path

set_option autoImplicit false

/-! # Failures

Why a build, or a part of it, has no result. Each failure has one text.
-/

namespace RubyJs

/-- Why a file cannot be read, listed or written. -/
inductive FileCause where
  /-- The store in memory has no such file. -/
  | notStored
  | notFound
  | occupied
  | notDirectory
  | isDirectory
  | notUtf8
  /-- The path has a zero character. -/
  | zeroInPath
  /-- The path or a name in it is longer than names can be. -/
  | tooLong
  /-- The directory `dir` cannot be listed. -/
  | listing (dir : Path) (cause : FileCause)
deriving DecidableEq, Repr

/-- The text of a cause. -/
def FileCause.text : FileCause → String
  | notStored => "no such in-memory source"
  | notFound => "No such file or directory (os error 2)"
  | occupied => "File exists (os error 17)"
  | notDirectory => "Not a directory (os error 20)"
  | isDirectory => "Is a directory (os error 21)"
  | notUtf8 => "stream did not contain valid UTF-8"
  | zeroInPath => "file name contained an unexpected NUL byte"
  | tooLong => "File name too long (os error 36)"
  | listing dir cause => "IO error for operation on " ++ dir.text ++ ": " ++ cause.text

/-- Why there is no result. -/
inductive Failure where
  /-- A source cannot be read. -/
  | source (path : Path) (cause : FileCause)
  /-- There is no standard library at a place. -/
  | missingLibrary (root : Path)
  /-- A unit does not parse. -/
  | parse (error : ParseError)
  /-- A unit parses and has no script. -/
  | unsupported (file : String) (refusal : Refusal)
  /-- No file is found for a name. -/
  | unresolved (name requester : String)
  /-- Two files of a tree have one logical name. -/
  | ambiguous (name : String) (first second : Path)
  /-- The walk over the dependencies does not come to an end. -/
  | endless

/-- The text of a failure. -/
def Failure.message : Failure → String
  | .source path cause => "failed to read source " ++ path.text ++ ": " ++ cause.text
  | .missingLibrary root => "standard library directory was not found at " ++ root.text
  | .parse error => "parse error: " ++ error.message
  | .unsupported file refusal => "cannot compile " ++ file ++ ": " ++ refusal.message
  | .unresolved name requester =>
    "cannot load such file -- " ++ name ++ " (required by " ++ requester ++ ")"
  | .ambiguous name first second =>
    "ambiguous require of " ++ name ++ ": " ++ first.text ++ ", " ++ second.text
  | .endless => "the dependencies have no end"

end RubyJs
