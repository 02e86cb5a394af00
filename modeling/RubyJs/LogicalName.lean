set_option autoImplicit false

/-! # Logical names

A unit is known by its logical name: slash-divided segments, without `.` and, except at the front,
without `..`, and without the extension of its file. The name is also the key of the unit's module
when the program runs.

    ./foo.rb        foo
    a/./b/../c.js   a/c
    ../up           ../up
-/

namespace RubyJs

/-- How the text of a unit becomes output: compiled, or copied. -/
inductive Processor where
  | ruby
  | javascript
deriving DecidableEq, Repr

namespace Processor

/-- The extension of the files that the processor is for. -/
def extension : Processor → String
  | ruby => "rb"
  | javascript => "js"

/-- The processor for files with this extension. -/
def ofExtension? (ext : String) : Option Processor :=
  if ext == "rb" then some ruby else if ext == "js" then some javascript else none

end Processor

namespace LogicalName

/-- The parts of a text between slashes. There is always at least one. -/
def splitSlash : List Char → List (List Char)
  | [] => [[]]
  | c :: cs =>
    if c == '/' then [] :: splitSlash cs
    else
      match splitSlash cs with
      | [] => [[c]]
      | s :: ss => (c :: s) :: ss

/-- The parts of `name` between slashes. -/
def segments (name : String) : List String := (splitSlash name.toList).map String.ofList

/-- Whether `name` begins with a slash. -/
def isAbsolute (name : String) : Bool := name.toList.head? == some '/'

/-- Adds a segment to those read, newest first: an empty one and `.` mean nothing, `..` takes back
the segment before it unless that is `..` too. -/
def foldStep (read : List String) (segment : String) : List String :=
  if segment == "" || segment == "." then read
  else if segment == ".." then
    match read with
    | [] => [".."]
    | last :: rest => if last == ".." then ".." :: read else rest
  else segment :: read

/-- The segments without `.`, and with `..` only at the front. -/
def foldSegments (segs : List String) : List String := (segs.foldl foldStep []).reverse

/-- The text of segments, after a slash if the name is absolute. -/
def ofSegments (absolute : Bool) (segs : List String) : String :=
  (if absolute then "/" else "") ++ "/".intercalate segs

/-- `name` with its segments folded. -/
def fold (name : String) : String := ofSegments (isAbsolute name) (foldSegments (segments name))

/-- `s` without `suffix` at its end, if it ends so. -/
def stripSuffix? (suffix s : String) : Option String :=
  if suffix.toList.isSuffixOf s.toList then
    some (String.ofList (s.toList.take (s.toList.length - suffix.toList.length)))
  else none

/-- A name without its extension, and the processor the extension is for. -/
def splitExtension (name : String) : String × Option Processor :=
  match stripSuffix? ".rb" name with
  | some stem => (stem, some .ruby)
  | none =>
    match stripSuffix? ".js" name with
    | some stem => (stem, some .javascript)
    | none => (name, none)

/-- The logical name that `name` stands for. -/
def normalize (name : String) : String := (splitExtension (fold name)).1

/-- What stands before the last slash of `name`, if there is a slash. -/
def directory? (name : String) : Option String :=
  match (splitSlash name.toList).reverse with
  | _ :: s :: ss => some ("/".intercalate ((s :: ss).reverse.map String.ofList))
  | _ => none

/-- The logical name that `name` stands for in the unit `file`. -/
def relativeTo (file name : String) : String :=
  match directory? file with
  | some dir => normalize (dir ++ "/" ++ name)
  | none => normalize name

end LogicalName

end RubyJs
