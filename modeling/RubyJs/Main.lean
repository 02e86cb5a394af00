import RubyJs.Command

set_option autoImplicit false

/-! # The program

Loads the directories that the arguments can reach into a file tree, runs the command on it, and
carries out what has changed:

    files  →  FileTree  →  Command.execute  →  FileTree  →  files
-/

namespace RubyJs.Command

/-! ## What is loaded and what is stored -/

/-- Whether the entry is read from the standard input. -/
def Invocation.readsInput (i : Invocation) : Bool :=
  i.input.isNone && (i.entry.isNone || i.emit == some .unit)

/-- The directories that a run can look into, the working directory apart. -/
def Invocation.directories (i : Invocation) : List Path :=
  i.includes ++ i.stdlib.toList ++ (i.input.bind Path.parent?).toList ++
    (i.output.bind Path.parent?).toList

/-- The place of a path that is spelled from the root. -/
def placeOf (text : String) : Location := (LogicalName.segments text).filter (· != "")

/-- A place and the places above it. -/
def withAncestors (l : Location) : List (Location × Entry) := (FileTree.empty l).entries

/-- The files that are new or have another text than before. -/
def Outcome.changed (o : Outcome) (before : FileTree) : List (Location × ByteArray) :=
  o.tree.files.filter fun f =>
    match before.get? f.1 with
    | some (.file bytes) => bytes != f.2
    | _ => true

/-- The spelling of a place from the root. -/
def spelling (l : Location) : String := "/" ++ "/".intercalate l

/-- What is said about arguments that are not taken. -/
def UsageError.text : UsageError → String
  | .unknownArgument => "error: unexpected argument"
  | .invalidValue => "error: invalid or missing value"
  | .argumentConflict => "error: the arguments cannot be used together"
  | .tooManyValues => "error: unexpected value for a flag"
  | .help => "Usage: opalite [OPTIONS]"
  | .version => "opalite " ++ RubyJs.version

/-- Whether the text was asked for. -/
def UsageError.isAnswer : UsageError → Bool
  | .help | .version => true
  | _ => false

/-! ## Input and output -/

/-- Everything below a directory. Links to directories are not followed, and what cannot be read is
left out. -/
partial def loadBelow (dir : String) : IO (List (Location × Entry)) := do
  try
    let place ← IO.FS.realPath dir
    let mut found := withAncestors (placeOf place.toString)
    for e in ← place.readDir do
      let l := placeOf e.path.toString
      match (← e.path.symlinkMetadata).type with
      | .dir => found := found ++ (← loadBelow e.path.toString)
      | _ =>
        if !(← e.path.isDir) then
          found := found ++ [(l, .file (← IO.FS.readBinFile e.path))]
    pure found
  catch _ => pure []

/-- The tree that a run sees. -/
def loadTree (i : Invocation) : IO FileTree := do
  let here := (← IO.currentDir).toString
  let mut entries ← loadBelow here
  for dir in i.directories do
    if !dir.text.isEmpty then
      entries := entries ++ (← loadBelow dir.text)
  pure (Library.mount { here := placeOf here, entries })

/-- Writes the files of a run. -/
def storeFiles (files : List (Location × ByteArray)) : IO Unit :=
  for (l, bytes) in files do
    IO.FS.createDirAll (spelling l.dropLast)
    IO.FS.writeBinFile (spelling l) bytes

end RubyJs.Command

open RubyJs RubyJs.Command in
/-- The program: compiles or bundles what the arguments name. -/
def main (args : List String) : IO UInt32 := do
  match Invocation.ofArgs args with
  | .error e =>
    if e.isAnswer then
      IO.println e.text
      pure 0
    else
      IO.eprintln e.text
      pure 2
  | .ok i =>
    let tree ← loadTree i
    let input ← if i.readsInput then (← IO.getStdin).readToEnd else pure ""
    let outcome := execute i tree input
    storeFiles (outcome.changed tree)
    IO.print outcome.stdout
    match outcome.error with
    | none => pure 0
    | some e =>
      IO.eprintln ("Error: " ++ e.message)
      pure 1
