import RubyJs.Store

set_option autoImplicit false

/-! # File trees

The files and directories that a command sees, with the directory it runs in. A path is followed
step by step: every step but the last has to be a directory, `..` goes up, and what follows a slash
at the end is the directory itself.

    a.rb        the file
    a.rb/       not a directory
    x/../a.rb   the file, if x is a directory
-/

namespace RubyJs

/-- A place in a file tree: the names from the root down. -/
abbrev Location := List String

/-- What is at a place. -/
inductive Entry where
  | dir
  | file (bytes : ByteArray)

/-- Files and directories. -/
structure FileTree where
  /-- The directory that relative paths start from. -/
  here : Location
  entries : List (Location × Entry) := []

namespace FileTree

/-! ## Places -/

/-- What is at a place. The root is a directory. -/
def get? (t : FileTree) (l : Location) : Option Entry :=
  if l.isEmpty then some .dir else (t.entries.find? (·.1 == l)).map (·.2)

/-- Puts something at a place. -/
def put (t : FileTree) (l : Location) (e : Entry) : FileTree :=
  { t with entries := t.entries.filter (·.1 != l) ++ [(l, e)] }

/-- An empty directory to run in. -/
def empty (here : Location) : FileTree :=
  { here, entries := (List.range here.length).map fun n => (here.take (n + 1), .dir) }

/-- The files of the tree. -/
def files (t : FileTree) : List (Location × ByteArray) :=
  t.entries.filterMap fun e =>
    match e.2 with
    | .file bytes => some (e.1, bytes)
    | .dir => none

/-- The longest path, in bytes. -/
def maxPath : Nat := 4095

/-- The longest name in a path, in bytes. -/
def maxName : Nat := 255

/-- Follows segments from a place. -/
def follow (t : FileTree) (l : Location) : List String → Except FileCause Location
  | [] => .ok l
  | s :: rest =>
    match t.get? l with
    | some .dir =>
      if s == "" || s == "." then t.follow l rest
      else if s == ".." then t.follow l.dropLast rest
      else if s.utf8ByteSize > maxName then .error .tooLong
      else
        match t.get? (l ++ [s]) with
        | some _ => t.follow (l ++ [s]) rest
        | none => .error .notFound
    | some (.file _) => .error .notDirectory
    | none => .error .notFound

/-- Where a path starts. -/
def start (t : FileTree) (p : Path) : Location :=
  if LogicalName.isAbsolute p.text then [] else t.here

/-- What is wrong with a path before it is followed. -/
def malformed? (p : Path) : Option FileCause :=
  if p.text.toList.contains '\x00' then some .zeroInPath
  else if p.text.isEmpty then some .notFound
  else if p.text.utf8ByteSize > maxPath then some .tooLong
  else none

/-- The place that a path means. -/
def locate (t : FileTree) (p : Path) : Except FileCause Location :=
  match malformed? p with
  | some cause => .error cause
  | none => t.follow (t.start p) (LogicalName.segments p.text)

/-- What a path means. -/
def lookup (t : FileTree) (p : Path) : Except FileCause (Location × Entry) :=
  match t.locate p with
  | .error cause => .error cause
  | .ok l =>
    match t.get? l with
    | some e => .ok (l, e)
    | none => .error .notFound

/-! ## Reading -/

/-- Whether a path is a file. -/
def isFile (t : FileTree) (p : Path) : Bool :=
  match t.lookup p with
  | .ok (_, .file _) => true
  | _ => false

/-- Whether a path is a directory. -/
def isDir (t : FileTree) (p : Path) : Bool :=
  match t.lookup p with
  | .ok (_, .dir) => true
  | _ => false

/-- The text of a file. -/
def readText (t : FileTree) (p : Path) : Except FileCause String :=
  match t.lookup p with
  | .error cause => .error cause
  | .ok (_, .dir) => .error .isDirectory
  | .ok (_, .file bytes) =>
    match String.fromUTF8? bytes with
    | some text => .ok text
    | none => .error .notUtf8

/-- The files below a place, named from `dir`. -/
def filesBelow (t : FileTree) (dir : Path) (l : Location) : List Path :=
  let below := t.files.filterMap fun f =>
    if l.isPrefixOf f.1 then some (dir.join ("/".intercalate (f.1.drop l.length))) else none
  below.mergeSort fun p q => p.order q != .gt

/-- The files at and below a path. -/
def walk (t : FileTree) (dir : Path) : Except FileCause (List Path) :=
  match t.lookup dir with
  | .error cause => .error (.listing dir cause)
  | .ok (_, .file _) => .ok [dir]
  | .ok (l, .dir) => .ok (t.filesBelow dir l)

/-- Read access to a file tree. A file has no more spellings than a path has bytes. -/
def reader (t : FileTree) : Reader where
  isFile := t.isFile
  isDir := t.isDir
  read p := (t.readText p).mapError (Failure.source p)
  walk dir := (t.walk dir).mapError (Failure.source dir)
  size := t.files.length * (maxPath + 1)

/-! ## Writing -/

/-- The last segment of a path and those before it, without slashes at the end. -/
def splitLast (segs : List String) : List String × Option String :=
  match segs.reverse.dropWhile (· == "") with
  | [] => (segs.dropLast, none)
  | last :: before => (before.reverse, some last)

/-- The directory that something new at a path would stand in, and its name there. The name is
missing if the path ends in `.`, `..` or is the root. -/
def newPlace (t : FileTree) (p : Path) : Except FileCause (Location × Option String) :=
  match malformed? p with
  | some cause => .error cause
  | none =>
    let (before, last) := splitLast (LogicalName.segments p.text)
    match t.follow (t.start p) before with
    | .error cause => .error cause
    | .ok l =>
      match t.get? l, last with
      | some (.file _), _ => .error .notDirectory
      | none, _ => .error .notFound
      | some .dir, none => .ok (l, none)
      | some .dir, some name =>
        if name == "." || name == ".." then .ok (l, none) else .ok (l, some name)

/-- Makes a directory. -/
def makeDir (t : FileTree) (p : Path) : Except FileCause FileTree :=
  match t.newPlace p with
  | .error cause => .error cause
  | .ok (_, none) => .error .occupied
  | .ok (l, some name) =>
    if name.utf8ByteSize > maxName then .error .tooLong
    else
      match t.get? (l ++ [name]) with
      | some _ => .error .occupied
      | none => .ok (t.put (l ++ [name]) .dir)

/-- Makes a directory and those it stands in, unless they are there. The first argument bounds how
many there are. -/
def makeDirs : Nat → FileTree → Path → Except FileCause FileTree
  | 0, _, _ => .error .tooLong
  | n + 1, t, p =>
    if p.text.isEmpty then .ok t
    else
      match t.makeDir p with
      | .ok t => .ok t
      | .error .notFound =>
        match p.parent? with
        | none => .error .notFound
        | some dir =>
          match makeDirs n t dir with
          | .error cause => .error cause
          | .ok t =>
            match t.makeDir p with
            | .ok t => .ok t
            | .error cause => if t.isDir p then .ok t else .error cause
      | .error cause => if t.isDir p then .ok t else .error cause

/-- Makes the directory that a path stands in. -/
def makeDirsFor (t : FileTree) (dir : Path) : Except FileCause FileTree :=
  makeDirs (dir.text.length + 2) t dir

/-- Writes a file. A path that ends in a slash means a directory, however long its last name is. -/
def write (t : FileTree) (p : Path) (bytes : ByteArray) : Except FileCause FileTree :=
  match t.newPlace p with
  | .error cause => .error cause
  | .ok (_, none) => .error .isDirectory
  | .ok (l, some name) =>
    if p.text.toList.getLast? == some '/' then .error .isDirectory
    else if name.utf8ByteSize > maxName then .error .tooLong
    else
      match t.get? (l ++ [name]) with
      | some .dir => .error .isDirectory
      | _ => .ok (t.put (l ++ [name]) (.file bytes))

/-- The tree with a file at a path and directories for it. A file that cannot be there is left
out. -/
def withFile (t : FileTree) (p : Path) (bytes : ByteArray) : FileTree :=
  let made := match p.parent? with
    | some dir => t.makeDirsFor dir
    | none => .ok t
  match made with
  | .error _ => t
  | .ok t =>
    match t.write p bytes with
    | .ok t => t
    | .error _ => t

/-- The files below the directory that the command runs in, by their paths from there. -/
def ownFiles (t : FileTree) : List (Path × ByteArray) :=
  let own := t.files.filterMap fun f =>
    if t.here.isPrefixOf f.1 then
      some (Path.mk ("/".intercalate (f.1.drop t.here.length)), f.2)
    else none
  own.mergeSort fun a b => a.1.order b.1 != .gt

end FileTree

end RubyJs
