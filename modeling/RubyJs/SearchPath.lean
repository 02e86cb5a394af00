import RubyJs.Store

set_option autoImplicit false

/-! # Search paths

A name is looked up in a list of directories; the first one that has a file for it wins. A name with
an extension means that file only. A name without one means the file of that very name, then the one
with `.rb`, then the one with `.js`.
-/

namespace RubyJs

/-- A logical name and the file it stands for. -/
structure Resolved where
  logical : String
  path : Path
  processor : Processor
deriving DecidableEq, Repr

/-- What names are looked up with. -/
structure Resolver where
  reader : Reader
  /-- The directories to search, in order. -/
  paths : List Path
  /-- The processor of a file without a known extension. -/
  defaultProcessor : Processor

namespace Resolver

/-! ## Names -/

/-- The files that a folded name can mean below `base`, best first. -/
def candidates (r : Resolver) (cleaned : String) (explicit : Option Processor) (base : Path) :
    List (Path × Processor) :=
  match explicit with
  | some p => [(base.join cleaned, p)]
  | none =>
    [(base.join cleaned, r.defaultProcessor), (base.join (cleaned ++ ".rb"), .ruby),
      (base.join (cleaned ++ ".js"), .javascript)]

/-- The file for `name`, which the unit `requester` needs. -/
def resolve (r : Resolver) (name requester : String) : Except Failure Resolved :=
  let cleaned := LogicalName.fold name
  let (logical, explicit) := LogicalName.splitExtension cleaned
  match (r.paths.flatMap (r.candidates cleaned explicit)).find? (r.reader.isFile ·.1) with
  | some (path, processor) => .ok ⟨logical, path, processor⟩
  | none => .error (.unresolved logical requester)

/-! ## Trees -/

/-- The unit that a file below `base` is, if it has a known extension. -/
def treeUnit? (base path : Path) : Option Resolved :=
  match path.processor?, path.below? base with
  | some processor, some rest =>
    some ⟨LogicalName.normalize (Path.joinNames rest), path, processor⟩
  | _, _ => none

/-- Adds the units of files to those found. Two files for one logical name are refused. -/
def addUnits (base : Path) (found : List Resolved) : List Path → Except Failure (List Resolved)
  | [] => .ok found
  | path :: paths =>
    match treeUnit? base path with
    | none => addUnits base found paths
    | some u =>
      match found.find? (·.logical == u.logical) with
      | some previous => .error (.ambiguous u.logical previous.path path)
      | none => addUnits base (found ++ [u]) paths

/-- Units in the order of their paths. -/
def sortUnits (units : List Resolved) : List Resolved :=
  units.mergeSort fun a b => a.path.order b.path != .gt

/-- The units below `dir` in the first search path that has this directory. -/
def expandTree (r : Resolver) (dir requester : String) : Except Failure (List Resolved) :=
  let cleaned := LogicalName.fold dir
  match r.paths.find? fun base => r.reader.isDir (base.join cleaned) with
  | none => .error (.unresolved cleaned requester)
  | some base => do
    let files ← r.reader.walk (base.join cleaned)
    let units ← addUnits base [] files
    pure (sortUnits units)

end Resolver

end RubyJs
