import RubyJs.Bundle
import RubyJs.SourceUnit

set_option autoImplicit false

/-! # Builds

A build walks over the dependencies of its entry, depth first, and emits each unit once, after the
units it needs. Units to be loaded ahead are walked first. A unit counts as visited from the moment
its walk begins, so that a circle of needs ends there:

    main → a → b → a        emitted: b, a, main

Names that the host has loaded are never emitted; stubbed names are emitted as empty modules.
-/

namespace RubyJs

/-- Names in order, each once. -/
def insertName (name : String) : List String → List String
  | [] => [name]
  | n :: ns =>
    match compare name n with
    | .lt => name :: n :: ns
    | .eq => n :: ns
    | .gt => n :: insertName name ns

/-- The set of some names. -/
def nameSet (names : List String) : List String := names.foldl (fun s n => insertName n s) []

/-- How a build is done. -/
structure BuildOptions where
  /-- The names that are emitted as empty modules, whatever their text. -/
  stubs : List String := []
  /-- The names that the host has loaded. -/
  prerequired : List String := []
  /-- The names that are loaded ahead of the entry, in this order. -/
  preload : List String := []
  /-- The processor of a file without a known extension, and of an entry given as text. -/
  defaultProcessor : Processor := .ruby
  /-- Whether a comment tells the number of units. -/
  banner : Bool := false

/-- What a unit is for. -/
inductive Role where
  | module (preload : Bool)
  | entry
deriving DecidableEq, Repr

/-- A need that is to be followed. -/
inductive Pending where
  /-- A name that has no file yet. -/
  | name (name : String)
  /-- A unit of a tree, which has its file. -/
  | unit (unit : Resolved)

/-- The logical name of what is needed. -/
def Pending.logical : Pending → String
  | .name n => LogicalName.normalize n
  | .unit u => u.logical

/-- How far a build has come. -/
structure Walk where
  /-- The logical names that need no more work. -/
  visited : List String := []
  records : List Record := []
  edges : List Edge := []

namespace Walk

/-- Marks a name as visited. -/
def mark (w : Walk) (logical : String) : Walk := { w with visited := logical :: w.visited }

/-- Emits a unit. -/
def emit (w : Walk) (r : Record) : Walk := { w with records := w.records ++ [r] }

/-- Notes an edge. -/
def edge (w : Walk) (e : Edge) : Walk := { w with edges := w.edges ++ [e] }

end Walk

/-- What a build is done with. -/
structure Builder where
  reader : Reader
  options : BuildOptions := {}
  /-- The directories to search, in order. -/
  paths : List Path := []

namespace Builder

/-! ## Set-up -/

/-- Adds a directory to be searched last. -/
def appendPath (b : Builder) (p : Path) : Builder := { b with paths := b.paths ++ [p] }

/-- Adds a directory to be searched first. -/
def prependPath (b : Builder) (p : Path) : Builder := { b with paths := p :: b.paths }

/-- Removes all directories. -/
def resetPaths (b : Builder) : Builder := { b with paths := [] }

/-- What names are looked up with. -/
def resolver (b : Builder) : Resolver := ⟨b.reader, b.paths, b.options.defaultProcessor⟩

/-- Whether a logical name is stubbed. -/
def isStub (b : Builder) (logical : String) : Bool :=
  (b.options.stubs.map LogicalName.normalize).contains logical

/-- Whether the host has loaded a logical name. -/
def isPrerequired (b : Builder) (logical : String) : Bool :=
  (b.options.prerequired.map LogicalName.normalize).contains logical

/-! ## The walk -/

/-- A walk over a unit with a given role. -/
abbrev Visit := SourceUnit → Role → Walk → Except Failure Walk

/-- The file of what is needed. -/
def fileOf (b : Builder) (p : Pending) (source : String) : Except Failure Resolved :=
  match p with
  | .name n => b.resolver.resolve n source
  | .unit u => .ok u

/-- Follows a need of the unit `source`, by `visit` if it is a unit that was not visited. -/
def enter (b : Builder) (visit : Visit) (source : String) (kind : EdgeKind) (preload : Bool)
    (p : Pending) (w : Walk) : Except Failure Walk := do
  let logical := p.logical
  let w := w.edge ⟨source, logical, kind⟩
  if w.visited.contains logical then pure w
  else if b.isPrerequired logical then pure (w.mark logical)
  else if b.isStub logical then
    let c ← (SourceUnit.stub logical).asModule false
    pure ((w.emit ⟨logical, .module, c.javascript, preload⟩).mark logical)
  else
    let file ← b.fileOf p source
    let text ← b.reader.read file.path
    visit (SourceUnit.ofResolved file text) (.module preload) w

/-- Follows needs of one kind, in order. -/
def enterAll (b : Builder) (visit : Visit) (source : String) (kind : EdgeKind) (preload : Bool) :
    List Pending → Walk → Except Failure Walk
  | [], w => pure w
  | p :: ps, w => do
    let w ← b.enter visit source kind preload p w
    b.enterAll visit source kind preload ps w

/-- What a declaration of the unit `source` asks for. -/
def pending (b : Builder) (source : String) (d : Declaration) : Except Failure (List Pending) :=
  match d.kind with
  | .tree => do pure ((← b.resolver.expandTree d.name source).map Pending.unit)
  | _ => pure [.name d.name]

/-- Follows the declarations of the unit `source`, in order. -/
def followAll (b : Builder) (visit : Visit) (source : String) :
    List Declaration → Walk → Except Failure Walk
  | [], w => pure w
  | d :: ds, w => do
    let needs ← b.pending source d
    let w ← b.enterAll visit source d.kind false needs w
    b.followAll visit source ds w

/-- A unit as it is compiled for its role. -/
def compileFor (u : SourceUnit) : Role → Except Failure Compiled
  | .entry => u.asEntry false
  | .module _ => u.asModule false

/-- The record of a unit that is copied. -/
def nativeRecord (u : SourceUnit) : Role → Record
  | .entry => ⟨u.logical, .entry, u.text, false⟩
  | .module preload => ⟨u.logical, .native, u.text, preload⟩

/-- The record of a unit that is compiled. -/
def compiledRecord (u : SourceUnit) (javascript : String) : Role → Record
  | .entry => ⟨u.logical, .entry, javascript, false⟩
  | .module preload => ⟨u.logical, .module, javascript, preload⟩

/-- Visits a unit: what it needs is followed, then the unit is emitted. The first argument bounds
how deep needs can follow on needs. -/
def visit (b : Builder) : Nat → Visit
  | 0, _, _, _ => .error .endless
  | depth + 1, u, role, w => do
    let w := w.mark u.logical
    match u.processor with
    | .javascript => pure (w.emit (nativeRecord u role))
    | .ruby => do
      let c ← compileFor u role
      let w ← b.followAll (b.visit depth) u.logical c.declarations w
      pure (w.emit (compiledRecord u c.javascript role))

/-- A bound on how deep needs can follow on needs. A file has, seen from a search path and by
itself, a few logical names at most, and a name is visited once. -/
def depth (b : Builder) : Nat := 4 * (b.paths.length + 1) * b.reader.size + 2

/-! ## Builds -/

/-- The name that asks for what is loaded ahead. -/
def preloadRequester : String := "(preload)"

/-- The name that asks for the entry. -/
def entryRequester : String := "(entry)"

/-- The names that are not in `seen` and not named before, whatever their spelling. -/
def distinctNames (seen : List String) : List String → List String
  | [] => []
  | n :: ns =>
    let logical := LogicalName.normalize n
    if seen.contains logical then distinctNames seen ns
    else n :: distinctNames (logical :: seen) ns

/-- Walks over what is loaded ahead of the entry. -/
def preload (b : Builder) : Except Failure Walk :=
  b.enterAll (b.visit b.depth) preloadRequester .direct true
    ((distinctNames [] b.options.preload).map Pending.name) {}

/-- The bundle of a finished walk. -/
def finish (b : Builder) (w : Walk) : Artifact := assemble w.records w.edges b.options.banner

/-- The bundle of the unit `entry` and all it needs. -/
def build (b : Builder) (entry : String) : Except Failure Artifact := do
  let w ← b.preload
  let file ← b.resolver.resolve entry entryRequester
  if w.visited.contains file.logical then pure (b.finish w)
  else
    let text ← b.reader.read file.path
    let w ← b.visit b.depth (SourceUnit.ofResolved file text) .entry w
    pure (b.finish w)

/-- The bundle of an entry given as text. -/
def buildText (b : Builder) (text filename : String) : Except Failure Artifact := do
  let w ← b.preload
  let unit : SourceUnit :=
    { logical := LogicalName.normalize filename, path := ⟨filename⟩, text
      processor := b.options.defaultProcessor }
  let w ← b.visit b.depth unit .entry w
  pure (b.finish w)

end Builder

end RubyJs
