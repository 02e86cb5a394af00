import RubyJs.Build
import RubyJs.Command.Arguments
import RubyJs.Library

set_option autoImplicit false

/-! # The command

Compiles or bundles the entry that the arguments name and writes the result. The command sees a file
tree and its standard input; its outcome is a text for the standard output and the tree afterwards.
-/

namespace RubyJs.Command

/-! ## Errors -/

/-- Why a run fails. -/
inductive RunError where
  /-- Something failed, in a step that has a name if it is set. -/
  | failure (step : Option String) (failure : Failure)
  /-- A file cannot be read or written in a named step. -/
  | file (step : String) (cause : FileCause)

/-- A cause and the causes it has itself. -/
def causeChain : FileCause → List String
  | .listing dir cause => FileCause.text (.listing dir cause) :: causeChain cause
  | cause => [cause.text]

/-- A failure and its causes. -/
def failureChain (f : Failure) : List String :=
  f.message ::
    match f with
    | .source _ cause => causeChain cause
    | .parse error => [error.message]
    | _ => []

/-- An error and its causes. -/
def RunError.chain : RunError → List String
  | .failure step f => step.toList ++ failureChain f
  | .file step cause => step :: causeChain cause

/-- The text of an error. -/
def RunError.message (e : RunError) : String := ": ".intercalate e.chain

/-! ## Runs -/

/-- How a run ends. -/
structure Outcome where
  error : Option RunError := none
  stdout : String := ""
  tree : FileTree

namespace Outcome

/-- The files that were not there before, by their paths. -/
def written (o : Outcome) (before : FileTree) : List (Path × ByteArray) :=
  let old := before.ownFiles.map (·.1)
  o.tree.ownFiles.filter fun f => !old.contains f.1

end Outcome

/-- The text of the entry and the name it is compiled under. -/
def readInput (i : Invocation) (t : FileTree) (stdin : String) :
    Except RunError (String × String) :=
  match i.input with
  | none => .ok (stdin, "(stdin)")
  | some path =>
    match t.readText path with
    | .error cause => .error (.file ("failed to read input file " ++ path.text) cause)
    | .ok text => .ok (text, path.fileName?.getD path.text)

/-- The directories that are searched before the library. -/
def searchPaths (i : Invocation) : List Path :=
  i.includes ++
    match i.input.bind Path.parent? with
    | none => []
    | some dir => [if dir.text.isEmpty then ⟨"."⟩ else dir]

/-- The builder for an invocation. The library is searched last, and its runtime is loaded first. -/
def builder (i : Invocation) (t : FileTree) : Except RunError Builder :=
  let options : BuildOptions :=
    { stubs := nameSet i.stubs, prerequired := nameSet i.prerequired, preload := i.preload
      banner := !i.noBanner }
  if i.noStdlib then .ok { reader := t.reader, options, paths := searchPaths i }
  else
    match Library.ensureRoot t.reader (i.stdlib.getD Library.root) with
    | .error f => .error (.failure none f)
    | .ok root =>
      .ok
        { reader := t.reader
          options := { options with preload := Library.runtimeUnit :: options.preload }
          paths := searchPaths i ++ [root] }

/-- A result of a named step. -/
def inStep {α : Type} (step : String) (r : Except Failure α) : Except RunError α :=
  r.mapError (RunError.failure (some step))

/-- The text of the entry compiled alone. -/
def unitText (i : Invocation) (t : FileTree) (stdin : String) : Except RunError String := do
  let (text, file) ← readInput i t stdin
  let c ← inStep ("failed to compile " ++ file)
    (compile text { file, requirable := i.requirable, banner := !i.noBanner })
  pure c.javascript

/-- The bundle of the entry. -/
def artifact (i : Invocation) (t : FileTree) (stdin : String) : Except RunError Artifact := do
  let b ← builder i t
  match i.entry with
  | some entry => inStep ("failed to build " ++ entry) (b.build entry)
  | none => do
    let (text, file) ← readInput i t stdin
    inStep ("failed to build " ++ file) (b.buildText text file)

/-- The text that an invocation asks for. -/
def resultText (i : Invocation) (t : FileTree) (stdin : String) : Except RunError String :=
  match i.emit.getD .bundle with
  | .unit => unitText i t stdin
  | .bundle => (artifact i t stdin).map (·.text)
  | .deps => (artifact i t stdin).map (·.edgeText)

/-- Makes the directory that a file will stand in. -/
def makeParent (path : Path) (t : FileTree) : Except RunError FileTree :=
  match path.parent? with
  | none => .ok t
  | some dir =>
    (t.makeDirsFor dir).mapError
      (RunError.file ("failed to create directory " ++ Text.quoted dir.text))

/-- Writes the result to the standard output, or to a file if one is named. -/
def writeResult (i : Invocation) (t : FileTree) (text : String) : Outcome :=
  match i.output with
  | none => { stdout := text, tree := t }
  | some path =>
    match makeParent path t with
    | .error e => { error := some e, tree := t }
    | .ok made =>
      match made.write path text.toUTF8 with
      | .error cause =>
        { error := some (.file ("failed to write output file " ++ path.text) cause), tree := made }
      | .ok after => { tree := after }

/-- Runs an invocation. -/
def execute (i : Invocation) (t : FileTree) (stdin : String) : Outcome :=
  match resultText i t stdin with
  | .error e => { error := some e, tree := t }
  | .ok text => writeResult i t text

/-- Runs the command with these arguments. -/
def run (args : List String) (t : FileTree) (stdin : String) : Except UsageError Outcome := do
  let i ← Invocation.ofArgs args
  pure (execute i t stdin)

end RubyJs.Command
