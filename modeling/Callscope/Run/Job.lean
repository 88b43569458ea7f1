import Callscope.Files.Disk
import Callscope.Outline.Collector
import Callscope.Outline.Dot
import Callscope.Run.Console
import Callscope.Text.Encoding

/-!
# From a file to a graph

Reads a Java source file, writes the graph of its calls, and says what came of it. No output is opened
unless the whole text could be read and collected. The graph is drawn and encoded when the output is
open already, and therefore empty. All that works on a disk gives the disk as it is left, whether or not
it fails.
-/

namespace Callscope

/-- Why a job fails. -/
inductive Failure where
  | file (e : FileError)
  /-- Bytes that are read or code points that are written are not a text. -/
  | notText
  | fault (f : Fault)
  /-- No path was given. -/
  | noPath
  /-- Reading the text took more steps than allowed. -/
  | unfinished
  deriving Inhabited

/-- A result or a failure, with the messages and log lines up to then. -/
structure Job (α : Type) where
  console : String
  log : List LogLine
  result : Except Failure α

namespace Job

variable {α β : Type}

protected def pure (a : α) : Job α := ⟨"", [], .ok a⟩

protected def bind (x : Job α) (f : α → Job β) : Job β :=
  match x.result with
  | .error e => ⟨x.console, x.log, .error e⟩
  | .ok a => let y := f a; ⟨x.console ++ y.console, x.log ++ y.log, y.result⟩

instance : Monad Job where
  pure := Job.pure
  bind := Job.bind

def note (level : LogLevel) (message : String) : Job Unit := ⟨"", [⟨level, message⟩], .ok ()⟩

def ofFile (r : Except FileError α) : Job α := ⟨"", [], r.mapError .file⟩

/-- The outline of a source text. -/
def outlined (bytes : ByteArray) : Job Outline :=
  match String.fromUTF8? bytes with
  | none => ⟨"", [], .error .notText⟩
  | some text =>
    match Parse.ofText? text .compilationUnit 0 with
    | none => ⟨"", [], .error .unfinished⟩
    | some p =>
      let walked := ({} : Collector).collect p.tree
      match walked.fault with
      | some f => ⟨p.console, walked.log, .error (.fault f)⟩
      | none => ⟨p.console, walked.log, .ok walked.collector.outline⟩

/-- Writes the graph of an outline: the disk as it is left, whether or not this fails. -/
def deliver (d : Disk) (o : Outline) (output : Path) : Disk × Except Failure Unit :=
  match d.openEmpty output with
  | .error e => (d, .error (.file e))
  | .ok (d, l) =>
    match Text.encode? (Text.codes o.dot) with
    | none => (d, .error .notText)
    | some bytes => (d.fill l bytes, .ok ())

/-- Reads one file and writes its graph to another, if one is given: the disk as it is left, whether or
not this fails. -/
def perform (d : Disk) (input : Path) (output : Option Path) : Disk × Job Unit :=
  let read := ofFile (d.read input) >>= outlined
  match read.result, output with
  | .error e, _ => (d, { read with result := .error e })
  | .ok _, none => (d, { read with result := .ok () })
  | .ok o, some path =>
    let (d, result) := deliver d o path
    (d, { read with result })

/-- The output that a text asks for. The empty text asks for none. -/
def target (output : Option String) : Option Path := (output.filter (· ≠ "")).map Path.asGiven

/-- Reads the file at a path and writes its graph to another path, if one is given. Both are given as
texts. -/
def convert (d : Disk) (input : String) (output : Option String) : Disk × Job Unit :=
  perform d (.asGiven input) (target output)

/-- Notes whether there is a graph of a file now. -/
def outcome (written : Bool) (progress : String) (input : Path) : Job Unit :=
  let head := "[" ++ progress ++ "] create java callgraph "
  if written then note .info (head ++ "success for " ++ input.text)
  else note .error (head ++ "failed for " ++ input.text)

/-- Converts a file by the texts of its absolute path and that of the output, and notes whether there is
an output now. -/
def create (d : Disk) (input output : Path) (progress : String) : Disk × Job Unit :=
  let (d, job) := convert d (input.absolute d.here).text (some (output.absolute d.here).text)
  (d, job >>= fun _ => outcome (d.isFile output) progress input)

/-- The number of a file among all files. -/
def progress (i total : Nat) : String := toString i ++ "/" ++ toString total

/-- The source files at a path: the file itself, or what lies below a directory. -/
def sources (d : Disk) (input : Path) : List Path :=
  if d.isFile input then [input] else d.below input ".java"

/-- Converts source files one after the other, each to a graph beside it, until one fails. `done` of
`total` files are done already. -/
def createAll (d : Disk) (done total : Nat) : List Path → Disk × Job Unit
  | [] => (d, pure ())
  | p :: ps =>
    let (d, job) := create d p (p.withSuffix ".dot") (progress (done + 1) total)
    match job.result with
    | .error _ => (d, job)
    | .ok _ =>
      let (d, rest) := createAll d (done + 1) total ps
      (d, job >>= fun _ => rest)

/-- Converts all source files at a path. -/
def all (d : Disk) (input : Path) : Disk × Job Unit :=
  let ps := sources d input
  createAll d 0 ps.length ps

/-- Converts all source files at a path that may be missing. -/
def run (d : Disk) : Option String → Disk × Job Unit
  | none => (d, ⟨"", [], .error .noPath⟩)
  | some input => all d (Path.ofText input)

end Job

end Callscope
