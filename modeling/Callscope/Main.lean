import Callscope.Run.Arguments
import Callscope.Run.Job

/-!
# The command line

Reads the arguments, puts what a job can ask for on a disk, runs the job there and writes the files that
have changed. All the rest is done by `CommandLine.parse` and `Job.run`.
-/

namespace Callscope

namespace CommandLine

def failureText : Failure → String
  | .file .notFound => "no such file"
  | .file .isADirectory => "a directory, not a file"
  | .file .notADirectory => "not a directory"
  | .notText => "not a UTF-8 text"
  | .fault f => f.message?.getD "the outline cannot be read"
  | .noPath => "no path"
  | .unfinished => "too many steps"

/-- The text of the path from the root to a location. -/
def absoluteText (l : Location) : String := Path.text ⟨1, l, false⟩

/-- Puts on a disk what is at a location. What is neither a file nor a directory is taken for the null
device. -/
def load (d : Disk) (l : Location) : IO Disk := do
  let path := (← IO.currentDir) / absoluteText l
  if l.isEmpty || !(← path.pathExists) then return d
  match (← path.metadata).type with
  | .file => return d.put l (.file (← IO.FS.readBinFile path))
  | .dir => return d.put l .directory
  | _ => return d.put l .nullDevice

/-- Puts on a disk what is below a directory, as far as a job can ask for it: sources, graphs and
directories. A directory that is a link is not entered. -/
partial def loadBelow (d : Disk) (l : Location) : IO Disk := do
  let path := (← IO.currentDir) / absoluteText l
  (← path.readDir).foldlM (fun d child => do
    let m := l ++ [child.fileName]
    if (← child.path.symlinkMetadata).type == .dir then loadBelow (d.put m .directory) m
    else if Disk.endsIn ".java" m || Disk.endsIn ".dot" m then load d m
    else return d) d

/-- All that a job for a path can ask for. -/
def snapshot (input : Option String) : IO Disk := do
  let d := Disk.blank (Path.ofText (← IO.currentDir).toString).parts
  let some input := input.map Path.ofText | return d
  let d ← (d.passed input ++ d.passed (input.withSuffix ".dot")).foldlM load d
  let .ok l := d.locate input | return d
  match d.entry? l with
  | some .directory => loadBelow d l
  | _ => return d

end CommandLine

end Callscope

open Callscope in
def main (args : List String) : IO UInt32 := do
  match CommandLine.parse args with
  | .error e =>
    IO.eprint (CommandLine.errorText e)
    return 2
  | .ok .help =>
    IO.print CommandLine.helpText
    return 0
  | .ok (.run input verbose) =>
    let d ← CommandLine.snapshot input
    let (left, job) := Job.run d input
    for (l, bytes) in left.newFiles d do
      IO.FS.writeBinFile (CommandLine.absoluteText l) bytes
    IO.eprint job.console
    for line in LogLine.shown verbose job.log do
      IO.eprintln (line.level.name ++ " | " ++ line.message)
    match job.result with
    | .ok _ => return 0
    | .error e =>
      IO.eprintln (CommandLine.failureText e)
      return 1
