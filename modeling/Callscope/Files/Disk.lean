import Callscope.Files.Path

/-!
# Files

The entries of a disk, each at a location of its own from the root on, and the working directory, from
which paths without a slash at the beginning lead on. An entry is a file, a directory or the null device.
There are no links, so an entry has no other location, and what may be read or written is not restricted.
-/

namespace Callscope

inductive FileError where
  | notFound
  | isADirectory
  | notADirectory
  deriving DecidableEq, Inhabited, Repr

inductive Entry where
  | file (bytes : ByteArray)
  | directory
  /-- Takes everything and gives nothing. -/
  | nullDevice
  deriving Inhabited

/-- The names that lead from the root to an entry. -/
abbrev Location := List String

/-- Where a name leads from a location. Above the root there is the root. -/
def Location.step (l : Location) (name : String) : Location :=
  if name = "." then l else if name = ".." then l.dropLast else l ++ [name]

structure Disk where
  /-- The location of the working directory. -/
  here : Location
  /-- All entries but the root. -/
  entries : List (Location × Entry)
  deriving Inhabited

namespace Disk

/-- The entry at a location. The root is always there. -/
def entry? (d : Disk) (l : Location) : Option Entry :=
  if l.isEmpty then some .directory else d.entries.lookup l

/-- Puts an entry at a location. -/
def put (d : Disk) (l : Location) (e : Entry) : Disk :=
  if d.entries.any fun x => x.1 == l then
    { d with entries := d.entries.map fun x => if x.1 == l then (l, e) else x }
  else { d with entries := d.entries ++ [(l, e)] }

/-- Follows names from a location on. Every location that is passed must be a directory. -/
def follow (d : Disk) (l : Location) : List String → Except FileError Location
  | [] => .ok l
  | name :: names =>
    match d.entry? l with
    | none => .error .notFound
    | some .directory => follow d (l.step name) names
    | some _ => .error .notADirectory

/-- Where a path begins: at the root or at the working directory. -/
def start (d : Disk) (p : Path) : Location := if p.slashes = 0 then d.here else []

/-- The locations that a path leads through, and the one that it leads to. -/
def passed (d : Disk) (p : Path) : List Location := p.parts.scanl Location.step (d.start p)

/-- The location that a path leads to, apart from a slash at its end, whether or not there is an entry. -/
def locate (d : Disk) (p : Path) : Except FileError Location := d.follow (d.start p) p.parts

def read (d : Disk) (p : Path) : Except FileError ByteArray := do
  match d.entry? (← d.locate p) with
  | none => throw .notFound
  | some .directory => throw .isADirectory
  | some .nullDevice => if p.asksDirectory then throw .notADirectory else pure ByteArray.empty
  | some (.file bytes) => if p.asksDirectory then throw .notADirectory else pure bytes

/-- Opens a file to be written: it is there from now on, and empty. A new one needs a directory to be
in. -/
def openEmpty (d : Disk) (p : Path) : Except FileError (Disk × Location) := do
  let l ← d.locate p
  if p.asksDirectory then throw .isADirectory
  match d.entry? l with
  | some .directory => throw .isADirectory
  | some .nullDevice => pure (d, l)
  | _ => pure (d.put l (.file ByteArray.empty), l)

/-- Whether the null device is at a location. -/
def isDevice (d : Disk) (l : Location) : Bool :=
  match d.entry? l with
  | some .nullDevice => true
  | _ => false

/-- Writes all that is in a file which is open. -/
def fill (d : Disk) (l : Location) (bytes : ByteArray) : Disk :=
  if d.isDevice l then d else d.put l (.file bytes)

/-- Writes a file. -/
def write (d : Disk) (p : Path) (bytes : ByteArray) : Except FileError Disk := do
  let (d, l) ← d.openEmpty p
  pure (d.fill l bytes)

/-- Whether there is a file at a path. The null device is none. -/
def isFile (d : Disk) (p : Path) : Bool :=
  match d.locate p with
  | .ok l => match d.entry? l with
    | some (.file _) => true
    | _ => false
  | _ => false

/-- Lexicographic order of lists of names. -/
def namesLe : List String → List String → Bool
  | [], _ => true
  | _ :: _, [] => false
  | a :: as, b :: bs => if a = b then namesLe as bs else a < b

/-- Whether the last name of a location ends in a text. -/
def endsIn (suffix : String) (l : Location) : Bool :=
  match l.getLast? with
  | some name => suffix.toList.isSuffixOf name.toList
  | none => false

/-- What lies below the directory at a path and has a name that ends in a text, directories too, in
order. Nothing lies below what is not a directory. -/
def below (d : Disk) (p : Path) (suffix : String) : List Path :=
  match d.locate p with
  | .ok l =>
    match d.entry? l with
    | some .directory =>
      let found := (d.entries.map Prod.fst).filter fun k =>
        l.isPrefixOf k && l.length < k.length && endsIn suffix k
      (found.mergeSort namesLe).map fun k => { p with parts := p.parts ++ k.drop l.length }
    | _ => []
  | _ => []

/-! ## Making disks -/

/-- The directories around a location and below the root, outermost first. -/
def ancestors : Location → List Location
  | [] => []
  | [_] => []
  | name :: names => [name] :: (ancestors names).map (name :: ·)

/-- Makes a directory where there is nothing yet. -/
def makeDirectory (d : Disk) (l : Location) : Disk :=
  if (d.entry? l).isNone then d.put l .directory else d

/-- Puts an entry at a location, and the directories around it where there is nothing yet. -/
def create (d : Disk) (l : Location) (e : Entry) : Disk :=
  ((ancestors l).foldl makeDirectory d).put l e

/-- A disk with an empty working directory and the null device. -/
def blank (here : Location) : Disk :=
  let d := create ⟨here, []⟩ ["dev", "null"] .nullDevice
  ((ancestors here).foldl makeDirectory d).makeDirectory here

/-- The files that are not on another disk as they are on this one. -/
def newFiles (d old : Disk) : List (Location × ByteArray) :=
  d.entries.filterMap fun (l, e) => match e, old.entry? l with
    | .file bytes, some (.file before) => if before == bytes then none else some (l, bytes)
    | .file bytes, _ => some (l, bytes)
    | _, _ => none

/-- The files below the working directory whose name ends in a text, with their contents, in order. -/
def filesEndingIn (d : Disk) (suffix : String) : List (Path × ByteArray) :=
  let found := d.entries.filterMap fun (l, e) => match e with
    | .file bytes =>
      if d.here.isPrefixOf l && endsIn suffix l then some (l.drop d.here.length, bytes) else none
    | _ => none
  (found.mergeSort fun a b => namesLe a.1 b.1).map fun (l, bytes) => (⟨0, l, false⟩, bytes)

end Disk

end Callscope
