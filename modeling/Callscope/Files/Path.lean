/-!
# Paths

A path is a list of names. Paths as they are shown have no empty names, no `.` and no slash at the end,
but keep `..`; a path that was given keeps every `.`, and a slash at its end asks for a directory. A null
character, which no path may have, is not looked for.
-/

namespace Callscope

structure Path where
  /-- Slashes at the beginning: none for a path from the working directory on, one or two otherwise. -/
  slashes : Nat
  parts : List String
  /-- Whether a slash at the end asks for a directory. -/
  asksDirectory : Bool
  deriving DecidableEq, Inhabited, Repr

namespace Path

/-- The names between the slashes of a text. -/
def splitSlashes (text : String) : List String :=
  (text.toList.splitOn '/').map String.ofList

def leadingSlashes (text : String) : Nat :=
  match (text.toList.takeWhile (· == '/')).length with
  | 0 => 0
  | 2 => 2
  | _ => 1

/-- The path of a text, in the form in which it is shown. -/
def ofText (text : String) : Path :=
  ⟨leadingSlashes text, (splitSlashes text).filter fun p => p ≠ "" && p ≠ ".", false⟩

/-- The path of a text as it was given. The empty text has an empty name, which no file has. -/
def asGiven (text : String) : Path :=
  if text = "" then ⟨0, [""], false⟩
  else ⟨leadingSlashes text, (splitSlashes text).filter (· ≠ ""), text.toList.getLast? = some '/'⟩

/-- The path as it is shown. -/
def text (p : Path) : String :=
  if p.slashes = 0 && p.parts.isEmpty then "."
  else String.ofList (List.replicate p.slashes '/') ++ "/".intercalate p.parts ++
    if p.asksDirectory && !p.parts.isEmpty then "/" else ""

/-- The path from the root on, where `here` leads to the working directory. -/
def absolute (p : Path) (here : List String) : Path :=
  if p.slashes = 0 then { p with slashes := 1, parts := here ++ p.parts } else p

/-- A name without its suffix. The last dot begins the suffix, unless it is the first or the last
character of the name. -/
def stem (name : List Char) : List Char :=
  let suffix := name.reverse.takeWhile (· != '.')
  let rest := name.length - suffix.length
  if suffix.length = name.length || suffix.isEmpty || rest ≤ 1 then name else name.take (rest - 1)

/-- A name with its suffix replaced. -/
def renameSuffix (suffix : String) (name : String) : String :=
  String.ofList (stem name.toList) ++ suffix

/-- The path with the suffix of its last name replaced. -/
def withSuffix (p : Path) (suffix : String) : Path :=
  match p.parts.getLast? with
  | none => p
  | some name => { p with parts := p.parts.dropLast ++ [renameSuffix suffix name] }

end Path

end Callscope
