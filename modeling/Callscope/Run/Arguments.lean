import Callscope.Text.Literal

/-!
# Arguments of the command line

The options are `-h`, `-v` and `-i` with a value, also in their long forms. A long form may be cut short
as long as it is clear which one is meant, options of one letter may be written together, and a value may
follow its option directly or after an equals sign.
-/

namespace Callscope

namespace CommandLine

inductive Switch where
  | help | input | verbose
  deriving DecidableEq, Inhabited, Repr

namespace Switch

def letter : Switch → Char
  | help => 'h'
  | input => 'i'
  | verbose => 'v'

def short (s : Switch) : String := String.ofList ['-', s.letter]

def long : Switch → String
  | help => "--help"
  | input => "--input"
  | verbose => "--verbose"

/-- Both forms, as messages name a switch. -/
def both (s : Switch) : String := s.short ++ "/" ++ s.long

def all : List Switch := [help, input, verbose]

def ofLetter? (c : Char) : Option Switch := all.find? fun s => s.letter == c

/-- The switch of which this is a whole form. -/
def ofForm? (form : String) : Option Switch :=
  all.find? fun s => s.short == form || s.long == form

end Switch

/-- What goes wrong with the arguments. -/
inductive UsageError where
  | ambiguous (arg : String) (matching : List String)
  | valueMissing (s : Switch)
  | valueIgnored (s : Switch) (value : String)
  | inputMissing
  | unrecognized (args : List String)
  deriving Inhabited

namespace UsageError

def message : UsageError → String
  | ambiguous arg matching =>
    "ambiguous option: " ++ arg ++ " could match " ++ ", ".intercalate matching
  | valueMissing s => "argument " ++ s.both ++ ": expected one argument"
  | valueIgnored s value =>
    "argument " ++ s.both ++ ": ignored explicit argument " ++ Text.literal value
  | inputMissing => "the following arguments are required: " ++ Switch.input.both
  | unrecognized args => "unrecognized arguments: " ++ " ".intercalate args

end UsageError

/-- What an argument is by itself. -/
inductive Word where
  /-- A value, or something that no switch asks for. -/
  | plain
  /-- The mark after which everything is plain. -/
  | mark
  /-- A switch by its short or long form, with what is attached to it. -/
  | switch (s : Switch) (isShort : Bool) (attached : Option String)
  /-- It looks like a switch but is none. -/
  | unknown
  deriving Inhabited

/-- The text before and after the first equals sign. -/
def splitEquals (arg : String) : Option (String × String) :=
  match arg.toList.span (· != '=') with
  | (_, []) => none
  | (before, _ :: after) => some (String.ofList before, String.ofList after)

/-- Numbers are values even if they are negative. A line may end behind them. -/
def isNegativeNumber (arg : String) : Bool :=
  match arg.toList with
  | '-' :: cs =>
    let isNumeral (c : Char) : Bool := '0' ≤ c && c ≤ '9'
    let whole := cs.takeWhile isNumeral
    match cs.dropWhile isNumeral with
    | [] | ['\n'] => !whole.isEmpty
    | '.' :: fraction =>
      let rest := fraction.dropWhile isNumeral
      rest.length < fraction.length && (rest.isEmpty || rest == ['\n'])
    | _ => false
  | _ => false

/-- The switches whose long form begins like this. -/
def abbreviated (start : String) : List Switch :=
  Switch.all.filter fun s => start.toList.isPrefixOf s.long.toList

/-- An argument that begins with a dash and is neither a whole form nor a single dash. -/
def classifyDashed (arg : String) : Except UsageError Word :=
  let otherwise : Word := if isNegativeNumber arg || arg.toList.contains ' ' then .plain else .unknown
  match arg.toList with
  | '-' :: '-' :: _ =>
    let (start, attached) := match splitEquals arg with
      | some (start, value) => (start, some value)
      | none => (arg, none)
    match abbreviated start with
    | [] => .ok otherwise
    | [s] => .ok (.switch s false attached)
    | ss => .error (.ambiguous arg (ss.map Switch.long))
  | '-' :: c :: rest =>
    match Switch.ofLetter? c with
    | some s => .ok (.switch s true (some (String.ofList rest)))
    | none => .ok otherwise
  | _ => .ok otherwise

/-- What an argument is, if it does not come after the mark. -/
def classify (arg : String) : Except UsageError Word :=
  if arg = "--" then .ok .mark
  else if arg.toList.head? != some '-' || arg = "-" then .ok .plain
  else match Switch.ofForm? arg with
    | some s => .ok (.switch s (arg = s.short) none)
    | none =>
      match (splitEquals arg).bind fun (form, value) =>
          (Switch.ofForm? form).map fun s => (s, form, value) with
      | some (s, form, value) => .ok (.switch s (form = s.short) (some value))
      | none => classifyDashed arg

/-- The arguments, each with what it is. -/
def classifyAll : List String → Except UsageError (List (String × Word))
  | [] => .ok []
  | arg :: args => do
    match ← classify arg with
    | .mark => pure ((arg, .mark) :: args.map fun a => (a, .plain))
    | w => return (arg, w) :: (← classifyAll args)

/-- What has been read of the arguments. -/
structure Reading where
  /-- The value of the last `-i`. There is nothing in it if the mark was attached to `-i`. -/
  input : Option (Option String)
  verbose : Bool
  /-- Whether help was asked for; nothing is read after that. -/
  help : Bool
  /-- Arguments that belong to nothing, last first. -/
  extra : List String
  deriving Inhabited

/-- Where the value of `-i` comes from. -/
inductive ValueSource where
  /-- There is no `-i`. -/
  | absent
  | attached (value : String)
  /-- It is the next argument. -/
  | next
  deriving Inhabited

/-- What one argument sets: switches without a value, in order, and perhaps `-i` after them. -/
structure Setting where
  flags : List Switch
  input : ValueSource
  deriving Inhabited

/-- A switch with letters attached to it: each is a switch of its own, and `-i` takes the rest. -/
def readLetters (s : Switch) : List Char → Except UsageError Setting
  | [] => .ok (if s = .input then ⟨[], .next⟩ else ⟨[s], .absent⟩)
  | c :: cs =>
    if s = .input then .ok ⟨[], .attached (String.ofList (c :: cs))⟩
    else match Switch.ofLetter? c with
      | none => .error (.valueIgnored s (String.ofList (c :: cs)))
      | some next => do
        let rest ← readLetters next cs
        pure { rest with flags := s :: rest.flags }

/-- A switch with what is attached to it. -/
def readSwitch (s : Switch) (isShort : Bool) : Option String → Except UsageError Setting
  | none => readLetters s []
  | some value =>
    if s = .input then .ok ⟨[], .attached value⟩
    else if isShort && value ≠ "" then readLetters s value.toList
    else .error (.valueIgnored s value)

namespace Reading

/-- Takes over switches and perhaps a value. -/
def apply (r : Reading) (flags : List Switch) (value : Option String) : Reading :=
  { r with
    help := r.help || flags.contains .help
    verbose := r.verbose || flags.contains .verbose
    input := match value with
      | none => r.input
      | some v => some (if v = "--" then none else some v) }

end Reading

/-- Reads all arguments from left to right. -/
def readAll (r : Reading) : List (String × Word) → Except UsageError Reading
  | [] => .ok r
  | (arg, w) :: rest =>
    if r.help then .ok r
    else match w with
      | .plain | .mark | .unknown => readAll { r with extra := arg :: r.extra } rest
      | .switch s isShort attached =>
        match readSwitch s isShort attached with
        | .error e => .error e
        | .ok ⟨flags, .absent⟩ => readAll (r.apply flags none) rest
        | .ok ⟨flags, .attached value⟩ => readAll (r.apply flags (some value)) rest
        | .ok ⟨flags, .next⟩ =>
          match rest with
          | (value, .plain) :: rest => readAll (r.apply flags (some value)) rest
          | _ => .error (.valueMissing .input)

/-- What the arguments ask for. -/
inductive Request where
  | help
  /-- The source files at a path; there is no path if the mark was attached to `-i`. -/
  | run (input : Option String) (verbose : Bool)
  deriving Inhabited

/-- Reads the arguments of the command line. -/
def parse (args : List String) : Except UsageError Request := do
  let r ← readAll ⟨none, false, false, []⟩ (← classifyAll args)
  if r.help then pure .help
  else match r.input with
    | none => throw .inputMissing
    | some input =>
      if r.extra.isEmpty then pure (.run input r.verbose) else throw (.unrecognized r.extra.reverse)

def usage : String := "usage: process.py [-h] -i INPUT [-v]\n"

def helpText : String :=
  usage ++ "\nDemo of argparse\n\noptions:\n" ++
  "  -h, --help            show this help message and exit\n" ++
  "  -i INPUT, --input INPUT\n" ++
  "                        input file or directory\n" ++
  "  -v, --verbose         verbose mode\n"

/-- What is shown for arguments that are wrong. -/
def errorText (e : UsageError) : String := usage ++ "process.py: error: " ++ e.message ++ "\n"

end CommandLine

end Callscope
