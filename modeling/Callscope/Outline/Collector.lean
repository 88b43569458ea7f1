import Callscope.Outline.Basic
import Callscope.Outline.Log
import Callscope.Parse.Walk
import Callscope.Text.Literal

/-!
# Collecting an outline

A collector follows a walk through a parse tree and builds an outline on the way. It counts how deep it
is inside of classes, and knows which class is open at each depth and in which method it is. Parts of a
declaration are found by their position among its children and by how many children there are, so a
declaration in a form that is not foreseen makes a visit fail.

Every class declaration makes a class of its own. One that is declared under a name already taken takes
over the name from the older class. If the older one is still open, later methods, fields and calls of
it go to the class that has the name now; it then still goes by its own methods when it is asked
whether a method is known, and calls in a method of it that was open stay with that method.
-/

namespace Callscope

/-- Why a visit fails. -/
inductive Fault where
  | noClassName
  | otherClassName (found expected : String)
  /-- No class is open at a depth. -/
  | noOpenClass (depth : Int)
  /-- No class has a name. -/
  | noSuchClass (name : String)
  /-- A part of a declaration is not there. -/
  | noPart
  /-- A phrase was asked for a part and has none at all. -/
  | noParts
  deriving DecidableEq, Inhabited, Repr

namespace Fault

/-- The wording of a fault, where there is more to say than its kind. -/
def message? : Fault → Option String
  | noClassName => some "Class name is not found"
  | otherClassName found expected =>
    some ("Class name is " ++ found ++ " is not equal " ++ expected)
  | noOpenClass depth => some (toString depth)
  | noSuchClass name => some (Text.literal name)
  | noPart => none
  | noParts => none

end Fault

/-- A method by the number of its class and its name there. -/
structure MethodRef where
  owner : Nat
  name : String
  deriving DecidableEq, Inhabited, Repr

structure Collector where
  package : String := ""
  imports : List String := []
  /-- The classes made so far, oldest first. A class is known by its number in this list. -/
  pool : List ClassEntry := []
  /-- The class that has a name. -/
  classes : Table String Nat := []
  /-- How many classes are open. -/
  depth : Int := 0
  /-- The open class at a depth. -/
  opened : Table Int Nat := []
  /-- The method that calls belong to. -/
  method : Option MethodRef := none
  deriving DecidableEq, Inhabited, Repr

namespace Collector

/-- The class of a number. -/
def entry (c : Collector) (i : Nat) : ClassEntry := c.pool.getD i {}

/-- What has been collected. A class that has lost its name is not part of it. -/
def outline (c : Collector) : Outline :=
  { package := c.package, imports := c.imports
    classes := c.classes.map fun (name, i) => (name, c.entry i) }

/-! ## Parts of a declaration -/

/-- The child at a position. A leaf has no children. -/
def child? (t : Tree) (i : Nat) : Except Fault (Option Tree) :=
  match t with
  | .node _ _ _ _ [] => .error .noParts
  | t => .ok t.children[i]?

/-- The child at a position, which must be there. -/
def child (t : Tree) (i : Nat) : Except Fault Tree := do
  match ← child? t i with
  | some c => pure c
  | none => throw .noPart

def childText (t : Tree) (i : Nat) : Except Fault String := return (← child t i).text

/-- The members at even positions. -/
def everyOther {α : Type} : List α → List α
  | [] => []
  | [a] => [a]
  | a :: _ :: as => a :: everyOther as

/-- The first phrase of a rule among the children. -/
def phraseText (r : Rule) (t : Tree) : Except Fault String :=
  match t.children.find? fun c => c.rule? = some r with
  | some c => .ok c.text
  | none => .error .noPart

def firstToken : Tree → Token
  | .node _ first _ _ _ => first
  | .token t => t
  | .skipped t => t
  | .missing _ => default

def lastToken? : Tree → Option Token
  | .node _ _ last _ _ => last
  | _ => none

/-! ## Declarations -/

/-- A line for those who want to follow the work. -/
def stage (c : Collector) (text : String) : Noted Fault Unit :=
  .note .debug ("deep=" ++ toString c.depth ++ " - " ++ text)

/-- The class that is open at the depth reached. -/
def innermost (c : Collector) : Except Fault Nat :=
  match c.opened.get? c.depth with
  | some i => .ok i
  | none => .error (.noOpenClass c.depth)

/-- The class that has a name. -/
def classNamed (c : Collector) (name : String) : Except Fault Nat :=
  match c.classes.get? name with
  | some i => .ok i
  | none => .error (.noSuchClass name)

/-- The names of an `implements` part: every other child, since commas stand between them. -/
def implementsPart (c : Collector) (t : Tree) : Noted Fault (List String) := do
  c.stage ("parse_implements_block: " ++ t.text)
  pure ((everyOther t.children).map Tree.text)

/-- The head of a class declaration. -/
structure ClassHead where
  name : String
  extends_ : String := ""
  implements : Option (List String) := none

/-- Reads the head of a class by the number of children: seven with both an `extends` and an
`implements` part, five with one of the two, three with none. Two are taken for a body that belongs to
the innermost open class. No other number is foreseen. -/
def headParts (c : Collector) (t : Tree) (second : String) : Noted Fault ClassHead :=
  match t.children.length with
  | 7 => do
    let extends_ ← .lift (do childText (← child t 3) 0)
    let names ← c.implementsPart (← .lift (child t 5))
    pure { name := second, extends_, implements := some names }
  | 5 => do
    match ← .lift (childText t 2) with
    | "implements" => do
      let names ← c.implementsPart (← .lift (child t 3))
      pure { name := second, implements := some names }
    | "extends" => do
      let extends_ ← .lift (do childText (← child t 3) 0)
      pure { name := second, extends_ }
    | _ => pure { name := second }
  | 3 => pure { name := second }
  | 2 => do pure { name := (c.entry (← .lift c.innermost)).name }
  | _ => pure { name := "" }

/-- The head of a class, which must have a name. -/
def classHead (c : Collector) (t : Tree) : Noted Fault ClassHead := do
  let second ← .lift (childText t 1)
  c.stage ("parse_class_block: " ++ second)
  let head ← c.headParts t second
  if head.name = "" then .fail .noClassName else pure head

/-- The parameters in a pair of brackets: of every other phrase between the brackets the first child
is the type and the second the name. -/
def parametersPart (c : Collector) (t : Tree) : Noted Fault (List Param) := do
  c.stage ("parse_method_params_block: " ++ t.text)
  match t.children with
  | [_, list, _] =>
    .lift ((everyOther list.children).mapM fun p => do
      let type ← childText p 0
      let name ← childText p 1
      pure { name, type })
  | _ => pure []

/-- Makes a class and gives it its name. -/
def declare (c : Collector) (head : ClassHead) : Collector :=
  let entry : ClassEntry :=
    { name := head.name, extends_ := head.extends_, implements := head.implements }
  { c with pool := c.pool ++ [entry], classes := c.classes.put head.name c.pool.length }

/-- Changes the class of a number. -/
def onClass (c : Collector) (i : Nat) (f : ClassEntry → ClassEntry) : Collector :=
  { c with pool := c.pool.modify i f }

/-! ## Work on a collector -/

/-- Work that notes lines and ends with a result or a fault. What it changed before a fault stays
changed. -/
def Work (α : Type) : Type := Collector → Noted Fault α × Collector

namespace Work

variable {α β : Type}

protected def pure (a : α) : Work α := fun c => (.pure a, c)

protected def bind (x : Work α) (f : α → Work β) : Work β := fun c =>
  match x c with
  | (⟨log, .error e⟩, c) => (⟨log, .error e⟩, c)
  | (⟨log, .ok a⟩, c) =>
    let (noted, c) := f a c
    (⟨log ++ noted.log, noted.result⟩, c)

instance : Monad Work where
  pure := Work.pure
  bind := Work.bind

/-- Reads from the collector. -/
def look (f : Collector → Noted Fault α) : Work α := fun c => (f c, c)

/-- Changes the collector. -/
def change (f : Collector → Collector) : Work Unit := fun c => (.pure (), f c)

end Work

open Work

def enterClass (t : Tree) : Work Unit := do
  look fun c => do
    let second ← .lift (childText t 1)
    c.stage ("enterClassDeclaration: " ++ toString (firstToken t).line ++ " " ++ second)
  let head ← look fun c => c.classHead t
  change fun c => { c with depth := c.depth + 1 }
  change fun c => c.declare head
  let i ← look fun c => .lift (c.classNamed head.name)
  change fun c => { c with opened := c.opened.put c.depth i }

def exitClass (t : Tree) : Work Unit := do
  look fun c => do
    let second ← .lift (childText t 1)
    c.stage ("exitClassDeclaration: " ++ toString (firstToken t).line ++ " " ++ second)
  let _ ← look fun c => .lift c.innermost
  change fun c => { c with opened := c.opened.erase c.depth }
  change fun c => { c with depth := c.depth - 1 }

/-- A field belongs to the class four phrases around it, which must go by the name of the innermost
open one. -/
def enterField (t : Tree) (around : List Tree) : Work Unit := do
  look fun c =>
    c.stage ("enterFieldDeclaration: " ++ toString (firstToken t).line ++ " " ++ t.text)
  match around[3]? with
  | none => look fun _ => .fail .noPart
  | some owner => do
    let head ← look fun c => c.classHead owner
    let name ← look fun c => .lift do return (c.entry (← c.innermost)).name
    if head.name ≠ name then look fun _ => .fail (.otherClassName head.name name)
    else do
      let i ← look fun c => .lift (c.classNamed name)
      let type ← look fun _ => .lift (childText t 0)
      let define ← look fun _ => .lift (childText t 1)
      change fun c => c.onClass i fun e => { e with fields := e.fields ++ [⟨type, define⟩] }

/-- What is kept of a method declaration. -/
def methodPart (c : Collector) (t : Tree) (around : List Tree) (name : String) :
    Noted Fault Method := do
  let returnType ← .lift (childText t 0)
  match lastToken? t with
  | none => .fail .noPart
  | some last => do
    let parameters ← c.parametersPart (← .lift (child t 2))
    pure { name, start := (firstToken t).line, stop := last.line, depth := around.length + 1,
           parameters, returnType }

/-- A method is kept unless the innermost open class knows one of the same name. -/
def enterMethod (t : Tree) (around : List Tree) : Work Unit := do
  let name ← look fun _ => .lift (childText t 1)
  look fun c =>
    c.stage ("enterMethodDeclaration: " ++ toString (firstToken t).line ++ " " ++ name)
  let k ← look fun c => .lift do return c.entry (← c.innermost)
  if k.methods.has name then
    look fun _ => .note .warning (name ++ " is a overloading, ignore it in this version.")
  else do
    let m ← look fun c => c.methodPart t around name
    let i ← look fun c => .lift (c.classNamed k.name)
    change fun c => c.onClass i fun e => { e with methods := e.methods.put name m }
    let i ← look fun c => .lift (c.classNamed k.name)
    change fun c => { c with method := some ⟨i, name⟩ }

def exitMethod (t : Tree) : Work Unit := do
  look fun c => do
    let name ← .lift (childText t 1)
    c.stage ("exitMethodDeclaration: " ++ toString (firstToken t).line ++ " " ++ name)
  change fun c => { c with method := none }

/-- A call belongs to the open method, or else to the innermost open class. -/
def enterCall (t : Tree) : Work Unit := do
  let first := firstToken t
  look fun c => c.stage ("enterMethodCall: " ++ toString first.line ++ " " ++ t.text)
  let value ← look fun _ => .lift (childText t 0)
  let call : Call := ⟨value, first.line, first.column⟩
  match ← look fun c => pure c.method with
  | none => do
    let i ← look fun c => .lift do c.classNamed (c.entry (← c.innermost)).name
    change fun c => c.onClass i fun e => { e with calls := e.calls ++ [call] }
  | some m =>
    change fun c => c.onClass m.owner fun e =>
      { e with methods := e.methods.modify m.name fun m => { m with calls := m.calls ++ [call] } }

def enterPackage (t : Tree) : Work Unit := do
  look fun c =>
    c.stage ("enterPackageDeclaration: " ++ toString (firstToken t).line ++ " " ++ t.text)
  let name ← look fun _ => .lift (phraseText .qualifiedName t)
  change fun c => { c with package := name }

def exitPackage (t : Tree) : Work Unit :=
  look fun c => c.stage ("exitPackageDeclaration: " ++ toString (firstToken t).line ++ " " ++ t.text)

def enterImport (t : Tree) : Work Unit := do
  look fun c =>
    c.stage ("enterImportDeclaration: " ++ toString (firstToken t).line ++ " " ++ t.text)
  let name ← look fun _ => .lift (phraseText .qualifiedName t)
  change fun c => { c with imports := c.imports ++ [name] }

/-- One visit of a walk. -/
def visit : Visit → Work Unit
  | .enter t around =>
    match t.rule? with
    | some .packageDeclaration => enterPackage t
    | some .importDeclaration => enterImport t
    | some .classDeclaration => enterClass t
    | some .fieldDeclaration => enterField t around
    | some .methodDeclaration => enterMethod t around
    | some .methodCall => enterCall t
    | some .enumDeclaration => do
      look fun c => c.stage "enterEnumDeclaration as enterClassDeclaration"
      enterClass t
    | _ => pure ()
  | .exit t _ =>
    match t.rule? with
    | some .packageDeclaration => exitPackage t
    | some .classDeclaration => exitClass t
    | some .methodDeclaration => exitMethod t
    | some .enumDeclaration => do
      look fun c => c.stage "exitEnumDeclaration as exitClassDeclaration"
      exitClass t
    | _ => pure ()
  | .leaf _ => pure ()

/-- The end of a walk: the collector that the last visit left behind, the fault that ended the walk,
how many visits succeeded and what was noted. -/
structure Walked where
  collector : Collector
  fault : Option Fault
  done : Nat
  log : List LogLine
  deriving Inhabited

/-- Follows visits until one fails. -/
def follow (c : Collector) : List Visit → Walked
  | [] => ⟨c, none, 0, []⟩
  | v :: vs =>
    match visit v c with
    | (⟨log, .error f⟩, c) => ⟨c, some f, 0, log⟩
    | (⟨log, .ok ()⟩, c) =>
      let rest := follow c vs
      { rest with done := rest.done + 1, log := log ++ rest.log }

/-- Follows the walk through a tree. -/
def collect (c : Collector) (t : Tree) : Walked := c.follow t.walk

end Collector

end Callscope
