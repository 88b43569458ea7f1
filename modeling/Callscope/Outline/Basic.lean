/-!
# Outlines

What is kept of a source text: its package and imports, and its classes with their fields, methods
and calls. Classes and methods are kept under a key in the order in which the keys first came up;
putting a new entry under a known key keeps the place of the key.
-/

namespace Callscope

/-- Entries under keys, in the order in which the keys first came up. -/
abbrev Table (κ α : Type) := List (κ × α)

namespace Table

def keys {κ α : Type} (t : Table κ α) : List κ := t.map Prod.fst

variable {κ α : Type} [DecidableEq κ]

def get? (t : Table κ α) (key : κ) : Option α := t.lookup key

def has (t : Table κ α) (key : κ) : Bool := (t.get? key).isSome

/-- Puts an entry under a key. -/
def put (key : κ) (a : α) : Table κ α → Table κ α
  | [] => [(key, a)]
  | (k, b) :: rest => if k = key then (k, a) :: rest else (k, b) :: put key a rest

/-- Changes the entry under a key, if there is one. -/
def modify (key : κ) (f : α → α) : Table κ α → Table κ α
  | [] => []
  | (k, b) :: rest => if k = key then (k, f b) :: rest else (k, b) :: modify key f rest

/-- Takes out the entry under a key, if there is one. -/
def erase (key : κ) : Table κ α → Table κ α
  | [] => []
  | (k, b) :: rest => if k = key then rest else (k, b) :: erase key rest

end Table

structure Param where
  name : String
  type : String
  deriving DecidableEq, Inhabited, Repr

structure Field where
  type : String
  define : String
  deriving DecidableEq, Inhabited, Repr

/-- A call of a method by its name. -/
structure Call where
  value : String
  line : Int
  column : Int
  deriving DecidableEq, Inhabited, Repr

structure Method where
  name : String := ""
  /-- The lines on which it starts and stops. -/
  start : Int := 0
  stop : Int := 0
  /-- The number of phrases around it, its own included. -/
  depth : Int := 0
  parameters : List Param := []
  returnType : String := ""
  calls : List Call := []
  deriving DecidableEq, Inhabited, Repr

structure ClassEntry where
  name : String := ""
  extends_ : String := ""
  /-- The interfaces of an `implements` part; none if there is no such part. -/
  implements : Option (List String) := some []
  fields : List Field := []
  methods : Table String Method := []
  /-- Calls outside of its methods. -/
  calls : List Call := []
  deriving DecidableEq, Inhabited, Repr

structure Outline where
  package : String := ""
  imports : List String := []
  classes : Table String ClassEntry := []
  deriving DecidableEq, Inhabited, Repr

end Callscope
