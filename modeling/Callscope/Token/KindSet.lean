import Callscope.Token.Kind

/-!
# Sets of kinds

A set of token kinds, held as the bits of a number. Listing a set gives its kinds in their order.
-/

namespace Callscope

structure KindSet where
  bits : Nat
  deriving DecidableEq, Inhabited, Repr

namespace KindSet

def empty : KindSet := ⟨0⟩

def contains (s : KindSet) (k : Kind) : Bool := s.bits.testBit k.ctorIdx

def insert (s : KindSet) (k : Kind) : KindSet := ⟨s.bits ||| (1 <<< k.ctorIdx)⟩

def union (s t : KindSet) : KindSet := ⟨s.bits ||| t.bits⟩

def disjoint (s t : KindSet) : Bool := s.bits &&& t.bits == 0

def singleton (k : Kind) : KindSet := empty.insert k

def ofList (ks : List Kind) : KindSet := ks.foldl insert empty

/-- The kinds of a set, in order. -/
def toList (s : KindSet) : List Kind := Kind.all.filter s.contains

/-- The set as a message shows it: bare if it has one kind, else in braces. -/
def display (s : KindSet) : String :=
  match s.toList with
  | [k] => k.display
  | ks => "\x7b" ++ ", ".intercalate (ks.map Kind.display) ++ "\x7d"

end KindSet

end Callscope
