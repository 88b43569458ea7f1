/-!
# Sets of call stacks

What a lookahead knows about the calls it is inside of: a set of stacks of sites, shared like a tree
from the top of the stacks downwards. The sites of each level are in increasing order, so a set has
one form only. The root is the set of the empty stack alone; a lookahead that does not know its
callers reads it as "any callers", and then it absorbs every other set.
-/

namespace Callscope

inductive Stack where
  | node (hash : UInt64) (ends : Bool) (tops : List (Nat × Stack))

namespace Stack

def hash : Stack → UInt64
  | node h _ _ => h

/-- Whether the empty stack is in the set. -/
def ends : Stack → Bool
  | node _ e _ => e

/-- The sites on top of the stacks, each with what is below it. -/
def tops : Stack → List (Nat × Stack)
  | node _ _ ts => ts

/-- A set with its fingerprint. -/
def make (ends : Bool) (tops : List (Nat × Stack)) : Stack :=
  node (tops.foldl (fun h t => mixHash (mixHash h t.1.toUInt64) t.2.hash) (if ends then 7 else 5))
    ends tops

/-- The empty stack alone. -/
def root : Stack := make true []

def isRoot (s : Stack) : Bool := s.ends && s.tops.isEmpty

/-- Every stack of the set with one more site on top. -/
def push (site : Nat) (below : Stack) : Stack := make false [(site, below)]

theorem sizeOf_tops_lt (h : UInt64) (e : Bool) (ts : List (Nat × Stack)) :
    sizeOf ts < sizeOf (node h e ts) := by
  rw [node.sizeOf_spec]
  omega

theorem sizeOf_below_lt (i : Nat) (a : Stack) (xs : List (Nat × Stack)) :
    sizeOf a < sizeOf ((i, a) :: xs) := by
  rw [List.cons.sizeOf_spec, Prod.mk.sizeOf_spec]
  omega

theorem sizeOf_rest_lt (x : Nat × Stack) (xs : List (Nat × Stack)) :
    sizeOf xs < sizeOf (x :: xs) := by
  rw [List.cons.sizeOf_spec]
  omega

mutual

/-- Sets with different fingerprints are different at once, and parts that two sets share are not
looked at. -/
def decEq (a b : Stack) : Decidable (a = b) :=
  withPtrEqDecEq a b fun _ =>
    match a, b with
    | node h e ts, node h' e' ts' =>
      if hhash : h = h' then
        if hends : e = e' then
          match decEqTops ts ts' with
          | isTrue htops => isTrue (by rw [hhash, hends, htops])
          | isFalse htops => isFalse fun heq => htops (by injection heq)
        else isFalse fun heq => hends (by injection heq)
      else isFalse fun heq => hhash (by injection heq)
termination_by sizeOf a
decreasing_by exact sizeOf_tops_lt h e ts

def decEqTops (xs ys : List (Nat × Stack)) : Decidable (xs = ys) :=
  match xs, ys with
  | [], [] => isTrue rfl
  | [], y :: ys => isFalse (List.cons_ne_nil y ys).symm
  | x :: xs, [] => isFalse (List.cons_ne_nil x xs)
  | (i, a) :: xs, (j, b) :: ys =>
    if hsite : i = j then
      match decEq a b with
      | isTrue hbelow =>
        match decEqTops xs ys with
        | isTrue hrest => isTrue (by rw [hsite, hbelow, hrest])
        | isFalse hrest => isFalse fun heq => hrest (by injection heq)
      | isFalse hbelow => isFalse fun heq => hbelow (by injection heq with heq; injection heq)
    else isFalse fun heq => hsite (by injection heq with heq; injection heq)
termination_by sizeOf xs
decreasing_by
  · exact sizeOf_below_lt i a xs
  · exact sizeOf_rest_lt (i, a) xs

end

instance : DecidableEq Stack := decEq

instance : Hashable Stack := ⟨hash⟩

instance : Inhabited Stack := ⟨root⟩

mutual

/-- The union of two sets. If the callers are unknown, the root absorbs the other set. -/
def merge (unknown : Bool) (a b : Stack) : Stack :=
  if a = b then a
  else match a, b with
    | node _ e ts, node _ e' ts' =>
      if unknown && ((e && ts.isEmpty) || (e' && ts'.isEmpty)) then root
      else make (e || e') (mergeTops unknown ts ts')
termination_by sizeOf a + sizeOf b

def mergeTops (unknown : Bool) (xs ys : List (Nat × Stack)) : List (Nat × Stack) :=
  match xs, ys with
  | [], ys => ys
  | xs, [] => xs
  | (i, a) :: xs, (j, b) :: ys =>
    if i < j then (i, a) :: mergeTops unknown xs ((j, b) :: ys)
    else if j < i then (j, b) :: mergeTops unknown ((i, a) :: xs) ys
    else (i, merge unknown a b) :: mergeTops unknown xs ys
termination_by sizeOf xs + sizeOf ys

end

end Stack

end Callscope
