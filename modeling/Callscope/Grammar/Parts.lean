import Callscope.Grammar.Basic
import Callscope.Parse.Tree

/-!
# The parts of a node

The children of a node by what they are. A kind of part that can occur more than once in a rule is
given as the list of all its occurrences, any other as the first one alone. Which it is follows from
the right-hand side: alternatives exclude each other, a loop repeats, and an operator has its left
operand before it.
-/

namespace Callscope

/-- What a child can be. -/
inductive Symbol where
  | token (k : Kind)
  | phrase (r : Rule)
  deriving DecidableEq, Inhabited

namespace Symbol

def name : Symbol → String
  | token k => k.name
  | phrase r => r.name

/-- What a tree is. -/
def of : Tree → Symbol
  | .token t => token t.kind
  | .skipped t => token t.kind
  | .missing k => token k
  | .node r _ _ _ _ => phrase r

end Symbol

/-- How often symbols occur; one that is not listed does not occur. -/
abbrev Tally := List (Symbol × Nat)

namespace Tally

/-- Combines the counts of one symbol with a tally. -/
def adjust (f : Nat → Nat → Nat) (s : Symbol) (n : Nat) : Tally → Tally
  | [] => [(s, n)]
  | (t, m) :: rest => if s = t then (t, f m n) :: rest else (t, m) :: adjust f s n rest

/-- One after the other: counts add up. -/
def plus (a b : Tally) : Tally := b.foldl (fun c (s, n) => adjust (· + ·) s n c) a

/-- One or the other: the larger count. -/
def either (a b : Tally) : Tally := b.foldl (fun c (s, n) => adjust max s n c) a

mutual

def ofItem : Item → Tally
  | .terminal _ k _ => [(.token k, 1)]
  | .terminalOf _ ks _ => ks.map fun k => (.token k, 1)
  | .call _ r _ _ => [(.phrase r, 1)]
  | .branch _ alts => ofAlts alts
  | .loop _ body => (ofItems body).plus (ofItems body)
  | .loopOnce _ body => (ofItems body).plus (ofItems body)
  | .climb _ ops => ofOps ops

def ofItems : List Item → Tally
  | [] => []
  | i :: is => (ofItem i).plus (ofItems is)

def ofAlts : List (List Item) → Tally
  | [] => []
  | a :: as => (ofItems a).either (ofAlts as)

def ofOps : List (Nat × List Item) → Tally
  | [] => []
  | (_, a) :: as => (ofItems a).either (ofOps as)

end

/-- The operators of a right-hand side, each with what it adds to its left operand. -/
def operators : List Item → List (List Item)
  | [] => []
  | .climb _ ops :: is => ops.map Prod.snd ++ operators is
  | _ :: is => operators is

def isClimb : Item → Bool
  | .climb .. => true
  | _ => false

/-- The tally of a node. One that was made by an operator has its left operand and what the operator
adds, in place of the plain forms of the rule. -/
def ofRule (r : Rule) (items : List Item) : Tally :=
  let plain := ofItems (items.filter fun i => !isClimb i)
  (operators items).foldl (fun t op => either t (plus (ofItems op) [(.phrase r, 1)])) plain

end Tally

/-- A part of a node: its name and the texts of its occurrences. -/
inductive Part where
  | one (name : String) (text : String)
  | all (name : String) (texts : List String)
  deriving Inhabited

namespace Part

/-- The parts of a node by the tally of its rule. Parts that do not occur are left out. -/
def ofChildren (tally : Tally) (children : List Tree) : List Part :=
  tally.filterMap fun (s, n) =>
    match (children.filter fun c => Symbol.of c = s).map Tree.text with
    | [] => none
    | t :: ts => some (if n > 1 then all s.name (t :: ts) else one s.name t)

/-- The parts that a node keeps under a name, the latest first. -/
def ofLabels (labels : List (Label × String)) : List Part :=
  (labels.foldr (fun (l, text) (kept : List (Label × String)) =>
    (l, text) :: kept.filter fun p => p.1 ≠ l) []).map fun (l, text) => one ("." ++ l.name) text

/-- A rule and the parts of a node of it. -/
abbrev Inventory := Rule × List Part

mutual

/-- The parts of every node of a tree, outer nodes first. -/
def inventory (tally : Rule → Tally) : Tree → List Inventory
  | .node r _ _ labels children =>
    (r, ofChildren (tally r) children ++ ofLabels labels) :: inventoryAll tally children
  | _ => []

def inventoryAll (tally : Rule → Tally) : List Tree → List Inventory
  | [] => []
  | t :: ts => inventory tally t ++ inventoryAll tally ts

end

end Part

end Callscope
