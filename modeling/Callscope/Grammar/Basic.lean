import Callscope.Grammar.Rule
import Callscope.Token.KindSet

/-!
# Right-hand sides of rules

A right-hand side is a list of items one after the other. Every item carries the number of its site;
written grammars have zeros there and `numberAll` gives each item two numbers of its own, one for the
place before it and one for the place where it is left or begun again. A loop of operators stands
only at the end of a rule that calls itself: it wraps what was read so far as the left operand.
-/

namespace Callscope

/-- Names under which a node keeps one of its parts. -/
inductive Label where
  | prefixSign | operator | suffixSign | enumConstantName | constantExpression | varName
  | forUpdate | constructorBody | blockLabel | statementExpression | identifierLabel
  deriving DecidableEq, Inhabited, Repr

namespace Label

/-- The name of a label as it is shown. -/
def name : Label → String
  | .prefixSign => "prefix"
  | .operator => "bop"
  | .suffixSign => "postfix"
  | .enumConstantName => "enumConstantName"
  | .constantExpression => "constantExpression"
  | .varName => "varName"
  | .forUpdate => "forUpdate"
  | .constructorBody => "constructorBody"
  | .blockLabel => "blockLabel"
  | .statementExpression => "statementExpression"
  | .identifierLabel => "identifierLabel"

end Label

inductive Item where
  /-- A token of one kind. -/
  | terminal (site : Nat) (kind : Kind) (label : Option Label)
  /-- A token of one of several kinds. -/
  | terminalOf (site : Nat) (kinds : List Kind) (label : Option Label)
  /-- A phrase of a rule. The level is what operators inside it must reach. -/
  | call (site : Nat) (rule : Rule) (level : Nat) (label : Option Label)
  /-- One of several alternatives. -/
  | branch (site : Nat) (alts : List (List Item))
  /-- Any number of repetitions. -/
  | loop (site : Nat) (body : List Item)
  /-- One or more repetitions. -/
  | loopOnce (site : Nat) (body : List Item)
  /-- Any number of operators, each with its level and what follows its left operand. -/
  | climb (site : Nat) (ops : List (Nat × List Item))
  deriving Inhabited

/-- The right-hand sides of all rules. -/
abbrev Grammar := Rule → List Item

namespace Item

/-! ## Writing grammars -/

def tok (k : Kind) : Item := terminal 0 k none

def oneOf (ks : List Kind) : Item := terminalOf 0 ks none

def ref (r : Rule) : Item := call 0 r 0 none

/-- A phrase whose operators bind at least as strongly as the level. -/
def operand (r : Rule) (level : Nat) : Item := call 0 r level none

def choice (alts : List (List Item)) : Item := branch 0 alts

def opt (body : List Item) : Item := branch 0 [body, []]

def many (body : List Item) : Item := loop 0 body

def atLeastOne (body : List Item) : Item := loopOnce 0 body

def operators (ops : List (Nat × List Item)) : Item := climb 0 ops

/-- The item with its part kept under a name. -/
def label (l : Label) : Item → Item
  | terminal s k _ => terminal s k (some l)
  | terminalOf s ks _ => terminalOf s ks (some l)
  | call s r n _ => call s r n (some l)
  | i => i

/-! ## Numbering -/

/-- The number of the place before an item. -/
def site : Item → Nat
  | terminal s _ _ | terminalOf s _ _ | call s _ _ _ | branch s _ | loop s _ | loopOnce s _
  | climb s _ => s

mutual

/-- Numbers an item from `n` on, and gives the next free number. A loop of operators has two more
places: before the choice among its operators, and one that is not used. -/
def number (n : Nat) : Item → Item × Nat
  | terminal _ k l => (terminal n k l, n + 2)
  | terminalOf _ ks l => (terminalOf n ks l, n + 2)
  | call _ r v l => (call n r v l, n + 2)
  | branch _ alts => let (alts, m) := numberAlts (n + 2) alts; (branch n alts, m)
  | loop _ body => let (body, m) := numberAll (n + 2) body; (loop n body, m)
  | loopOnce _ body => let (body, m) := numberAll (n + 2) body; (loopOnce n body, m)
  | climb _ ops => let (ops, m) := numberOps (n + 4) ops; (climb n ops, m)

def numberAll (n : Nat) : List Item → List Item × Nat
  | [] => ([], n)
  | i :: is =>
    let (i, m) := number n i
    let (is, m) := numberAll m is
    (i :: is, m)

def numberAlts (n : Nat) : List (List Item) → List (List Item) × Nat
  | [] => ([], n)
  | a :: as =>
    let (a, m) := numberAll n a
    let (as, m) := numberAlts m as
    (a :: as, m)

/-- An operator has a place of its own before its level is tested. It follows from the place of its
first item, which it precedes by two. -/
def numberOps (n : Nat) : List (Nat × List Item) → List (Nat × List Item) × Nat
  | [] => ([], n)
  | (v, a) :: as =>
    let (a, m) := numberAll (n + 2) a
    let (as, m) := numberOps m as
    ((v, a) :: as, m)

end

/-- The place before a list of items, which is `next` if the list is empty. -/
def entry (next : Nat) : List Item → Nat
  | [] => next
  | i :: _ => i.site

/-- The place where the level of an operator is tested. -/
def guardSite (items : List Item) : Nat := entry 2 items - 2

end Item

/-- A rule with its sites: the place before its items is followed by the place after them. -/
structure Numbered where
  start : Nat
  items : List Item
  deriving Inhabited

namespace Numbered

def stop (r : Numbered) : Nat := r.start + 1

end Numbered

namespace Grammar

/-- The rules of a list with numbers from `n` on, and the next free number. -/
def numberRules (g : Grammar) (n : Nat) : List Rule → List Numbered × Nat
  | [] => ([], n)
  | r :: rs =>
    let (items, m) := Item.numberAll (n + 2) (g r)
    let (rest, m) := numberRules g m rs
    (⟨n, items⟩ :: rest, m)

end Grammar

end Callscope
