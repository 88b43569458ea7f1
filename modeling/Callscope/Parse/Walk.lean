import Callscope.Parse.Tree

/-!
# Walking through a tree

A walk enters a node, visits its children from left to right and exits it. A node is visited together
with the nodes around it, innermost first.
-/

namespace Callscope

inductive Visit where
  | enter (node : Tree) (around : List Tree)
  | exit (node : Tree) (around : List Tree)
  | leaf (t : Tree)
  deriving Inhabited

namespace Visit

/-- The name of a rule with a capital letter. -/
def title (r : Rule) : String :=
  match r.name.toList with
  | [] => ""
  | c :: cs => String.ofList (c.toUpper :: cs)

def nodeTitle (t : Tree) : String :=
  match t.rule? with
  | some r => title r
  | none => ""

/-- A visit in one line. -/
def describe : Visit → String
  | enter t _ => "enter" ++ nodeTitle t
  | exit t _ => "exit" ++ nodeTitle t
  | leaf (.token t) => "T " ++ t.text
  | leaf t => "E " ++ t.text

end Visit

namespace Tree

mutual

/-- The visits of a walk through a tree inside of other nodes. -/
def visits (around : List Tree) : Tree → List Visit
  | node r first last labels children =>
    let self := node r first last labels children
    .enter self around :: visitsAll (self :: around) children ++ [.exit self around]
  | t => [.leaf t]

def visitsAll (around : List Tree) : List Tree → List Visit
  | [] => []
  | t :: ts => visits around t ++ visitsAll around ts

end

/-- The walk through a whole tree. -/
def walk (t : Tree) : List Visit := t.visits []

end Tree

end Callscope
