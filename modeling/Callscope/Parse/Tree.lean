import Callscope.Grammar.Basic
import Callscope.Token.Basic

/-!
# Parse trees

The leaves of a tree are tokens of the text and, where the text has an error, tokens that were
skipped or that are missing. A node knows its rule, the token at which it began, the last token before
its end and the parts that it keeps under a name.
-/

namespace Callscope

inductive Tree where
  | token (t : Token)
  /-- A token of the text that fits nowhere. -/
  | skipped (t : Token)
  /-- A token that is not in the text but should be. -/
  | missing (k : Kind)
  | node (rule : Rule) (first : Token) (last : Option Token) (labels : List (Label × String))
      (children : List Tree)
  deriving Inhabited

namespace Tree

mutual

/-- The texts of all leaves, without what the parser does not see. -/
def text : Tree → String
  | token t => t.text
  | skipped t => t.text
  | missing k => k.missingText
  | node _ _ _ _ children => textAll children

def textAll : List Tree → String
  | [] => ""
  | t :: ts => t.text ++ textAll ts

end

def children : Tree → List Tree
  | node _ _ _ _ cs => cs
  | _ => []

def rule? : Tree → Option Rule
  | node r _ _ _ _ => some r
  | _ => none

/-- The kind of a leaf. -/
def kind? : Tree → Option Kind
  | token t => some t.kind
  | skipped t => some t.kind
  | missing k => some k
  | node .. => none

mutual

/-- The leaves from left to right. -/
def leaves : Tree → List Tree
  | node _ _ _ _ children => leavesAll children
  | leaf => [leaf]

def leavesAll : List Tree → List Tree
  | [] => []
  | t :: ts => t.leaves ++ leavesAll ts

end

end Tree

end Callscope
