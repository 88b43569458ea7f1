import Callscope.Outline.Collector
import Callscope.Parse.Java

/-!
# Sessions

Several texts, one after the other, collected into one outline. What an unfinished walk leaves behind
is there for the next text.
-/

namespace Callscope

/-- A text to collect: which rule to read it as, and at which level of operators. -/
structure Source where
  text : String
  rule : Rule
  level : Nat
  deriving Inhabited

/-- A text that has been read and collected. -/
structure Collected where
  parse : Parse
  walked : Collector.Walked
  deriving Inhabited

namespace Session

/-- Collects texts from a collector on; none if a text could not be read in the steps allowed. -/
def runFrom? (c : Collector) : List Source → Option (List Collected)
  | [] => some []
  | s :: ss => do
    let parse ← Parse.ofText? s.text s.rule s.level
    let walked := c.collect parse.tree
    return ⟨parse, walked⟩ :: (← runFrom? walked.collector ss)

/-- The imports of the last text of a session. -/
def finalImports (cs : List Collected) : List String :=
  match cs.getLast? with
  | some c => c.walked.collector.outline.imports
  | none => []

/-- The outline to show for a text of a session. The list of imports is one for the whole session, so
every text shows all of it. -/
def shown (imports : List String) (c : Collected) : Outline :=
  { c.walked.collector.outline with imports }

end Session

end Callscope
