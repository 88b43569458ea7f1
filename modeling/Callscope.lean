import Callscope.Grammar.Operators
import Callscope.Grammar.Parts
import Callscope.Main
import Callscope.Outline.Dot
import Callscope.Outline.Edit
import Callscope.Outline.Session
import Callscope.Proofs.Outline.Atomicity
import Callscope.Proofs.Outline.Attribution
import Callscope.Proofs.Outline.CallSites
import Callscope.Proofs.Outline.Census
import Callscope.Proofs.Outline.Chronology
import Callscope.Proofs.Outline.Composition
import Callscope.Proofs.Outline.Declarations
import Callscope.Proofs.Outline.Faults
import Callscope.Proofs.Outline.Graph
import Callscope.Proofs.Outline.Growth
import Callscope.Proofs.Outline.Heads
import Callscope.Proofs.Outline.Invocations
import Callscope.Proofs.Outline.Layout
import Callscope.Proofs.Outline.Names
import Callscope.Proofs.Outline.Parameters
import Callscope.Proofs.Outline.Restoration
import Callscope.Proofs.Parse.Expressions
import Callscope.Proofs.Parse.Leaves
import Callscope.Proofs.Parse.Precedence
import Callscope.Proofs.Run.Interleaving
import Callscope.Proofs.Token.Longest
import Callscope.Proofs.Token.Partition
import Callscope.Run.Arguments
import Callscope.Run.Job
