import Callscope.Outline.Basic

/-!
# Call graphs

The graph of an outline in the language of graph drawing tools: one line for each class and method,
one for each method of a class and one for each call. Names are written as they are.
-/

namespace Callscope

namespace Outline

def dotNode (name : String) : String := "\"" ++ name ++ "\""

def dotEdge (source target : String) : String := dotNode source ++ " -> " ++ dotNode target ++ ";"

def dotMethod (owner : String) (key : String) (m : Method) : List String :=
  dotNode key :: dotEdge owner key :: m.calls.map fun c => dotEdge key c.value

def dotClass (key : String) (c : ClassEntry) : List String :=
  dotNode key :: c.calls.map (fun s => dotEdge key s.value) ++
    c.methods.flatMap fun (k, m) => dotMethod key k m

/-- The lines of a graph. -/
def dotLines (o : Outline) : List String :=
  "digraph \"callGraph\" \x7b" :: o.classes.flatMap (fun (k, c) => dotClass k c) ++ ["\x7d"]

/-- The graph of an outline. -/
def dot (o : Outline) : String := "\n".intercalate o.dotLines

end Outline

end Callscope
