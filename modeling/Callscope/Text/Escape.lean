/-!
# Quoted text in messages

Messages quote pieces of the source on one line: line feeds, carriage returns and tabs are written
with a backslash.
-/

namespace Callscope

namespace Text

def escapeChar : Char → List Char
  | '\n' => ['\\', 'n']
  | '\r' => ['\\', 'r']
  | '\t' => ['\\', 't']
  | c => [c]

def escape (s : String) : String := String.ofList (s.toList.flatMap escapeChar)

/-- A text in single quotes. -/
def quote (s : String) : String := "'" ++ escape s ++ "'"

end Text

end Callscope
