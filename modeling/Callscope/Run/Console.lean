import Callscope.Parse.Java

/-!
# Messages about a text

The messages about stray characters and the reports of the parser, one to a line. Tokens are cut from
the text only when the parser asks for them, so stray characters are reported just before the first
report that was made after the token behind them had been asked for, and not at all if that token was
never asked for.
-/

namespace Callscope

namespace Stray

def message (s : Stray) : String := "token recognition error at: " ++ Text.quote s.text

end Stray

namespace Parse

def consoleLine (line column : Nat) (message : String) : String :=
  "line " ++ toString line ++ ":" ++ toString column ++ " " ++ message ++ "\n"

def strayLine (s : Stray) : String := consoleLine s.place.line s.place.column s.message

def reportLine (tokens : List Token) (d : Diagnostic) : String :=
  consoleLine d.token.line d.token.column (d.message tokens)

/-- The lines of reports, each after the stray characters that had been met before it. At the end come
those met before the token with index `seen`. -/
def consoleLines (tokens : List Token) (seen : Nat) : List Stray → List Diagnostic → List String
  | strays, [] => (strays.takeWhile fun s => s.index ≤ seen).map strayLine
  | strays, d :: ds =>
    (strays.takeWhile fun s => s.index ≤ d.seen).map strayLine ++
      reportLine tokens d ::
        consoleLines tokens seen (strays.dropWhile fun s => s.index ≤ d.seen) ds

/-- All messages about a text. -/
def console (p : Parse) : String :=
  String.join (consoleLines p.lexed.tokens p.seen p.lexed.strays p.reports)

end Parse

end Callscope
