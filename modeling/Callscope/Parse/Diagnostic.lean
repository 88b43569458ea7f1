import Callscope.Grammar.Rule
import Callscope.Text.Escape
import Callscope.Token.Basic
import Callscope.Token.KindSet

/-!
# Reports of a parser

What a parser reports about a text that is not as the grammar wants it, and the wording of it.
-/

namespace Callscope

inductive Problem where
  /-- No alternative fits the tokens from this one on. -/
  | noAlternative (first : Token)
  | mismatched (expected : KindSet)
  | extraneous (expected : KindSet)
  | missing (expected : KindSet)
  /-- An operator was taken that binds too loosely. -/
  | looseOperator (rule : Rule) (level : Nat)
  deriving Inhabited

structure Diagnostic where
  /-- The token at which the text goes wrong. -/
  token : Token
  problem : Problem
  /-- The index of the furthest token that had been asked for by then. -/
  seen : Nat
  deriving Inhabited

namespace Diagnostic

/-- The text from one token to another, hidden tokens included, but not beyond the end. -/
def textBetween (tokens : List Token) (first last : Token) : String :=
  let inside := tokens.filter fun t =>
    first.index ≤ t.index && t.index ≤ last.index && t.kind ≠ .eof
  String.join (inside.map Token.text)

/-- The wording of a report. All tokens of the text are needed to quote from it. -/
def message (tokens : List Token) (d : Diagnostic) : String :=
  match d.problem with
  | .noAlternative first =>
    let text := if first.kind = .eof then first.text else textBetween tokens first d.token
    "no viable alternative at input " ++ Text.quote text
  | .mismatched expected =>
    "mismatched input " ++ Text.quote d.token.text ++ " expecting " ++ expected.display
  | .extraneous expected =>
    "extraneous input " ++ Text.quote d.token.text ++ " expecting " ++ expected.display
  | .missing expected =>
    "missing " ++ expected.display ++ " at " ++ Text.quote d.token.text
  | .looseOperator rule level =>
    "rule " ++ rule.name ++ " failed predicate: \x7bself.precpred(self._ctx, " ++ toString level
      ++ ")\x7d?"

end Diagnostic

end Callscope
