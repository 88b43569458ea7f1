import Callscope.Text.Pattern
import Callscope.Token.Kind

/-!
# How each kind of token is written

One pattern for each kind but the end of the text, in the order of the kinds. Where two patterns
match texts of the same length the earlier kind is meant, so a keyword is not an identifier.
-/

namespace Callscope

open Pattern

namespace Lexicon

def isDigit (c : Char) : Bool := '0' ≤ c && c ≤ '9'

def isHexDigit (c : Char) : Bool :=
  isDigit c || ('a' ≤ c && c ≤ 'f') || ('A' ≤ c && c ≤ 'F')

def isOctDigit (c : Char) : Bool := '0' ≤ c && c ≤ '7'

def isBinDigit (c : Char) : Bool := c == '0' || c == '1'

/-- Letters of a word: the ASCII letters, `$`, `_` and every character beyond ASCII. -/
def isLetter (c : Char) : Bool :=
  ('a' ≤ c && c ≤ 'z') || ('A' ≤ c && c ≤ 'Z') || c == '$' || c == '_' || '\x7f' < c

def isLetterOrDigit (c : Char) : Bool := isLetter c || isDigit c

/-- A run of digits that may have underscores inside, but not at its ends. -/
def digitsOf (isDig : Char → Bool) : Pattern :=
  (one isDig).andThen
    (optional ((many (one fun c => isDig c || c == '_')).andThen (one isDig)))

def digits : Pattern := digitsOf isDigit

def hexDigits : Pattern := digitsOf isHexDigit

def longSuffix : Pattern := optional (among "lL")

def floatSuffix : Pattern := among "fFdD"

def exponent : Pattern := all [among "eE", optional (among "+-"), digits]

def decimal : Pattern :=
  ((char '0').orElse
    ((one fun c => '1' ≤ c && c ≤ '9').andThen
      ((optional digits).orElse ((atLeastOnce (char '_')).andThen digits)))).andThen longSuffix

def hexadecimal : Pattern := all [char '0', among "xX", hexDigits, longSuffix]

def octal : Pattern := all [char '0', many (char '_'), digitsOf isOctDigit, longSuffix]

def binary : Pattern := all [char '0', among "bB", digitsOf isBinDigit, longSuffix]

def floating : Pattern :=
  (all [((all [digits, char '.', optional digits]).orElse ((char '.').andThen digits)),
      optional exponent, optional floatSuffix]).orElse
    (digits.andThen ((exponent.andThen (optional floatSuffix)).orElse floatSuffix))

def hexFloating : Pattern :=
  all [char '0', among "xX",
    (hexDigits.andThen (optional (char '.'))).orElse
      (all [optional hexDigits, char '.', hexDigits]),
    among "pP", optional (among "+-"), digits, optional floatSuffix]

def escape : Pattern :=
  (char '\\').andThen <| any
    [among "btnfr\"'\\",
     (optional ((optional (one fun c => '0' ≤ c && c ≤ '3')).andThen (one isOctDigit))).andThen
       (one isOctDigit),
     all [atLeastOnce (char 'u'), one isHexDigit, one isHexDigit, one isHexDigit, one isHexDigit]]

/-- A character of a quoted text: no quote, no backslash and no end of line. -/
def plain (quote : Char) (c : Char) : Bool :=
  !(c == quote || c == '\\' || c == '\n' || c == '\r')

def character : Pattern := all [char '\'', (one (plain '\'')).orElse escape, char '\'']

def quoted : Pattern := all [char '"', many ((one (plain '"')).orElse escape), char '"']

/-- A text block ends at the first three quotes in a row after its first line. -/
def block : Pattern :=
  all [literal "\"\"\"", many (among " \t"), among "\r\n",
    many (any [one (· != '"'), (char '"').andThen (one (· != '"')),
      all [char '"', char '"', one (· != '"')]]),
    literal "\"\"\""]

/-- A comment ends at the first `*/`. -/
def comment : Pattern :=
  all [literal "/*",
    many ((one (· != '*')).orElse
      ((atLeastOnce (char '*')).andThen (one fun c => c != '*' && c != '/'))),
    atLeastOnce (char '*'), char '/']

def lineComment : Pattern :=
  (literal "//").andThen (many (one fun c => c != '\n' && c != '\r'))

def word : Pattern := (one isLetter).andThen (many (one isLetterOrDigit))

/-- How a token of this kind is written. The end of the text is not written at all. -/
def pattern (k : Kind) : Pattern :=
  match k with
  | .decimalLiteral => decimal
  | .hexLiteral => hexadecimal
  | .octLiteral => octal
  | .binaryLiteral => binary
  | .floatLiteral => floating
  | .hexFloatLiteral => hexFloating
  | .boolLiteral => (literal "true").orElse (literal "false")
  | .charLiteral => character
  | .stringLiteral => quoted
  | .textBlock => block
  | .blanks => atLeastOnce (among " \t\r\n\x0c")
  | .comment => comment
  | .lineComment => lineComment
  | .identifier => word
  | _ => match k.spelling? with
    | some s => literal s
    | none => nothing

end Lexicon

/-- Every kind with its pattern, in the order that settles ties. -/
def lexicon : List (Kind × Pattern) :=
  Kind.all.filterMap fun k =>
    let p := Lexicon.pattern k
    if p.isNothing then none else some (k, p)

end Callscope
