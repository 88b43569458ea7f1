import Callscope.Token.Basic
import Callscope.Token.Lexicon

/-!
# Cutting a text into tokens

At each place the longest text that some pattern matches is the next token, and the earliest kind
wins among patterns that match it. Where no pattern matches, the characters up to and including the
one at which all patterns failed are stray. Each step takes at least one character, so cutting ends.
-/

namespace Callscope

namespace Lexer

/-- The first pattern of a list that matches the empty text. -/
def accepted (ps : List (Kind × Pattern)) : Option Kind :=
  (ps.find? fun p => p.2.nullable).map Prod.fst

/-- The patterns that can still be completed after `c`. -/
def after (c : Char) (ps : List (Kind × Pattern)) : List (Kind × Pattern) :=
  ps.filterMap fun p =>
    let q := p.2.rest c
    if q.isNothing then none else some (p.1, q)

/-- What is cut off: a token of some kind, or stray characters, and its length. -/
structure Cut where
  kind : Option Kind
  length : Nat
  deriving DecidableEq, Inhabited, Repr

/-- Reads on while patterns are left. `read` characters have been read, and `best` is the longest
match so far. -/
def scan (ps : List (Kind × Pattern)) (read : Nat) (best : Option Cut) : List Char → Cut
  | [] => best.getD ⟨none, read⟩
  | c :: cs =>
    let ps := after c ps
    if ps.isEmpty then best.getD ⟨none, read + 1⟩
    else
      let best := match accepted ps with
        | some k => some ⟨some k, read + 1⟩
        | none => best
      scan ps (read + 1) best cs

/-- What is cut off the front of a text. -/
def cut (cs : List Char) : Cut := scan lexicon 0 none cs

/-- The pieces of the rest of a text, from a place on and after `index` tokens. The first character
always belongs to the piece that is cut off. -/
def piecesFrom (place : Place) (index : Nat) : List Char → List Piece
  | [] => [.token (.atEnd place index)]
  | c :: cs =>
    let found := cut (c :: cs)
    let more := found.length - 1
    let taken := c :: cs.take more
    let next := place.advance taken
    match found.kind with
    | some k =>
      .token ⟨k, String.ofList taken, place, index⟩ :: piecesFrom next (index + 1) (cs.drop more)
    | none =>
      .stray ⟨String.ofList taken, place, index⟩ :: piecesFrom next index (cs.drop more)
termination_by cs => cs.length

end Lexer

/-- The tokens and stray characters of a text. -/
def Lexed.ofText (text : String) : Lexed := ⟨Lexer.piecesFrom .start 0 text.toList⟩

end Callscope
