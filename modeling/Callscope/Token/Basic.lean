import Callscope.Token.Kind

/-!
# Tokens and their places

A place counts characters, lines from 1 and columns from 0; only a line feed begins a new line. The
pieces of a text are its tokens, hidden ones included, and the stray characters between them that no
token begins with.
-/

namespace Callscope

/-- A place in a text: characters before it, its line and its column. -/
structure Place where
  offset : Nat
  line : Nat
  column : Nat
  deriving DecidableEq, Inhabited, Repr

namespace Place

def start : Place := ⟨0, 1, 0⟩

/-- The place after one more character. -/
def step (p : Place) (c : Char) : Place :=
  if c = '\n' then ⟨p.offset + 1, p.line + 1, 0⟩ else ⟨p.offset + 1, p.line, p.column + 1⟩

/-- The place after a text. -/
def advance (p : Place) (cs : List Char) : Place := cs.foldl step p

end Place

structure Token where
  kind : Kind
  text : String
  place : Place
  /-- Tokens before this one in the text, hidden ones included. -/
  index : Nat
  deriving DecidableEq, Inhabited, Repr

namespace Token

def line (t : Token) : Nat := t.place.line

def column (t : Token) : Nat := t.place.column

/-- The end of the text is a token that covers none of it. -/
def width (t : Token) : Nat := if t.kind = .eof then 0 else t.text.length

/-- The token at the end of a text. -/
def atEnd (place : Place) (index : Nat) : Token := ⟨.eof, "<EOF>", place, index⟩

end Token

/-- Characters that begin no token. -/
structure Stray where
  text : String
  place : Place
  /-- Tokens before it. -/
  index : Nat
  deriving DecidableEq, Inhabited, Repr

inductive Piece where
  | token (t : Token)
  | stray (s : Stray)
  deriving DecidableEq, Inhabited, Repr

namespace Piece

def token? : Piece → Option Token
  | token t => some t
  | stray _ => none

def stray? : Piece → Option Stray
  | token _ => none
  | stray s => some s

end Piece

/-- A text cut into tokens. -/
structure Lexed where
  pieces : List Piece
  deriving Inhabited

namespace Lexed

def tokens (l : Lexed) : List Token := l.pieces.filterMap Piece.token?

def strays (l : Lexed) : List Stray := l.pieces.filterMap Piece.stray?

/-- The tokens that the parser sees. -/
def visible (l : Lexed) : List Token := l.tokens.filter fun t => !t.kind.hidden

end Lexed

end Callscope
