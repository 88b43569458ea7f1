/-!
# Patterns of text

Regular expressions over characters, read from left to right by taking derivatives. `rest c p` is
what must still follow once `c` has been read; the constructors keep it small, so a pattern that
nothing can complete any more is `nothing` itself.
-/

namespace Callscope

inductive Pattern where
  /-- Matches no text. -/
  | nothing
  /-- Matches the empty text. -/
  | empty
  /-- Matches one character of a class. -/
  | one (accepts : Char → Bool)
  | seq (first second : Pattern)
  | alt (first second : Pattern)
  | many (body : Pattern)

namespace Pattern

/-- One after the other, or nothing if one of the two matches nothing. -/
def andThen : Pattern → Pattern → Pattern
  | nothing, _ => nothing
  | _, nothing => nothing
  | empty, q => q
  | p, empty => p
  | p, q => seq p q

/-- Either of the two. -/
def orElse : Pattern → Pattern → Pattern
  | nothing, q => q
  | p, nothing => p
  | p, q => alt p q

/-- Whether the empty text matches. -/
def nullable : Pattern → Bool
  | nothing => false
  | empty => true
  | one _ => false
  | seq p q => p.nullable && q.nullable
  | alt p q => p.nullable || q.nullable
  | many _ => true

/-- What must follow after the character `c`. -/
def rest (c : Char) : Pattern → Pattern
  | nothing => nothing
  | empty => nothing
  | one accepts => if accepts c then empty else nothing
  | seq p q =>
    if p.nullable then ((p.rest c).andThen q).orElse (q.rest c) else (p.rest c).andThen q
  | alt p q => (p.rest c).orElse (q.rest c)
  | many p => (p.rest c).andThen (many p)

/-- Whether no text can match. -/
def isNothing : Pattern → Bool
  | nothing => true
  | _ => false

/-- The texts that a pattern matches. -/
inductive Matches : Pattern → List Char → Prop
  | empty : Matches empty []
  | one {accepts : Char → Bool} {c : Char} (h : accepts c = true) : Matches (one accepts) [c]
  | seq {p q : Pattern} {s t : List Char} (hp : Matches p s) (hq : Matches q t) :
      Matches (seq p q) (s ++ t)
  | altLeft {p q : Pattern} {s : List Char} (h : Matches p s) : Matches (alt p q) s
  | altRight {p q : Pattern} {s : List Char} (h : Matches q s) : Matches (alt p q) s
  | manyNil {p : Pattern} : Matches (many p) []
  | manyCons {p : Pattern} {s t : List Char} (hp : Matches p s) (ht : Matches (many p) t) :
      Matches (many p) (s ++ t)

/-! ## Building patterns -/

/-- Exactly this character. -/
def char (c : Char) : Pattern := one (· == c)

/-- Exactly this text. -/
def literal (s : String) : Pattern := s.toList.foldr (fun c p => (char c).andThen p) empty

/-- One of the characters of a text. -/
def among (s : String) : Pattern := one s.toList.contains

/-- The patterns one after the other. -/
def all (ps : List Pattern) : Pattern := ps.foldr andThen empty

/-- One of the patterns. -/
def any (ps : List Pattern) : Pattern := ps.foldr orElse nothing

/-- The pattern or the empty text. -/
def optional (p : Pattern) : Pattern := p.orElse empty

/-- The pattern once or more often. -/
def atLeastOnce (p : Pattern) : Pattern := p.andThen (many p)

end Pattern

end Callscope
