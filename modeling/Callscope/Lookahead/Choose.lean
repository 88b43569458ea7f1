import Callscope.Lookahead.Automaton
import Callscope.Token.Basic

/-!
# Choosing an alternative

A decision reads ahead with unknown callers first. If that ends in a conflict it reads ahead again
from the start with the calls it is really inside of; if more than one choice survives that as well,
the first one is taken.
-/

namespace Callscope

namespace Lookahead

/-- The end of a lookahead. -/
inductive Outcome where
  /-- A choice, by its number from 1. -/
  | choose (alt : Nat)
  /-- No choice is possible because of a token. -/
  | fail (token : Token)
  deriving Inhabited

/-- The choice of a set that was read with known callers, if it is clear. -/
def resolve (cs : List Config) : Option Nat :=
  match unique cs with
  | some alt => some alt
  | none =>
    match ((groupAlts (fun c => (c.site, c.stack)) cs).filterMap fun as => as.min?) with
    | [] => none
    | m :: ms => if ms.all (· == m) then some m else none

/-- Reads ahead with known callers. Gives the outcome and the last token read. -/
def withCallers (t : Tables) (level : Nat) (cs : List Config) (last : Token) :
    List Token → Outcome × Token
  | [] => (.fail last, last)
  | tk :: rest =>
    let next := step t false cs tk.kind
    if next.isEmpty then
      match fallback t level cs with
      | some alt => (.choose alt, tk)
      | none => (.fail tk, tk)
    else match resolve next with
      | some alt => (.choose alt, tk)
      | none => withCallers t level next tk rest

/-- The choices of a conflict whose operators may be taken. -/
def passing (level : Nat) (alts : List (Nat × Option Nat)) : List Nat :=
  (alts.filter fun a => passes level a.2).map Prod.fst

/-- Reads ahead with unknown callers. Without a result the callers are needed. Gives the last token
read too. -/
def withoutCallers (t : Tables) (level : Nat) (first : Token) (a : Automaton) (last : Token) :
    List Token → Option Outcome × Token
  | [] => (some (.fail last), last)
  | tk :: rest =>
    match a.step t tk.kind with
    | none =>
      match fallback t level a.configs with
      | some alt => (some (.choose alt), tk)
      | none => (some (.fail tk), tk)
    | some b =>
      match b.verdict with
      | .settled alt guard =>
        (some (if passes level guard then .choose alt else .fail first), tk)
      | .conflict alts =>
        if alts.any fun a => a.2.isSome then
          match passing level alts with
          | [alt] => (some (.choose alt), tk)
          | _ => (none, tk)
        else (none, tk)
      | .open => withoutCallers t level first b tk rest

/-- The furthest of two tokens. -/
def furthest (a b : Token) : Token := if a.index < b.index then b else a

/-- Takes a decision: `level` is that of the innermost call, `stack` the calls it is inside of and
`ahead` the tokens from the current one on. Gives the outcome and the furthest token read. -/
def choose (a : Automata) (d : Decision) (site level : Nat) (stack : Stack) (current : Token)
    (ahead : List Token) : Outcome × Token :=
  match withoutCallers a.tables level current (a.tree site level) current ahead with
  | (some o, last) => (o, last)
  | (none, last) =>
    let (o, last') :=
      withCallers a.tables level (start a.tables false level d stack) current ahead
    (o, furthest last last')

end Lookahead

end Callscope
