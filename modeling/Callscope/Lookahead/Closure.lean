import Std.Data.HashMap
import Std.Data.HashSet
import Callscope.Grammar.Table
import Callscope.Lookahead.Stack

/-!
# Where a choice can lead

A lookahead follows all choices of a decision at once. A configuration is a site that one of them has
reached, with the calls it is inside of. The closure of a configuration follows the network up to the
next tokens. With known callers it stops at the end of the outermost rule; with unknown callers it goes
on, at the end of the rule that decides, to wherever the rule is called at all.
-/

namespace Callscope

/-- A place that a choice has reached. -/
structure Config where
  site : Nat
  /-- The number of the choice, from 1. -/
  alt : Nat
  /-- The level of the operator that the choice begins with, if it is still to be tested. -/
  guard : Option Nat
  stack : Stack
  /-- Whether the rule that decides has been left. -/
  dipped : Bool
  /-- Whether it was left for a caller that takes operators of every level. -/
  loose : Bool
  deriving Inhabited

/-- What tells configurations of one set apart. Two with the same key are one, whose stacks are the
stacks of both. -/
structure Key where
  site : Nat
  alt : Nat
  guard : Option Nat
  deriving BEq, Hashable

namespace Config

def key (c : Config) : Key := ⟨c.site, c.alt, c.guard⟩

/-- Two configurations with the same key as one. -/
def merge (unknown : Bool) (c d : Config) : Config :=
  { c with
    stack := c.stack.merge unknown d.stack
    dipped := c.dipped || d.dipped
    loose := c.loose || d.loose }

end Config

/-- A set of configurations under construction. -/
abbrev Configs := Std.HashMap Key Config

namespace Configs

def insertConfig (unknown : Bool) (s : Configs) (c : Config) : Configs :=
  s.alter c.key fun
    | none => some c
    | some d => some (d.merge unknown c)

def toConfigs (s : Configs) : List Config := s.toList.map Prod.snd

end Configs

/-- How a closure is taken. -/
structure Scope where
  tables : Tables
  /-- Whether the callers are unknown. -/
  unknown : Bool
  /-- The level of the innermost call. -/
  level : Nat
  /-- The rule of a decision between one more operator and the end. -/
  climbing : Option Rule
  /-- Whether levels of operators count; they do only before the first token. -/
  guards : Bool
  /-- Whether the end of the text has been read, so that a token for it is passed. -/
  atEnd : Bool

namespace Scope

/-- Whether jumps alone lead from one site to another. -/
def leads (t : Tables) (target : Nat) : Nat → Nat → Bool
  | 0, _ => false
  | fuel + 1, site =>
    site == target || match t.edge site with
      | .jump next => leads t target fuel next
      | _ => false

/-- Whether a loop of operators at a site may be left at once: every caller only returns to the same
loop, which takes the operator instead. -/
def leaves (t : Tables) (site : Nat) (s : Stack) : Bool :=
  !s.ends && !s.tops.isEmpty && s.tops.all fun top => leads t site 4 top.1

/-- Configurations still to follow, each with the number of calls it is inside of, counted from the
decision; below zero the decision's own rule has been left. -/
abbrev Work := List (Config × Int)

structure Progress where
  found : Configs
  /-- What has been looked at after the rule that decides was left. -/
  seen : Std.HashSet (Key × Bool)

/-- A configuration has been found. -/
def Progress.find (sc : Scope) (p : Progress) (c : Config) : Progress :=
  { p with found := p.found.insertConfig sc.unknown c }

/-- The configurations after the end of a rule, if its callers are unknown. -/
def dips (sc : Scope) (r : Rule) (c : Config) (depth : Int) (callers : List Caller)
    (seen : Std.HashSet (Key × Bool)) : Std.HashSet (Key × Bool) × Work :=
  callers.foldl (fun (seen, work) caller =>
    let d := { c with
      site := caller.next
      dipped := true
      loose := c.loose || (sc.climbing == some r && caller.level == 0) }
    let mark := (d.key, d.loose)
    if seen.contains mark then (seen, work) else (seen.insert mark, (d, depth - 1) :: work))
    (seen, [])

/-- Where one step from a configuration leads, and what it finds: a configuration before a token or at
an end is found, every other one is followed. -/
def expand (sc : Scope) (c : Config) (depth : Int) (p : Progress) : Work × Progress :=
  match sc.tables.edge c.site with
  | .terminal kinds next =>
    (if sc.atEnd && kinds.contains .eof then [({ c with site := next }, depth)] else [], p.find sc c)
  | .call r _ next =>
    ([({ c with site := (sc.tables.rule r).start, stack := c.stack.push next },
        if depth < 0 then depth else depth + 1)], p)
  | .guard level next =>
    (if sc.guards && depth == 0 then
        if sc.unknown then [({ c with site := next, guard := some level }, depth)]
        else if sc.level ≤ level then [({ c with site := next }, depth)]
        else []
      else [({ c with site := next }, depth)], p)
  | .jump next => ([({ c with site := next }, depth)], p)
  | .fork nexts => (nexts.map fun next => ({ c with site := next }, depth), p)
  | .climb operator finish =>
    (if leaves sc.tables c.site c.stack then [({ c with site := finish }, depth)]
      else [({ c with site := operator }, depth), ({ c with site := finish }, depth)], p)
  | .stop r =>
    if c.stack.isRoot then
      if !sc.unknown then ([], p.find sc c)
      else match sc.tables.callers.getD r.ctorIdx [] with
        | [] => ([], p.find sc c)
        | callers =>
          let (seen, work) := dips sc r c depth callers p.seen
          (work, { p with seen })
    else
      (c.stack.tops.map fun top =>
          ({ c with site := top.1, stack := top.2, loose := false }, depth - 1),
        if c.stack.ends then p.find sc { c with stack := .root } else p)

/-- Follows the network until every configuration stands before a token or at an end. This comes to an
end if no rule calls itself before its first token. -/
def follow (sc : Scope) (work : Work) (p : Progress) : Option Progress :=
  match work with
  | [] => some p
  | (c, depth) :: work =>
    let (more, p) := sc.expand c depth p
    -- A plain call would keep its position in the file as a part of the definition.
    by
      apply follow
      · exact sc
      · exact more ++ work
      · exact p
partial_fixpoint

/-- The closure of a set of configurations. -/
def closure (sc : Scope) (cs : List Config) : Configs :=
  match follow sc (cs.map fun c => (c, 0)) ⟨{}, {}⟩ with
  | some p => p.found
  | none => {}

end Scope

end Callscope
