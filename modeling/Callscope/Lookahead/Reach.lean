import Callscope.Lookahead.Closure

/-!
# Reading ahead

From a set of configurations, reading one token gives the next set. A set decides as soon as all its
configurations belong to one choice.
-/

namespace Callscope

namespace Lookahead

/-- Whether a configuration stands at the end of a rule. -/
def atStop (t : Tables) (c : Config) : Bool :=
  match t.edge c.site with
  | .stop _ => true
  | _ => false

/-- The choice of all configurations, if it is the same. -/
def unique : List Config → Option Nat
  | [] => none
  | c :: cs => if cs.all fun d => d.alt == c.alt then some c.alt else none

/-- The configurations behind a token of a kind. -/
def move (t : Tables) (unknown : Bool) (cs : List Config) (k : Kind) : List Config :=
  (cs.foldl (fun (s : Configs) c =>
    match t.edge c.site with
    | .terminal kinds next =>
      if kinds.contains k then s.insertConfig unknown { c with site := next } else s
    | _ => s) {}).toConfigs

/-- The configurations after a token of a kind. Those at the end of a rule can read no token: with
known callers they stay as long as no other one comes to the end, with unknown callers they stay at
the end of the text. -/
def step (t : Tables) (unknown : Bool) (cs : List Config) (k : Kind) : List Config :=
  let moved := move t unknown cs k
  let waiting := if !unknown || k = .eof then cs.filter (atStop t) else []
  let reached :=
    if waiting.isEmpty && k ≠ .eof && (unique moved).isSome then moved
    else
      let scope := { tables := t, unknown, level := 0, climbing := none, guards := false,
                     atEnd := k = .eof : Scope }
      (scope.closure moved).toConfigs
  let reached := if k = .eof then reached.filter (atStop t) else reached
  if waiting.isEmpty then reached
  else if unknown || !reached.any (atStop t) then
    (waiting.foldl (fun (s : Configs) c => s.insertConfig unknown c)
      (reached.foldl (fun (s : Configs) c => s.insertConfig unknown c) {})).toConfigs
  else reached

/-- The configurations with which a decision begins. -/
def start (t : Tables) (unknown : Bool) (level : Nat) (d : Decision) (stack : Stack) :
    List Config :=
  let scope := { tables := t, unknown, level, climbing := if d.climbs then some d.owner else none,
                 guards := true, atEnd := false : Scope }
  (scope.closure (d.nexts.mapIdx fun i site =>
    { site, alt := i + 1, guard := none, stack, dipped := false, loose := false })).toConfigs

/-- The alternatives of a set, in increasing order. -/
def alts (cs : List Config) : List Nat :=
  let seen := cs.foldl (fun (s : List Nat) c => if s.contains c.alt then s else c.alt :: s) []
  seen.mergeSort (· ≤ ·)

/-- The smallest choice that has already left the rule that decides, or reached the end of a rule
with nothing to return to. -/
def finished (t : Tables) (cs : List Config) : Option Nat :=
  (alts (cs.filter fun c => c.dipped || (atStop t c && c.stack.ends))).head?

/-- Whether the operator of a configuration may be taken at a level. -/
def passes (level : Nat) (guard : Option Nat) : Bool :=
  match guard with
  | none => true
  | some n => level ≤ n

/-- What is chosen if no choice can read the next token: one that is finished, if possible one whose
operator may be taken. -/
def fallback (t : Tables) (level : Nat) (cs : List Config) : Option Nat :=
  let (valid, invalid) := cs.partition fun c => passes level c.guard
  (finished t valid).or (finished t invalid)

end Lookahead

end Callscope
