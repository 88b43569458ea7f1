import Callscope.Lookahead.Reach

/-!
# Lookahead with unknown callers

The first lookahead of a decision does not use its callers, so what it finds depends on the decision
and the tokens alone. The sets it meets are kept in a tree that grows with the tokens read; each
branch is worked out when it is first needed. Beyond the depth of the tree sets are worked out each
time, with the same result.
-/

namespace Callscope

namespace Lookahead

/-- What a set of configurations says about the choice. Choices come with the level that their
operator must be tested against, if every one of their configurations begins with an operator. -/
inductive Verdict where
  /-- More tokens are needed. -/
  | open
  /-- One choice is left. -/
  | settled (alt : Nat) (guard : Option Nat)
  /-- More tokens do not help unless the callers are known. -/
  | conflict (alts : List (Nat × Option Nat))
  deriving Inhabited

/-- The level that the operator of a choice must be tested against: the loosest one that some
configuration of it begins with, and none if some configuration begins with no operator. -/
def guardOf (cs : List Config) (alt : Nat) : Option Nat :=
  let gs := (cs.filter fun c => c.alt == alt).map Config.guard
  if gs.any Option.isNone then none else (gs.filterMap id).max?

/-- Groups the choices of a set by a key. -/
def groupAlts {κ : Type} [BEq κ] [Hashable κ] (key : Config → κ) (cs : List Config) :
    List (List Nat) :=
  let groups := cs.foldl (fun (m : Std.HashMap κ (List Nat)) c =>
    m.alter (key c) fun
      | none => some [c.alt]
      | some as => some (if as.contains c.alt then as else c.alt :: as)) {}
  groups.toList.map Prod.snd

/-- Whether more tokens do not tell the choices apart: all are at the end, or two choices have come to
the same place with the same stacks and every place is shared. -/
def conflicting (t : Tables) (cs : List Config) : Bool :=
  cs.all (atStop t) ||
    ((groupAlts Config.site cs).all (fun as => as.length != 1) &&
      (groupAlts (fun c => (c.site, c.stack)) cs).any fun as => as.length > 1)

def verdict (t : Tables) (cs : List Config) : Verdict :=
  match unique cs with
  | some alt => .settled alt (guardOf cs alt)
  | none =>
    if conflicting t cs then .conflict ((alts cs).map fun a => (a, guardOf cs a)) else .open

/-- The kinds of token that a set can read. -/
def readable (t : Tables) (cs : List Config) : KindSet :=
  cs.foldl (fun s c => match t.edge c.site with
    | .terminal kinds _ => s.union kinds
    | .stop _ => s.insert .eof
    | _ => s) .empty

/-- A set of configurations with its verdict and, to some depth, the sets that follow it. -/
inductive Automaton where
  | node (configs : List Config) (verdict : Verdict) (next : List (Kind × Thunk Automaton))
  | leaf (configs : List Config) (verdict : Verdict)

namespace Automaton

def configs : Automaton → List Config
  | node cs _ _ => cs
  | leaf cs _ => cs

def verdict : Automaton → Verdict
  | node _ v _ => v
  | leaf _ v => v

instance : Inhabited Automaton := ⟨leaf [] .open⟩

/-- The tree of a set, to a depth. -/
def build (t : Tables) : Nat → List Config → Verdict → Automaton
  | 0, cs, v => leaf cs v
  | depth + 1, cs, v =>
    match v with
    | .open => node cs v ((readable t cs).toList.map fun k =>
        (k, Thunk.mk fun _ =>
          let cs := Lookahead.step t true cs k
          build t depth cs (Lookahead.verdict t cs)))
    | _ => leaf cs v

/-- After a token; none if no choice can read it. -/
def step (t : Tables) (a : Automaton) (k : Kind) : Option Automaton :=
  let b := match a with
    | node _ _ next => (next.lookup k).map Thunk.get
    | leaf cs _ =>
      let cs := Lookahead.step t true cs k
      some (leaf cs (Lookahead.verdict t cs))
  b.filter fun b => !b.configs.isEmpty

end Automaton

/-- Sets the choice of one more operator against the end of the rule: operators below the level are
dropped, and so is every way to take an operator after the end of the rule that is open before it. -/
def climbFilter (level : Nat) (cs : List Config) : List Config :=
  let more := cs.filterMap fun c =>
    if c.alt == 1 && passes level c.guard then some { c with guard := none } else none
  let finish := cs.filter fun c =>
    c.alt != 1 && (c.loose || !more.any fun d => d.site == c.site && d.stack == c.stack)
  more ++ finish

/-- The tree of a decision at a level. -/
def automaton (t : Tables) (depth : Nat) (d : Decision) (level : Nat) : Automaton :=
  let cs := start t true level d .root
  let cs := if d.climbs then climbFilter level cs else cs
  .build t depth cs .open

/-- The trees of all decisions that need more than one token of lookahead. A choice between one more
operator and the end has one for each level; levels above that of every operator count as one. -/
structure Automata where
  tables : Tables
  /-- A level above that of every operator. -/
  top : Nat
  trees : Array (Array (Thunk Automaton))

namespace Automata

/-- Trees are kept to this depth. -/
def depth : Nat := 1000000000

/-- A level above that of every operator. -/
def topLevel (t : Tables) : Nat :=
  t.edges.foldl (fun n e => match e with
    | .guard level _ => max n (level + 1)
    | _ => n) 0

def ofTables (t : Tables) : Automata :=
  let top := topLevel t
  { tables := t
    top
    trees := t.decisions.map fun
      | none => #[]
      | some d =>
        if d.direct then #[]
        else if d.climbs then
          ((List.range (top + 1)).map fun level => Thunk.mk fun _ => automaton t depth d level).toArray
        else #[Thunk.mk fun _ => automaton t depth d 0] }

/-- The tree of the decision at a site. -/
def tree (a : Automata) (site : Nat) (level : Nat) : Automaton :=
  let trees := a.trees.getD site #[]
  (trees.getD (if trees.size ≤ 1 then 0 else min level a.top) (Thunk.pure default)).get

end Automata

end Lookahead

end Callscope
