import Callscope.Grammar.Network

/-!
# Tables of a grammar

What a parser looks up: the edge and the look of every site, the callers of every rule, and for every
site with several ways on the kinds of token that speak for each of them. Where these kinds are
disjoint, and no operator's level is in question, one token of lookahead decides.
-/

namespace Callscope

/-- A call of a rule: the rule that calls, the level and the site at which the caller goes on. -/
structure Caller where
  owner : Rule
  level : Nat
  next : Nat
  deriving Inhabited

/-- A site with several ways on. -/
structure Decision where
  /-- The rule that decides. -/
  owner : Rule
  /-- The sites to choose from. -/
  nexts : List Nat
  /-- The kinds that each choice can begin with; what follows the rule counts for a choice that can
  be empty. -/
  heads : List KindSet
  /-- Whether one token of lookahead decides. -/
  direct : Bool
  /-- Whether it is the choice between one more operator and the end of the rule. -/
  climbs : Bool
  deriving Inhabited

structure Tables where
  rules : Array Numbered
  edges : Array Edge
  looks : Array Look
  /-- The callers of each rule. -/
  callers : Array (List Caller)
  /-- The decision of each site that has one. -/
  decisions : Array (Option Decision)
  deriving Inhabited

namespace Tables

/-- The rules of a grammar with the edges of each. -/
def edgesOf (rules : List (Rule × Numbered)) : List (Rule × Nat × Edge) :=
  rules.flatMap fun (r, n) => (Network.edgesRule r n).map fun (s, e) => (r, s, e)

def looksOf (firsts : Rule → Look) (rules : List (Rule × Numbered)) : List (Nat × Look) :=
  rules.flatMap fun (r, n) =>
    (n.start, firsts r) :: (n.stop, .done) :: Look.sitesOfItems firsts .done n.items

def callersOf (edges : List (Rule × Nat × Edge)) (r : Rule) : List Caller :=
  edges.filterMap fun (owner, _, e) => match e with
    | .call r' level next => if r' = r then some ⟨owner, level, next⟩ else none
    | _ => none

/-- One round of what follows each rule. A rule that nobody calls is followed by the end. -/
def followRound (looks : Array Look) (callers : Array (List Caller)) (table : Array Look) :
    Array Look :=
  callers.map fun cs =>
    if cs.isEmpty then .ofKinds (.singleton .eof)
    else cs.foldl (fun l c =>
      l.or ((looks.getD c.next .none).andThen (Look.ofTable table c.owner))) .none

/-- Rounds until nothing changes, but at most `fuel` of them. -/
def settleFollow (looks : Array Look) (callers : Array (List Caller)) :
    Nat → Array Look → Array Look
  | 0, table => table
  | fuel + 1, table =>
    let next := followRound looks callers table
    if next == table then table else settleFollow looks callers fuel next

def pairwiseDisjoint : List KindSet → Bool
  | [] => true
  | s :: ss => ss.all s.disjoint && pairwiseDisjoint ss

/-- The decision of a site with an edge, if there is something to decide. -/
def decisionOf (looks : Array Look) (follow : Rule → Look) (owner : Rule) (e : Edge) :
    Option Decision :=
  let make (nexts : List Nat) (climbs : Bool) : Decision :=
    let heads := nexts.map fun n => (looks.getD n .none).andThen (follow owner)
    { owner, nexts, heads := heads.map Look.kinds, climbs,
      direct := !heads.any Look.guarded && pairwiseDisjoint (heads.map Look.kinds) }
  match e with
  | .fork [_] => none
  | .fork nexts => some (make nexts false)
  | .climb operator finish => some (make [operator, finish] true)
  | _ => none

/-- The tables of a grammar. -/
def ofGrammar (g : Grammar) : Tables :=
  let (numbered, size) := g.numberRules 0 Rule.all
  let rules := Rule.all.zip numbered
  let edges := edgesOf rules
  let firsts := Look.ofTable (Look.ofGrammar g)
  let looks := Network.tabulate size .none (looksOf firsts rules)
  let callers := (Rule.all.map (callersOf edges)).toArray
  let follow := settleFollow looks callers (Rule.all.length * (Kind.all.length + 2))
    (Rule.all.map fun _ => Look.none).toArray
  { rules := numbered.toArray
    edges := Network.tabulate size (.fork []) (edges.map Prod.snd)
    looks
    callers
    decisions := Network.tabulate size none
      (edges.map fun (r, s, e) => (s, decisionOf looks (Look.ofTable follow) r e)) }

def rule (t : Tables) (r : Rule) : Numbered := t.rules.getD r.ctorIdx default

def edge (t : Tables) (site : Nat) : Edge := t.edges.getD site (.fork [])

def look (t : Tables) (site : Nat) : Look := t.looks.getD site .none

def decision? (t : Tables) (site : Nat) : Option Decision := t.decisions.getD site none

/-- The site at which the caller goes on after a call. -/
def returnSite (t : Tables) (site : Nat) : Nat :=
  match t.edge site with
  | .call _ _ next => next
  | _ => site + 1

end Tables

end Callscope
