import Callscope.Grammar.Basic

/-!
# What can come next

`Look` says with which kinds of token a list of items can begin, whether it can be empty, and whether
an operator's level has to be tested on the way. The looks of all sites of a rule tell which tokens a
parser may meet there; those of a whole grammar are found by iteration from empty looks.
-/

namespace Callscope

structure Look where
  kinds : KindSet
  /-- Whether there can be no token at all. -/
  ends : Bool
  /-- Whether the level of an operator is tested before some first token. -/
  guarded : Bool
  deriving DecidableEq, Inhabited, Repr

namespace Look

/-- Nothing can come. -/
def none : Look := ⟨.empty, false, false⟩

/-- The empty list of items. -/
def done : Look := ⟨.empty, true, false⟩

def ofKinds (s : KindSet) : Look := ⟨s, false, false⟩

def or (a b : Look) : Look :=
  ⟨a.kinds.union b.kinds, a.ends || b.ends, a.guarded || b.guarded⟩

def andThen (a b : Look) : Look :=
  if a.ends then ⟨a.kinds.union b.kinds, b.ends, a.guarded || b.guarded⟩ else a

mutual

/-- How an item can begin, given how the rules can begin. -/
def ofItem (rules : Rule → Look) : Item → Look
  | .terminal _ k _ => ofKinds (.singleton k)
  | .terminalOf _ ks _ => ofKinds (.ofList ks)
  | .call _ r _ _ => rules r
  | .branch _ alts => ofAlts rules alts
  | .loop _ body => { ofItems rules body with ends := true }
  | .loopOnce _ body => ofItems rules body
  | .climb _ ops => { ofOps rules ops with ends := true, guarded := true }

def ofItems (rules : Rule → Look) : List Item → Look
  | [] => done
  | i :: is => (ofItem rules i).andThen (ofItems rules is)

def ofAlts (rules : Rule → Look) : List (List Item) → Look
  | [] => none
  | a :: as => (ofItems rules a).or (ofAlts rules as)

def ofOps (rules : Rule → Look) : List (Nat × List Item) → Look
  | [] => none
  | (_, a) :: as => (ofItems rules a).or (ofOps rules as)

end

mutual

/-- The looks of the sites of an item, where `after` is the look of what follows it in its rule. -/
def sitesOfItem (rules : Rule → Look) (after : Look) : Item → List (Nat × Look)
  | .branch s alts =>
    (s, (ofAlts rules alts).andThen after) :: (s + 1, after) :: sitesOfAlts rules after alts
  | .loop s body =>
    let again := { ofItems rules body with ends := true }.andThen after
    (s, again) :: (s + 1, again) :: sitesOfItems rules again body
  | .loopOnce s body =>
    let again := { ofItems rules body with ends := true }.andThen after
    (s, (ofItems rules body).andThen again) :: (s + 1, again) :: sitesOfItems rules again body
  | .climb s ops =>
    let again := { ofOps rules ops with ends := true, guarded := true }.andThen after
    (s, again) :: (s + 1, again) :: (s + 2, { ofOps rules ops with guarded := true }) ::
      sitesOfOps rules again ops
  | i => [(i.site, (ofItem rules i).andThen after), (i.site + 1, after)]

def sitesOfItems (rules : Rule → Look) (after : Look) : List Item → List (Nat × Look)
  | [] => []
  | i :: is =>
    sitesOfItem rules ((ofItems rules is).andThen after) i ++ sitesOfItems rules after is

def sitesOfAlts (rules : Rule → Look) (after : Look) : List (List Item) → List (Nat × Look)
  | [] => []
  | a :: as => sitesOfItems rules after a ++ sitesOfAlts rules after as

def sitesOfOps (rules : Rule → Look) (after : Look) : List (Nat × List Item) → List (Nat × Look)
  | [] => []
  | (_, a) :: as =>
    (Item.guardSite a, { (ofItems rules a).andThen after with guarded := true }) ::
      sitesOfItems rules after a ++ sitesOfOps rules after as

end

/-- A table of looks, one for each rule in order. -/
def ofTable (table : Array Look) (r : Rule) : Look := table.getD r.ctorIdx none

/-- One round: how the rules begin, given how they begin according to the table. -/
def round (g : Grammar) (table : Array Look) : Array Look :=
  (Rule.all.map fun r => ofItems (ofTable table) (g r)).toArray

/-- Rounds until nothing changes, but at most `fuel` of them. -/
def settle (g : Grammar) : Nat → Array Look → Array Look
  | 0, table => table
  | fuel + 1, table =>
    let next := round g table
    if next == table then table else settle g fuel next

/-- How each rule of a grammar can begin. No rule is empty at first, and each round settles at
least one rule or kind. -/
def ofGrammar (g : Grammar) : Array Look :=
  settle g (Rule.all.length * (Kind.all.length + 2)) (Rule.all.map fun _ => none).toArray

end Look

end Callscope
