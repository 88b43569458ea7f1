import Callscope.Grammar.Look

/-!
# The network of a grammar

The sites of a grammar as a directed graph: each site has one way on. A call remembers the site at
which its caller goes on. A call that ends an alternative goes on at the site where the alternatives
meet, unless another call has to be passed before it in the same alternative; such a call, like one
that ends a rule, has a site of its own from which a jump leads on. Calls that go on at the same site
are told apart no longer once they have returned.
-/

namespace Callscope

inductive Edge where
  | terminal (kinds : KindSet) (next : Nat)
  | call (rule : Rule) (level : Nat) (next : Nat)
  /-- Passed if the level is at least that of the innermost call. -/
  | guard (level : Nat) (next : Nat)
  | jump (next : Nat)
  | fork (nexts : List Nat)
  /-- The choice between one more operator and the end of the rule. -/
  | climb (operator : Nat) (finish : Nat)
  /-- The end of a rule. -/
  | stop (rule : Rule)
  deriving Inhabited

namespace Network

mutual

/-- Whether an item can be passed without a call. -/
def passable : Item → Bool
  | .terminal .. | .terminalOf .. | .loop .. | .climb .. => true
  | .call .. => false
  | .branch _ alts => anyPassable alts
  | .loopOnce _ body => allPassable body

def allPassable : List Item → Bool
  | [] => true
  | i :: is => passable i && allPassable is

def anyPassable : List (List Item) → Bool
  | [] => false
  | a :: as => allPassable a || anyPassable as

end

mutual

/-- The edges of an item that is followed by the site `next`. The flag says whether a call may go on
at `next` itself. -/
def edges (next : Nat) (shared : Bool) : Item → List (Nat × Edge)
  | .terminal s k _ => [(s, .terminal (.singleton k) next)]
  | .terminalOf s ks _ => [(s, .terminal (.ofList ks) next)]
  | .call s r v _ => [(s, .call r v (if shared then next else s + 1)), (s + 1, .jump next)]
  | .branch s alts =>
    (s, .fork (alts.map (Item.entry (s + 1)))) :: (s + 1, .jump next) :: edgesAlts (s + 1) alts
  | .loop s body =>
    (s, .fork [Item.entry (s + 1) body, next]) :: (s + 1, .jump s) ::
      edgesAll (s + 1) true body
  | .loopOnce s body =>
    (s, .jump (Item.entry (s + 1) body)) :: (s + 1, .fork [s, next]) ::
      edgesAll (s + 1) true body
  | .climb s ops =>
    (s, .climb (s + 2) next) :: (s + 1, .jump s) ::
      (s + 2, .fork (ops.map fun o => Item.guardSite o.2)) :: edgesOps (s + 1) ops

/-- The edges of a list of items that is followed by `next`. -/
def edgesAll (next : Nat) (shared : Bool) : List Item → List (Nat × Edge)
  | [] => []
  | [i] => edges next shared i
  | i :: j :: is =>
    edges j.site true i ++ edgesAll next (shared && passable i) (j :: is)

def edgesAlts (next : Nat) : List (List Item) → List (Nat × Edge)
  | [] => []
  | a :: as => edgesAll next true a ++ edgesAlts next as

def edgesOps (next : Nat) : List (Nat × List Item) → List (Nat × Edge)
  | [] => []
  | (v, a) :: as =>
    (Item.guardSite a, .guard v (Item.entry next a)) :: edgesAll next true a ++ edgesOps next as

end

/-- The edges of a rule. A call at the end of a rule never shares its site. -/
def edgesRule (r : Rule) (n : Numbered) : List (Nat × Edge) :=
  (n.start, .jump (Item.entry n.stop n.items)) :: (n.stop, .stop r) ::
    edgesAll n.stop false n.items

/-- A table from a list of numbered entries; sites without an entry get the default. -/
def tabulate {α : Type} (size : Nat) (default : α) (entries : List (Nat × α)) : Array α :=
  entries.foldl (fun table (i, a) => table.setIfInBounds i a) (Array.replicate size default)

end Network

end Callscope
