import Callscope.Grammar.Basic

/-!
# Operators of a grammar

The operators of all rules, numbered in the order in which the grammar lists them. An operator may be
taken where its level is at least the level of the call it is in.
-/

namespace Callscope

/-- A rule without operators was asked for one. -/
structure NoOperators where
  /-- The number of the rule. -/
  rule : Int

def NoOperators.message (e : NoOperators) : String := "No predicate with index:" ++ toString e.rule

namespace Grammar

/-- The levels of the operators of a right-hand side. -/
def levels : List Item → List Nat
  | [] => []
  | .climb _ ops :: is => ops.map Prod.fst ++ levels is
  | _ :: is => levels is

/-- All operators of a grammar, each with its rule and level. -/
def operators (g : Grammar) : List (Rule × Nat) :=
  Rule.all.flatMap fun r => (levels (g r)).map fun n => (r, n)

/-- Whether a rule has operators. -/
def hasOperators (g : Grammar) (r : Rule) : Bool := !(levels (g r)).isEmpty

/-- The rule of a number, if it has operators. -/
def operatorRule? (g : Grammar) : Int → Option Rule
  | .ofNat i => Rule.all[i]?.filter g.hasOperators
  | _ => none

/-- Whether the operator of a number may be taken at a level; none if it is not one of the rule. -/
def allows? (g : Grammar) (r : Rule) (level : Int) : Int → Option Bool
  | .ofNat i =>
    match g.operators[i]? with
    | some (owner, n) => if owner = r then some (level ≤ n) else none
    | none => none
  | _ => none

/-- Asks a rule, given by its number, for one of its operators. Only a rule that has any can be asked. -/
def ask (g : Grammar) (rule level number : Int) : Except NoOperators (Option Bool) :=
  match g.operatorRule? rule with
  | some r => .ok (g.allows? r level number)
  | none => .error ⟨rule⟩

end Grammar

end Callscope
