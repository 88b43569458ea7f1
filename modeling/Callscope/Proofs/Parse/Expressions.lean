import Mathlib.Computability.RegularExpressions
import Callscope.Proofs.Outline.Walk
import Callscope.Proofs.Parse.Shapes
import Callscope.Proofs.Parse.Termination

/-!
# Rules as regular expressions

The children of a node are a word of a regular expression over kinds of tokens and rules, which the
right-hand side of its rule writes down. A rule with operators adds a second sort of node: itself as the
left operand, and then what follows it. A text that is read without a report has a tree all of whose nodes
are such words, and no leaf of it is made up or left over.
-/

namespace Callscope

open scoped Computability

theorem mem_matches_sum {α : Type} {es : List (RegularExpression α)} {w : List α} :
    w ∈ es.sum.matches' ↔ ∃ e ∈ es, w ∈ e.matches' := by
  induction es with
  | nil =>
    rw [List.sum_nil, RegularExpression.matches'_zero]
    simp [Language.notMem_zero]
  | cons e es ih =>
    rw [List.sum_cons, RegularExpression.matches'_add, Language.mem_add, ih]
    simp

namespace Item

mutual

/-- What an item stands for. A loop of operators adds nothing to the phrase before it. -/
def regex : Item → RegularExpression Symbol
  | terminal _ k _ => .char (.token k)
  | terminalOf _ ks _ => (ks.map fun k => .char (.token k)).sum
  | call _ r _ _ => .char (.phrase r)
  | branch _ alts => regexAlts alts
  | loop _ body => (regexAll body).star
  | loopOnce _ body => regexAll body * (regexAll body).star
  | climb _ _ => 1

def regexAll : List Item → RegularExpression Symbol
  | [] => 1
  | i :: is => regex i * regexAll is

def regexAlts : List (List Item) → RegularExpression Symbol
  | [] => 0
  | a :: as => regexAll a + regexAlts as

end

/-- What the children of a phrase can be: a right-hand side, or the phrase itself as the left operand of
one of its operators. -/
def phraseRegex (r : Rule) (items : List Item) : RegularExpression Symbol :=
  regexAll items + .char (.phrase r) * ((trailing items).map fun op => regexAll op.2).sum

/-- At least one round is one round and any number of further ones. -/
theorem spells_loopOnce_iff {s : Nat} {body : List Item} {w : List Symbol} :
    Spells (loopOnce s body) w ↔
      ∃ u, SpellsAll body u ∧ ∃ v, Spells (loop s body) v ∧ u ++ v = w := by
  constructor
  · intro h
    rw [Spells] at h
    obtain ⟨ws, hne, rfl, hws⟩ := h
    obtain ⟨u, us, rfl⟩ := List.exists_cons_of_ne_nil hne
    refine ⟨u, hws u List.mem_cons_self, us.flatten, ?_, rfl⟩
    rw [Spells]
    exact ⟨us, rfl, fun x hx => hws x (List.mem_cons_of_mem _ hx)⟩
  · rintro ⟨u, hu, v, hv, rfl⟩
    exact spells_loopOnce_cons hu hv

mutual

theorem mem_regex (i : Item) (w : List Symbol) : w ∈ (regex i).matches' ↔ Spells i w := by
  cases i with
  | terminal | call =>
    rw [regex, Spells]
    exact Set.mem_singleton_iff
  | terminalOf s ks l =>
    rw [regex, Spells, mem_matches_sum]
    simp only [List.mem_map, exists_exists_and_eq_and]
    rfl
  | branch s alts => rw [regex, Spells, mem_regexAlts]
  | loop s body =>
    rw [regex, Spells]
    simp only [RegularExpression.matches', Language.mem_kstar, mem_regexAll]
  | loopOnce s body =>
    rw [regex, spells_loopOnce_iff]
    simp only [RegularExpression.matches', Language.mem_mul, Language.mem_kstar, mem_regexAll,
      Spells]
  | climb =>
    rw [regex, Spells, RegularExpression.matches'_epsilon, Language.mem_one]

theorem mem_regexAll (is : List Item) (w : List Symbol) :
    w ∈ (regexAll is).matches' ↔ SpellsAll is w := by
  cases is with
  | nil => rw [regexAll, SpellsAll, RegularExpression.matches'_epsilon, Language.mem_one]
  | cons i is =>
    rw [regexAll, SpellsAll, RegularExpression.matches'_mul, Language.mem_mul]
    simp only [mem_regex i, mem_regexAll is]
    constructor
    · rintro ⟨u, hu, v, hv, rfl⟩
      exact ⟨u, v, rfl, hu, hv⟩
    · rintro ⟨u, v, rfl, hu, hv⟩
      exact ⟨u, hu, v, hv, rfl⟩

theorem mem_regexAlts (as : List (List Item)) (w : List Symbol) :
    w ∈ (regexAlts as).matches' ↔ SpellsOne as w := by
  cases as with
  | nil =>
    rw [regexAlts, SpellsOne, RegularExpression.matches'_zero]
    exact iff_false_intro (Language.notMem_zero w)
  | cons a as =>
    rw [regexAlts, SpellsOne, RegularExpression.matches'_add, Language.mem_add, mem_regexAll,
      mem_regexAlts]

end

/-- The forms of a phrase are the words of its expression. -/
theorem mem_phraseRegex {r : Rule} {items : List Item} {w : List Symbol} :
    w ∈ (phraseRegex r items).matches' ↔ Forms r items w := by
  rw [phraseRegex, RegularExpression.matches'_add, Language.mem_add, mem_regexAll, Forms,
    RegularExpression.matches'_mul, Language.mem_mul]
  refine or_congr Iff.rfl ⟨?_, ?_⟩
  · rintro ⟨u, hu, v, hv, rfl⟩
    obtain rfl : u = [.phrase r] := hu
    obtain ⟨e, he, hv⟩ := mem_matches_sum.mp hv
    obtain ⟨op, hop, rfl⟩ := List.mem_map.mp he
    exact ⟨op, hop, v, rfl, (mem_regexAll op.2 v).mp hv⟩
  · rintro ⟨op, hop, v, rfl, hv⟩
    refine ⟨[.phrase r], rfl, v, mem_matches_sum.mpr ⟨_, List.mem_map_of_mem hop, ?_⟩, rfl⟩
    exact (mem_regexAll op.2 v).mpr hv

end Item

/-- The regular expression of a rule of Java. -/
def Java.regex (r : Rule) : RegularExpression Symbol := Item.phraseRegex r (Java.body r)

namespace Tree

variable {g : Grammar} {t : Tree}

/-- No leaf of a derived tree is made up or left over. -/
theorem Derived.leaf_eq_token (h : t.Derived g) {l : Tree} (hl : l ∈ t.leaves) :
    ∃ tk, l = .token tk := by
  induction h with
  | @token tk => exact ⟨tk, List.mem_singleton.mp hl⟩
  | node form parts ended ih =>
    rw [leaves] at hl
    obtain ⟨c, hc, hl⟩ := mem_leavesAll.mp hl
    exact ih c hc hl

end Tree

/-- Every text that is read without a report, as a phrase of any rule at any level, has a tree of that rule
without leaves that are made up or left over, and the children of each of its nodes are a word of the
regular expression of the rule of that node. -/
theorem Parse.clean_tree_is_regular (text : String) (rule : Rule) (level : Nat) :
    ∃ p, Parse.ofText? text rule level = some p ∧ (p.reports = [] →
      p.tree.rule? = some rule ∧ (∀ l ∈ p.tree.leaves, ∃ t, l = .token t) ∧
      ∀ u above r, .enter u above ∈ p.tree.walk → u.rule? = some r →
        u.children.map Symbol.of ∈ (Java.regex r).matches') := by
  obtain ⟨p, hp⟩ := exists_ofText? text rule level
  refine ⟨p, hp, fun hclean => ?_⟩
  obtain ⟨hderived, hrule⟩ := derived_of_reports_nil hp hclean
  refine ⟨hrule, fun l hl => hderived.leaf_eq_token hl, fun u above r hu hr => ?_⟩
  have hnode : u.Derived Java.body :=
    Collector.of_enter_mem_visits (fun h hc => h.of_mem hc) p.tree hderived hu
  exact Item.mem_phraseRegex.mpr (hnode.forms hr)

/-- Only the last parameter of a method can stand for several arguments. -/
example : (Java.regex .formalParameterList).rmatch
    [.phrase .formalParameter, .token .comma, .phrase .lastFormalParameter] = true := by
  decide +kernel

example : (Java.regex .formalParameterList).rmatch
    [.phrase .lastFormalParameter, .token .comma, .phrase .formalParameter] = false := by
  decide +kernel

/-- A name is read without a report. -/
theorem Parse.clean_tree_is_regular_name :
    ∃ p, Parse.ofText? "x" .identifier 0 = some p ∧ p.reports = [] ∧
      p.tree.rule? = some .identifier ∧ (∀ l ∈ p.tree.leaves, ∃ t, l = .token t) ∧
      ∀ u above r, .enter u above ∈ p.tree.walk → u.rule? = some r →
        u.children.map Symbol.of ∈ (Java.regex r).matches' := by
  have hread : (Parse.ofText? "x" .identifier 0).map (·.reports.isEmpty) = some true := by
    decide +kernel
  obtain ⟨p, hp, hregular⟩ := clean_tree_is_regular "x" .identifier 0
  rw [hp] at hread
  have hclean : p.reports = [] := List.isEmpty_iff.mp (Option.some.inj hread)
  exact ⟨p, hp, hclean, hregular hclean⟩

end Callscope
