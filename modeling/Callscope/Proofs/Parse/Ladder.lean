import Callscope.Proofs.Lookahead.Greed
import Callscope.Proofs.Lookahead.Operators
import Callscope.Proofs.Parse.Turns

/-!
# The operator that a loop takes

A phrase of a rule with operators is an operand that a loop of operators extends, and an operator that
ends in an operand reads that with the same rule at a higher level. So the loop of the operand and the
loop around it meet the same token one after the other. The inner loop takes every operator that its level
lets it take: what the outer one takes after it binds looser, unless an operator that does can begin with
the same token.
-/

namespace Callscope

namespace Tables

variable {r : Rule} {alts : List (List Item)} {L : Nat} {ops : List (Nat × List Item)}

/-- The rule is an operand and a loop of operators. Each operator begins with a token, and the operand at
its end is read at no lower level than its own. -/
structure Ladder (t : Tables) (r : Rule) (alts : List (List Item)) (L : Nat)
    (ops : List (Nat × List Item)) : Prop where
  items : ∃ s, (t.rule r).items = [.branch s alts, .climb L ops]
  several : 2 ≤ ops.length
  upfront : ∀ op ∈ ops, Item.upfrontAll op.2 = true
  rises : ∀ op ∈ ops, ∀ s q l, op.2.getLast? = some (.call s r q l) → op.1 ≤ q

/-- Two operators can begin with one token. -/
def Shares (t : Tables) (a b : List Item) : Prop :=
  ∃ k, (Look.ofItems t.first a).kinds.contains k = true ∧
    (Look.ofItems t.first b).kinds.contains k = true

/-- An operator binds looser than an operand that is read at a level, or another one that does can begin
with the same token. -/
def Looser (t : Tables) (ops : List (Nat × List Item)) (op : Nat × List Item) (level : Nat) : Prop :=
  op.1 < level ∨ ∃ other ∈ ops, t.Shares op.2 other.2 ∧ other.1 < level

end Tables

namespace Machine

variable {t : Tables} {d : Decision} {m m' : Machine} {site i : Nat}

/-- A loop is left at a level and between some callers. -/
def Declines (a : Lookahead.Automata) (site level : Nat) (stack : Stack) (current : Token)
    (rest : List Token) : Prop :=
  ∃ (m m' : Machine) (i : Nat), (m.current = current ∧ m.rest = rest) ∧
    (m.frame.level = level ∧ m.frame.stack = stack) ∧ m.decideAt a site none = .ok (m', i) ∧ i ≠ 0

/-- A decision depends on the current token alone or is one of the lookahead. -/
theorem decideAt_cases (hdecision : t.decision? site = some d)
    (h : m.decideAt (.ofTables t) site none = .ok (m', i)) :
    d.direct = true ∧ choiceOf m.current.kind d.heads = some i ∨
      d.direct = false ∧ (Lookahead.choose (.ofTables t) d site m.frame.level m.frame.stack m.current
        (m.current :: m.rest)).1 = .choose (i + 1) := by
  have htables : (Lookahead.Automata.ofTables t).tables = t := rfl
  rw [decideAt, htables, hdecision] at h
  dsimp only at h
  split at h
  · rename_i hdirect
    rw [Option.or_none] at h
    split at h
    · rename_i hchoice
      cases h
      exact .inl ⟨hdirect, hchoice⟩
    · cases h
  · rename_i hdirect
    split at h
    · rename_i alt halt
      cases h
      have hpos := (Lookahead.within_choose hdecision halt).1
      refine .inr ⟨Bool.eq_false_iff.mpr hdirect, ?_⟩
      rw [halt, Nat.sub_add_cancel hpos]
    · cases h

end Machine

namespace Tables.Ladder

open Machine

variable {g : Grammar} {p : Pace} {r : Rule} {alts : List (List Item)} {L : Nat}
  {ops : List (Nat × List Item)} {m : Machine}

section

variable (hg : ∀ r, Item.Proper (g r)) (hl : (ofGrammar g).Ladder r alts L ops)

include hg hl

theorem edges : ∃ shared, ∀ x ∈ Network.edges ((ofGrammar g).rule r).stop shared (.climb L ops),
    (r, x) ∈ edgesOf (numbering g) ∧ (ofGrammar g).edge x.1 = x.2 := by
  obtain ⟨s, hitems⟩ := hl.items
  obtain ⟨shared, hin⟩ := Network.exists_edges_last ((ofGrammar g).rule r).stop false
    [.branch s alts] (.climb L ops)
  refine ⟨shared, fun x hx => ?_⟩
  have hrule : x ∈ Network.edgesRule r ((ofGrammar g).rule r) := by
    refine List.mem_cons_of_mem _ (List.mem_cons_of_mem _ ?_)
    rw [hitems]
    exact hin x hx
  exact ⟨List.mem_flatMap.mpr ⟨_, mem_numbering g r, List.mem_map.mpr ⟨x, hrule, rfl⟩⟩,
    edge_rule hg r x hrule⟩

/-- The decision whether to take an operator. -/
theorem exists_decision : ∃ d, (ofGrammar g).decision? L = some d ∧
    d.nexts = [L + 2, ((ofGrammar g).rule r).stop] ∧ d.climbs = true := by
  obtain ⟨shared, hedges⟩ := hl.edges hg
  exact ⟨_, decision?_of_edge hg (hedges (L, _) List.mem_cons_self).1, rfl, rfl⟩

variable (hpaced : (ofGrammar g).Paced p)

include hpaced

omit hg in
theorem laid : ∃ after l, Item.Climbs (ofGrammar g) p after l L ops := by
  obtain ⟨s, hitems⟩ := hl.items
  have hlaid := hpaced.rules r
  rw [hitems] at hlaid
  exact ⟨_, _, hlaid.cons.2.cons.1.climb⟩

omit hg in
/-- The operator that is decided for can begin with the current token, which is not the end of the
text. -/
theorem begins_of_chosen {op : Nat × List Item}
    (chosen : ops = [op] ∨ ∃ (j : Nat) (m₂ : Machine) (i : Nat),
      (m.ask j).decideAt (.ofTables (.ofGrammar g)) (L + 2) none = .ok (m₂, i) ∧
        op = ops.getD i default) :
    (Look.ofItems (ofGrammar g).first op.2).kinds.contains m.current.kind = true ∧
      m.current.kind ≠ .eof := by
  obtain ⟨after, l, hclimbs⟩ := hl.laid hpaced
  rcases chosen with rfl | ⟨j, m₂, i, decided, rfl⟩
  · exact absurd hl.several (by simp)
  rcases decideAt_speaks hpaced.sound (hclimbs.among hl.several) decided with
    ⟨n, hn, hadmits⟩ | ⟨hother, _⟩
  · rw [List.getElem?_map] at hn
    obtain ⟨op, hop, rfl⟩ := Option.map_eq_some_iff.mp hn
    have hlaid := hclimbs.operator op (List.mem_of_getElem? hop)
    obtain ⟨hends, heof, _⟩ := Item.begins_iff.mp hlaid.begins
    rw [look_of_getElem? hlaid.guard] at hadmits
    have hk : (Look.ofItems (ofGrammar g).first op.2).kinds.contains m.current.kind = true :=
      hadmits.resolve_right (by simp [hends])
    rw [List.getD_eq_getElem?_getD, hop]
    refine ⟨hk, fun hkind => ?_⟩
    rw [hkind, heof] at hk
    cases hk
  · cases hother

variable (hregular : (ofGrammar g).Regular)

include hregular

/-- What a loop takes after an operator whose operand has just ended. -/
theorem looser_of_taken {op inner : Nat × List Item} (hinner : inner ∈ ops)
    {s q : Nat} {l : Option Label} (hlast : inner.2.getLast? = some (.call s r q l))
    (hlevel : m.frame.level ≤ inner.1) (hfull : m.frame.stack.Full)
    (taken : ∃ m₁, m.decideAt (.ofTables (.ofGrammar g)) L none = .ok (m₁, 0))
    (chosen : ops = [op] ∨ ∃ (j : Nat) (m₂ : Machine) (i : Nat),
      (m.ask j).decideAt (.ofTables (.ofGrammar g)) (L + 2) none = .ok (m₂, i) ∧
        op = ops.getD i default)
    (declined : Declines (.ofTables (.ofGrammar g)) L q
      (m.frame.stack.push ((ofGrammar g).returnSite s)) m.current m.rest) :
    (ofGrammar g).Looser ops op q := by
  by_contra htight
  rw [Looser, not_or, Nat.not_lt] at htight
  obtain ⟨hbegins, heof⟩ := hl.begins_of_chosen hpaced chosen
  -- All operators with the current token can be taken at both levels.
  have hlevels : ∀ other ∈ ops, (Look.ofItems (ofGrammar g).first other.2).kinds.contains
      m.current.kind = true → q ≤ other.1 := fun other hother hk =>
    Nat.not_lt.mp fun hlt => htight.2 ⟨other, hother, ⟨_, hbegins, hk⟩, hlt⟩
  have hq := hl.rises inner hinner s q l hlast
  obtain ⟨shared, hedges⟩ := hl.edges hg
  have hedges := fun x hx => (hedges x hx).2
  obtain ⟨after, look, hclimbs⟩ := hl.laid hpaced
  have hpermits := permits_which hedges hpaced.sound hclimbs hlevels
  have hpermits' : (ofGrammar g).Permits (L + 2) m.current.kind m.frame.level :=
    permits_which hedges hpaced.sound hclimbs fun other hother hk => by
      have := hlevels other hother hk
      omega
  obtain ⟨d, hdecision, hnexts, hdclimbs⟩ := hl.exists_decision hg
  have hgrows := grows_which hedges hclimbs hl.upfront (edge_stop hg r) hnexts hdclimbs
  obtain ⟨bound, hloop⟩ := hregular.loops _ _ _ (edge_climb hedges)
  obtain ⟨init, hsplit⟩ := List.getLast?_eq_some_iff.mp hlast
  have hleads := leads_returnSite hedges hinner hsplit
  obtain ⟨m₁, htaken⟩ := taken
  obtain ⟨m', m'', i, ⟨hcurrent, hrest⟩, ⟨hlevel', hstack⟩, hdeclined, hi⟩ := declined
  have hout := decideAt_cases hdecision htaken
  have hin := decideAt_cases hdecision hdeclined
  rw [hcurrent, hrest, hlevel', hstack] at hin
  rcases hout with ⟨hdirect, hout⟩ | ⟨hdirect, hout⟩
  · rcases hin with ⟨_, hin⟩ | ⟨hnot, _⟩
    · exact hi (Option.some.inj (hin.symm.trans hout))
    · cases hdirect.symm.trans hnot
  · rcases hin with ⟨hnot, _⟩ | ⟨_, hin⟩
    · cases hdirect.symm.trans hnot
    · have htwo := (Lookahead.within_choose hdecision hin).2
      rw [hnexts] at htwo
      obtain rfl : i = 1 := by
        simp only [List.length_cons, List.length_nil] at htwo
        omega
      exact Lookahead.choose_ne_second hregular hgrows hpaced.sound hdecision hdirect hloop hleads hfull
        heof hpermits' hpermits hout hin

end

end Tables.Ladder

end Callscope
