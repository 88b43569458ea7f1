import Callscope.Proofs.Grammar.Tables
import Callscope.Proofs.Lookahead.Range

/-!
# A choice fits the first token

What a lookahead chooses can begin with the token that it starts at, or need not begin with any. As long
as a configuration has not left the rule that decides, whatever can come from its site on, through the
sites that its calls return to, can come where its choice begins. The rule is left only if the choice can
be empty.
-/

namespace Callscope

/-- A set of stacks with more sites on top of each. -/
def Stack.pushAll (base : Stack) (sites : List Nat) : Stack := sites.foldr push base

/-- What can come from a site on and then, one after the other, from sites returned to. -/
def Tables.through (t : Tables) (site : Nat) (returns : List Nat) : Look :=
  (t.look site).andThen (returns.foldr (fun s l => (t.look s).andThen l) .done)

/-- What can come where a choice begins. -/
def Decision.opening (d : Decision) (t : Tables) (alt : Nat) : Look :=
  t.look (d.nexts.getD (alt - 1) 0)

namespace Config

variable {t : Tables} {d : Decision} {base : Stack} {c c' : Config}

/-- What can come from the configuration on can come where its choice begins. -/
def Rooted (t : Tables) (d : Decision) (base : Stack) (c : Config) : Prop :=
  (d.opening t c.alt).ends = true ∨ c.dipped = false ∧ ∃ returns,
    c.stack = base.pushAll returns ∧ (t.through c.site returns).Below (d.opening t c.alt)

/-- The configuration stands before tokens with which its choice can begin, unless the choice can be
empty. -/
def Grounded (t : Tables) (d : Decision) (c : Config) : Prop :=
  (d.opening t c.alt).ends = true ∨ c.dipped = false ∧ ∃ kinds next,
    t.edge c.site = .terminal kinds next ∧ (Look.ofKinds kinds).Below (d.opening t c.alt)

theorem Rooted.move (h : c.Rooted t d base) (halt : c'.alt = c.alt) (hdipped : c'.dipped = c.dipped)
    (hstack : c'.stack = c.stack) (hlook : (t.look c'.site).Below (t.look c.site)) :
    c'.Rooted t d base := by
  rw [Rooted, halt, hdipped, hstack]
  refine h.imp_right fun ⟨hin, returns, hreturns, hbelow⟩ => ⟨hin, returns, hreturns, ?_⟩
  exact (hlook.andThen (.refl _)).trans hbelow

theorem Rooted.enter (h : c.Rooted t d base) (halt : c'.alt = c.alt)
    (hdipped : c'.dipped = c.dipped) {next : Nat} (hstack : c'.stack = c.stack.push next)
    (hlook : ((t.look c'.site).andThen (t.look next)).Below (t.look c.site)) :
    c'.Rooted t d base := by
  rw [Rooted, halt, hdipped]
  refine h.imp_right fun ⟨hin, returns, hreturns, hbelow⟩ => ⟨hin, next :: returns, ?_, ?_⟩
  · rw [hstack, hreturns]
    rfl
  · have hthrough := hlook.andThen (.refl (returns.foldr (fun s l => (t.look s).andThen l) .done))
    rw [Look.andThen_assoc] at hthrough
    exact hthrough.trans hbelow

/-- At the end of a rule a configuration returns from its innermost call. If it is inside of none, its
choice can be empty. -/
theorem Rooted.leave (h : c.Rooted t d base) (hends : (t.look c.site).ends = true) :
    (d.opening t c.alt).ends = true ∨ c.dipped = false ∧ ∃ site returns,
      c.stack = (base.pushAll returns).push site ∧
        (t.through site returns).Below (d.opening t c.alt) := by
  refine h.elim .inl fun ⟨hin, returns, hreturns, hbelow⟩ => ?_
  cases returns with
  | nil => exact .inl (hbelow.2 (by simp [Tables.through, hends]))
  | cons site returns =>
    refine .inr ⟨hin, site, returns, hreturns,
      Look.Below.trans ⟨fun k hk => ?_, fun he => ?_⟩ hbelow⟩
    · exact Look.contains_andThen.mpr (.inr ⟨hends, hk⟩)
    · rw [Tables.through, Look.ends_andThen, hends]
      exact he

theorem Grounded.of_rooted {kinds : KindSet} {next : Nat} (h : c.Rooted t d base)
    (hedge : t.edge c.site = .terminal kinds next)
    (hlook : (Look.ofKinds kinds).Below (t.look c.site)) : c.Grounded t d := by
  refine h.imp_right fun ⟨hin, returns, _, hbelow⟩ => ⟨hin, kinds, next, hedge, fun k hk => ?_, ?_⟩
  · exact hbelow.1 k (Look.contains_andThen.mpr (.inl (hlook.1 k hk)))
  · intro he
    cases he

theorem Grounded.merge (hc : c.Grounded t d) (hc' : c'.Grounded t d) (hkey : c.key = c'.key)
    (unknown : Bool) : (c.merge unknown c').Grounded t d := by
  have halt : c'.alt = c.alt := congrArg Key.alt hkey.symm
  rw [Grounded, halt] at hc'
  rcases hc with hends | ⟨hin, hedge⟩
  · exact .inl hends
  · refine hc'.imp_right fun ⟨hin', _⟩ => ⟨?_, hedge⟩
    simp [Config.merge, hin, hin']

/-- A configuration that has left its rule or come to an end belongs to a choice that can be empty. -/
theorem Grounded.ends (h : c.Grounded t d)
    (hdone : c.dipped = true ∨ Lookahead.atStop t c = true) :
    (d.opening t c.alt).ends = true := by
  refine h.elim id fun ⟨hin, kinds, next, hedge, _⟩ => ?_
  rcases hdone with hdipped | hstop
  · rw [hin] at hdipped
    cases hdipped
  · rw [Lookahead.atStop, hedge] at hstop
    cases hstop

theorem Grounded.admits {k : Kind} (h : c.Grounded t d) (hreads : c.Reads t k) :
    (d.opening t c.alt).Admits k := by
  rcases h with hends | ⟨_, kinds, next, hedge, hbelow⟩
  · exact .inr hends
  · obtain ⟨kinds', next', hedge', hk⟩ := hreads
    cases hedge.symm.trans hedge'
    exact .inl (hbelow.1 k hk)

end Config

namespace Scope

variable {t : Tables} {d : Decision} {base : Stack}

/-- A step before the first token. -/
theorem rooted_follows (hsound : ∀ s, (t.edge s).Sound t s) {sc : Scope} (htables : sc.tables = t)
    (hend : sc.atEnd = false) {c : Config} (hc : c.Rooted t d base) {depth : Int} {x : Config × Int}
    (h : sc.Follows c depth x) : x.1.Rooted t d base := by
  have hsite := hsound c.site
  cases h with
  | eof _ hatEnd => rw [hend] at hatEnd; cases hatEnd
  | call hedge =>
    rw [htables] at hedge ⊢
    rw [hedge, Edge.Sound] at hsite
    exact hc.enter rfl rfl rfl hsite
  | guard hedge =>
    rw [htables] at hedge
    rw [hedge, Edge.Sound] at hsite
    exact hc.move rfl rfl rfl hsite
  | way hway =>
    rw [htables] at hway
    exact hc.move rfl rfl rfl (Edge.Sound.below_ways hsite hway)
  | @back r top hedge htop =>
    rw [htables] at hedge
    rw [hedge, Edge.Sound] at hsite
    rcases hc.leave hsite with hends | ⟨hin, site, returns, hstack, hbelow⟩
    · exact .inl hends
    · rw [hstack] at htop
      rw [List.mem_singleton.mp htop]
      exact .inr ⟨hin, returns, rfl, hbelow⟩
  | dip hedge hroot =>
    rw [htables] at hedge
    rw [hedge, Edge.Sound] at hsite
    rcases hc.leave hsite with hends | ⟨_, site, returns, hstack, _⟩
    · exact .inl hends
    · rw [hstack] at hroot
      cases hroot

/-- At an end the choice can be empty. -/
theorem grounded_finds (hsound : ∀ s, (t.edge s).Sound t s) {sc : Scope} (htables : sc.tables = t)
    {c e : Config} (hc : c.Rooted t d base) (h : sc.Finds c e) : e.Grounded t d := by
  have hsite := hsound c.site
  cases h with
  | token hedge =>
    rw [htables] at hedge
    rw [hedge, Edge.Sound] at hsite
    exact .of_rooted hc hedge hsite
  | stop hedge hroot =>
    rw [htables] at hedge
    rw [hedge, Edge.Sound] at hsite
    rcases hc.leave hsite with hends | ⟨_, site, returns, hstack, _⟩
    · exact .inl hends
    · rw [hstack] at hroot
      cases hroot
  | ended hedge hends =>
    rw [htables] at hedge
    rw [hedge, Edge.Sound] at hsite
    rcases hc.leave hsite with hempty | ⟨_, site, returns, hstack, _⟩
    · exact .inl hempty
    · rw [hstack] at hends
      cases hends

theorem grounded_closure (hsound : ∀ s, (t.edge s).Sound t s) {sc : Scope}
    (htables : sc.tables = t) (hend : sc.atEnd = false) {cs : List Config}
    (hcs : ∀ c ∈ cs, c.Rooted t d base) : ∀ c ∈ (sc.closure cs).toConfigs, c.Grounded t d :=
  (closure_of (I := fun x => x.1.Rooted t d base)
    (fun _ _ _ hc h => rooted_follows hsound htables hend hc h)
    (fun _ _ _ hc h => grounded_finds hsound htables hc h)
    (fun _ _ hc hd hkey => hc.merge hd hkey _) hcs).of_mem

end Scope

namespace Lookahead

variable {t : Tables} {d : Decision} {cs : List Config}

/-- The choices of a decision that can begin with a kind of token or be empty. -/
def Viable (t : Tables) (d : Decision) (k : Kind) (alt : Nat) : Prop :=
  d.Offered alt ∧ (d.opening t alt).Admits k

theorem grounded_start (hsound : ∀ s, (t.edge s).Sound t s) (unknown : Bool) (level : Nat)
    (d : Decision) (stack : Stack) :
    ∀ c ∈ start t unknown level d stack, c.Grounded t d := by
  suffices hroots : ∀ c : Config, c ∈ _ → c.Rooted t d stack from
    Scope.grounded_closure hsound rfl rfl hroots
  intro c hc
  obtain ⟨i, hi, rfl⟩ := List.mem_mapIdx.mp hc
  refine .inr ⟨rfl, [], rfl, ?_⟩
  have hopening : d.opening t (i + 1) = t.look d.nexts[i] := by
    rw [Decision.opening, Nat.add_sub_cancel, List.getD_eq_getElem _ _ hi]
  rw [hopening, Tables.through, List.foldr_nil, Look.andThen_done]
  exact .refl _

theorem grounded_climbFilter (hcs : ∀ c ∈ cs, c.Grounded t d) (level : Nat) :
    ∀ c ∈ climbFilter level cs, c.Grounded t d := by
  intro c hc
  rw [climbFilter] at hc
  rcases List.mem_append.mp hc with hc | hc
  · obtain ⟨e, he, hec⟩ := List.mem_filterMap.mp hc
    split at hec
    · cases hec
      exact hcs e he
    · cases hec
  · exact hcs c (List.mem_filter.mp hc).1

variable {k : Kind}

theorem viable_step (hrange : ∀ c ∈ cs, c.Within d.Offered) (hcs : ∀ c ∈ cs, c.Grounded t d)
    (unknown : Bool) : ∀ c ∈ step t unknown cs k, c.Within (Viable t d k) := by
  refine within_step_of (fun c hc hreads => ?_) (fun c hc hstop => ?_) unknown
  · exact ⟨hrange c hc, (hcs c hc).admits hreads⟩
  · exact ⟨hrange c hc, .inr ((hcs c hc).ends (.inr hstop))⟩

theorem viable_fallback (hrange : ∀ c ∈ cs, c.Within d.Offered) (hcs : ∀ c ∈ cs, c.Grounded t d)
    {level alt : Nat} (h : fallback t level cs = some alt) : Viable t d k alt := by
  refine within_fallback (fun c hc hdone => ?_) h
  exact ⟨hrange c hc, .inr ((hcs c hc).ends hdone)⟩

/-- The first step of an automaton. -/
theorem Automaton.viable_step_build (hrange : ∀ c ∈ cs, c.Within d.Offered)
    (hcs : ∀ c ∈ cs, c.Grounded t d) (depth : Nat) {b : Automaton}
    (h : (build t depth cs .open).step t k = some b) : b.Within (Viable t d k) := by
  have hnext := viable_step hrange hcs (k := k) true
  unfold step at h
  cases depth with
  | zero =>
    obtain ⟨hb, _⟩ := Option.filter_eq_some_iff.mp h
    cases hb
    exact .leaf hnext (within_verdict hnext)
  | succ depth =>
    obtain ⟨hb, _⟩ := Option.filter_eq_some_iff.mp h
    obtain ⟨th, hth, rfl⟩ := Option.map_eq_some_iff.mp hb
    obtain ⟨before, after, hmap, _⟩ := List.lookup_eq_some_iff.mp hth
    obtain ⟨k', _, heq⟩ := List.mem_map.mp (hmap ▸ List.mem_append_right before List.mem_cons_self)
    cases heq
    exact within_build depth hnext (within_verdict hnext)

/-- What is chosen can begin with the first token, or be empty. -/
theorem viable_choose (hsound : ∀ s, (t.edge s).Sound t s) {site : Nat}
    (hd : t.decision? site = some d) {level alt : Nat} {stack : Stack} {current tk : Token}
    {rest : List Token}
    (h : (choose (.ofTables t) d site level stack current (tk :: rest)).1 = .choose alt) :
    Viable t d tk.kind alt := by
  have htree : ∃ depth cs, (Automata.ofTables t).tree site level = .build t depth cs .open ∧
      (∀ c ∈ cs, c.Within d.Offered) ∧ ∀ c ∈ cs, c.Grounded t d := by
    rcases tree_eq hd level with htree | ⟨top, htree⟩
    · exact ⟨0, [], htree, by simp, by simp⟩
    · refine ⟨_, _, htree, ?_, ?_⟩
      · exact forall_ite (within_climbFilter (within_start true top d .root) top)
          (within_start true top d .root)
      · have hstart := grounded_start hsound true top d .root
        split
        · exact grounded_climbFilter hstart top
        · exact hstart
  obtain ⟨depth, cs, htree, hrange, hground⟩ := htree
  have hconfigs : (Automaton.build t depth cs .open).configs = cs := by cases depth <;> rfl
  rw [choose, htree] at h
  split at h
  · rename_i o last ho
    cases h
    refine within_withoutCallers_cons (fun hnone => ?_)
      (fun b => Automaton.viable_step_build hrange hground depth)
      (fun b hb => within_withoutCallers hb) (congrArg Prod.fst ho)
    rw [hconfigs] at hnone
    exact viable_fallback hrange hground hnone
  · have hrange := within_start (t := t) false level d stack
    have hground := grounded_start hsound false level d stack
    have hnext := viable_step hrange hground (k := tk.kind) false
    exact within_withCallers_cons (viable_fallback hrange hground) hnext
      (within_withCallers hnext) h

end Lookahead

end Callscope
