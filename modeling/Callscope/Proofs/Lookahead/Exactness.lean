import Callscope.Proofs.Lookahead.Range
import Callscope.Proofs.Lookahead.Sights

/-!
# Closures keep what is seen

With known callers, the closure of a set of configurations sees for each choice what the set itself
sees: following the network loses nothing and adds nothing, also where a loop of operators is left at
once because every caller returns to it.
-/

namespace Callscope

namespace Config

/-- A sight from the site of the configuration, for some of its stacks. -/
def Sees (t : Tables) (atEnd : Bool) (w : Sight) (c : Config) : Prop :=
  ∃ σ, c.stack.Holds σ ∧ t.Sees atEnd c.site σ w

end Config

/-- A sight of a choice. After the end of the text only the ends of rules count. -/
def Shows (t : Tables) (atEnd : Bool) (cs : List Config) (alt : Nat) (w : Sight) : Prop :=
  ∃ c ∈ cs, c.alt = alt ∧ (atEnd = true → Lookahead.atStop t c = true) ∧ c.Sees t atEnd w

namespace Configs

/-- Every configuration is held under its own key. -/
def Keyed (s : Configs) : Prop := s.Each fun _ => True

variable {t : Tables} {e : Bool} {s : Configs} {c d : Config} {alt : Nat} {w : Sight}

theorem Keyed.insert (hs : s.Keyed) (unknown : Bool) (c : Config) :
    (s.insertConfig unknown c).Keyed :=
  Each.insert hs trivial fun _ _ _ => trivial

/-- A property that a merged configuration has if one of the two has it. -/
def Splits (Q : Config → Prop) : Prop :=
  ∀ c d : Config, c.key = d.key → (Q (c.merge false d) ↔ Q c ∨ Q d)

/-- Some configuration of the set has a property. -/
def Meets (s : Configs) (Q : Config → Prop) : Prop := ∃ c ∈ s.toConfigs, Q c

variable {Q : Config → Prop}

theorem not_meets_empty : ¬ Meets {} Q := by
  rintro ⟨c, hc, _⟩
  obtain ⟨k, hk⟩ := mem_toConfigs.mp hc
  simp at hk

theorem getElem?_insertConfig_of_ne {k : Key} (h : c.key ≠ k) :
    (s.insertConfig false c)[k]? = s[k]? := by
  rw [insertConfig, Std.HashMap.getElem?_alter, if_neg (by simpa using h)]

theorem getElem?_insertConfig_of_none (h : s[c.key]? = none) :
    (s.insertConfig false c)[c.key]? = some c := by
  rw [insertConfig, Std.HashMap.getElem?_alter, if_pos BEq.rfl, h]

theorem getElem?_insertConfig_of_some (h : s[c.key]? = some d) :
    (s.insertConfig false c)[c.key]? = some (d.merge false c) := by
  rw [insertConfig, Std.HashMap.getElem?_alter, if_pos BEq.rfl, h]

/-- One configuration more. -/
theorem meets_insert (hs : s.Keyed) (hQ : Splits Q) :
    (s.insertConfig false c).Meets Q ↔ s.Meets Q ∨ Q c := by
  constructor
  · rintro ⟨x, hx, hprop⟩
    obtain ⟨k, hk⟩ := mem_toConfigs.mp hx
    by_cases hck : c.key = k
    · subst hck
      cases hd : s[c.key]? with
      | none =>
        rw [getElem?_insertConfig_of_none hd] at hk
        cases hk
        exact .inr hprop
      | some d =>
        rw [getElem?_insertConfig_of_some hd] at hk
        cases hk
        exact ((hQ d c (hs _ d hd).1).mp hprop).imp_left fun h => ⟨d, mem_toConfigs.mpr ⟨_, hd⟩, h⟩
    · rw [getElem?_insertConfig_of_ne hck] at hk
      exact .inl ⟨x, mem_toConfigs.mpr ⟨k, hk⟩, hprop⟩
  · rintro (⟨x, hx, hprop⟩ | hprop)
    · obtain ⟨k, hk⟩ := mem_toConfigs.mp hx
      by_cases hck : c.key = k
      · subst hck
        exact ⟨x.merge false c, mem_toConfigs.mpr ⟨_, getElem?_insertConfig_of_some hk⟩,
          (hQ x c (hs _ x hk).1).mpr (.inl hprop)⟩
      · exact ⟨x, mem_toConfigs.mpr ⟨k, (getElem?_insertConfig_of_ne hck).trans hk⟩, hprop⟩
    · cases hd : s[c.key]? with
      | none => exact ⟨c, mem_toConfigs.mpr ⟨_, getElem?_insertConfig_of_none hd⟩, hprop⟩
      | some d =>
        exact ⟨d.merge false c, mem_toConfigs.mpr ⟨_, getElem?_insertConfig_of_some hd⟩,
          (hQ d c (hs _ d hd).1).mpr (.inr hprop)⟩

theorem splits_alt (alt : Nat) : Splits fun c => c.alt = alt := by
  intro c d hkey
  have halt : d.alt = c.alt := (congrArg Key.alt hkey).symm
  simp only [Config.merge, halt, or_self]

theorem splits_sees (alt : Nat) (w : Sight) : Splits fun c => c.alt = alt ∧ c.Sees t e w := by
  intro c d hkey
  have hsite : d.site = c.site := (congrArg Key.site hkey).symm
  have halt : d.alt = c.alt := (congrArg Key.alt hkey).symm
  simp only [Config.Sees, Config.merge, Stack.holds_merge, or_and_right, exists_or, and_or_left,
    hsite, halt]

theorem splits_shows (alt : Nat) (w : Sight) :
    Splits fun c => c.alt = alt ∧ (e = true → Lookahead.atStop t c = true) ∧ c.Sees t e w := by
  intro c d hkey
  have hsite : d.site = c.site := (congrArg Key.site hkey).symm
  have halt : d.alt = c.alt := (congrArg Key.alt hkey).symm
  simp only [Config.Sees, Config.merge, Stack.holds_merge, or_and_right, exists_or, and_or_left,
    hsite, halt, Lookahead.atStop]

theorem not_shows_empty : ¬ Shows t e (toConfigs {}) alt w := not_meets_empty

theorem shows_insert (hs : s.Keyed) :
    Shows t e (s.insertConfig false c).toConfigs alt w ↔ Shows t e s.toConfigs alt w ∨
      c.alt = alt ∧ (e = true → Lookahead.atStop t c = true) ∧ c.Sees t e w :=
  meets_insert hs (splits_shows alt w)

end Configs

/-! ## Operators before the first token -/

namespace Tables

/-- Forks and at most one test of a level lead from a site to one before a token or at an end. -/
inductive Fronts (t : Tables) : Nat → Option Nat → Nat → Prop
  | token {s next : Nat} {kinds : KindSet} (h : t.edge s = .terminal kinds next) : Fronts t s none s
  | stop {s : Nat} {r : Rule} (h : t.edge s = .stop r) : Fronts t s none s
  | fork {s n x : Nat} {nexts : List Nat} {g : Option Nat} (h : t.edge s = .fork nexts)
      (hn : n ∈ nexts) (hx : Fronts t n g x) : Fronts t s g x
  | guard {s n x level : Nat} (h : t.edge s = .guard level n) (hx : Fronts t n none x) :
      Fronts t s (some level) x

/-- All ways from a site are of this kind; `guarded` says whether there may be a test. -/
inductive Fronted (t : Tables) : Bool → Nat → Prop
  | token {guarded : Bool} {s next : Nat} {kinds : KindSet} (h : t.edge s = .terminal kinds next) :
      Fronted t guarded s
  | stop {guarded : Bool} {s : Nat} {r : Rule} (h : t.edge s = .stop r) : Fronted t guarded s
  | fork {guarded : Bool} {s : Nat} {nexts : List Nat} (h : t.edge s = .fork nexts)
      (hn : ∀ n ∈ nexts, Fronted t guarded n) : Fronted t guarded s
  | guard {s n level : Nat} (h : t.edge s = .guard level n) (hn : Fronted t false n) :
      Fronted t true s

variable {t : Tables} {s n x : Nat} {g : Option Nat}

theorem Fronted.weaken {guarded : Bool} (h : t.Fronted guarded s) : t.Fronted true s := by
  induction h with
  | token h => exact .token h
  | stop h => exact .stop h
  | fork h hn ih => exact .fork h ih
  | guard h hn => exact .guard h hn

theorem Fronted.ways {guarded : Bool} (h : t.Fronted guarded s) (hn : n ∈ (t.edge s).ways) :
    t.Fronted true n := by
  cases h with
  | token h | stop h =>
    rw [h] at hn
    cases hn
  | fork h hnexts =>
    rw [h] at hn
    exact (hnexts n hn).weaken
  | guard h hnext =>
    rw [h] at hn
    rw [List.mem_singleton.mp hn]
    exact hnext.weaken

theorem fronts_token {kinds : KindSet} {next : Nat} (h : t.edge s = .terminal kinds next) :
    t.Fronts s g x ↔ g = none ∧ x = s := by
  constructor
  · intro hx
    cases hx with
    | token => exact ⟨rfl, rfl⟩
    | stop h' | fork h' | guard h' => cases h.symm.trans h'
  · rintro ⟨rfl, rfl⟩
    exact .token h

theorem fronts_stop {r : Rule} (h : t.edge s = .stop r) : t.Fronts s g x ↔ g = none ∧ x = s := by
  constructor
  · intro hx
    cases hx with
    | stop => exact ⟨rfl, rfl⟩
    | token h' | fork h' | guard h' => cases h.symm.trans h'
  · rintro ⟨rfl, rfl⟩
    exact .stop h

theorem fronts_fork {nexts : List Nat} (h : t.edge s = .fork nexts) :
    t.Fronts s g x ↔ ∃ n ∈ nexts, t.Fronts n g x := by
  constructor
  · intro hx
    cases hx with
    | fork h' hn hx =>
      cases h.symm.trans h'
      exact ⟨_, hn, hx⟩
    | token h' | stop h' | guard h' => cases h.symm.trans h'
  · rintro ⟨n, hn, hx⟩
    exact .fork h hn hx

theorem fronts_guard {level : Nat} (h : t.edge s = .guard level n) :
    t.Fronts s g x ↔ g = some level ∧ t.Fronts n none x := by
  constructor
  · intro hx
    cases hx with
    | guard h' hx =>
      cases h.symm.trans h'
      exact ⟨rfl, hx⟩
    | token h' | stop h' | fork h' => cases h.symm.trans h'
  · rintro ⟨rfl, hx⟩
    exact .guard h hx

theorem Fronted.eq_none (h : t.Fronted false s) (hx : t.Fronts s g x) : g = none := by
  generalize hb : false = guarded at h
  induction h generalizing g with
  | token h => exact ((fronts_token h).mp hx).1
  | stop h => exact ((fronts_stop h).mp hx).1
  | fork h hn ih =>
    obtain ⟨n, hn, hx⟩ := (fronts_fork h).mp hx
    exact ih n hn hx hb
  | guard h hn => cases hb

end Tables

/-- A sight from the configuration whose operator may be taken at a level. -/
def Config.Opens (t : Tables) (level : Nat) (w : Sight) (c : Config) : Prop :=
  ∃ σ, c.stack.Holds σ ∧ ∃ g x, t.Fronts c.site g x ∧ Lookahead.passes level g = true ∧
    t.Sees false x σ w

/-! ## Following the network -/

namespace Scope

variable {sc : Scope} {c : Config} {depth : Int} {p : Progress} {alt : Nat} {w : Sight}

/-- A configuration is at the level of the decision while levels count. -/
def Counts (sc : Scope) (depth : Int) : Prop := sc.guards = true ∧ depth = 0

/-- Where levels count there are only forks and tests. -/
def Clear (sc : Scope) (x : Config × Int) : Prop :=
  sc.guards = true → x.2 < 0 ∨ x.2 = 0 ∧ sc.tables.Fronted true x.1.site

open Classical in
/-- What is seen from a configuration that is still to be followed. -/
def Sights (sc : Scope) (w : Sight) (x : Config × Int) : Prop :=
  if sc.Counts x.2 then x.1.Opens sc.tables sc.level w else x.1.Sees sc.tables sc.atEnd w

/-- What is seen by a choice from configurations still to be followed. -/
def WorkShows (sc : Scope) (work : Work) (alt : Nat) (w : Sight) : Prop :=
  ∃ x ∈ work, x.1.alt = alt ∧ sc.Sights w x

/-- A scope with known callers in a network all of whose loops of operators end their rules. -/
structure Known (sc : Scope) : Prop where
  known : sc.unknown = false
  early : sc.guards = true → sc.atEnd = false
  loops : ∀ s operator finish, sc.tables.edge s = .climb operator finish →
    ∃ bound, sc.tables.Loop s operator finish bound

theorem workShows_append {work work' : Work} :
    sc.WorkShows (work ++ work') alt w ↔ sc.WorkShows work alt w ∨ sc.WorkShows work' alt w := by
  simp only [WorkShows, List.mem_append, or_and_right, exists_or]

theorem workShows_cons {x : Config × Int} {work : Work} :
    sc.WorkShows (x :: work) alt w ↔ x.1.alt = alt ∧ sc.Sights w x ∨ sc.WorkShows work alt w := by
  simp only [WorkShows, List.mem_cons, or_and_right, exists_or, exists_eq_left]

theorem not_workShows_nil : ¬ sc.WorkShows [] alt w := by
  rintro ⟨x, hx, _⟩
  cases hx

theorem workShows_singleton {x : Config × Int} :
    sc.WorkShows [x] alt w ↔ x.1.alt = alt ∧ sc.Sights w x := by
  rw [workShows_cons, or_iff_left not_workShows_nil]

theorem shows_find (hsc : sc.Known) (hp : p.found.Keyed) :
    Shows sc.tables sc.atEnd (p.find sc c).found.toConfigs alt w ↔
      Shows sc.tables sc.atEnd p.found.toConfigs alt w ∨ c.alt = alt ∧
        (sc.atEnd = true → Lookahead.atStop sc.tables c = true) ∧ c.Sees sc.tables sc.atEnd w := by
  rw [Progress.find, hsc.known]
  exact Configs.shows_insert hp

/-- Finding a configuration at an end. -/
theorem shows_find_stop (hsc : sc.Known) (hp : p.found.Keyed) {r : Rule}
    (hedge : sc.tables.edge c.site = .stop r) :
    Shows sc.tables sc.atEnd (p.find sc c).found.toConfigs alt w ↔
      c.alt = alt ∧ c.Sees sc.tables sc.atEnd w ∨
        Shows sc.tables sc.atEnd p.found.toConfigs alt w := by
  have hstop : Lookahead.atStop sc.tables c = true := by rw [Lookahead.atStop, hedge]
  rw [shows_find hsc hp, or_comm]
  simp only [hstop, implies_true, true_and]

theorem sights_of_counts {x : Config × Int} (h : sc.Counts x.2) :
    sc.Sights w x ↔ x.1.Opens sc.tables sc.level w := by
  rw [Sights, if_pos h]

theorem sights_of_not_counts {x : Config × Int} (h : ¬ sc.Counts x.2) :
    sc.Sights w x ↔ x.1.Sees sc.tables sc.atEnd w := by
  rw [Sights, if_neg h]

/-- Where levels count, the configuration stands before a token, at an end, at a fork or at a test. -/
theorem Clear.fronted (h : sc.Clear (c, depth)) (hcounts : sc.Counts depth) :
    sc.tables.Fronted true c.site := by
  rcases h hcounts.1 with hneg | ⟨_, hfronted⟩
  · have := hcounts.2
    omega
  · exact hfronted

/-- A configuration that is clear stays so below the level of the decision. -/
theorem Clear.below (h : sc.Clear (c, depth)) (hcounts : ¬ sc.Counts depth) (hguards : sc.guards = true) :
    depth < 0 := by
  rcases h hguards with hneg | ⟨hzero, _⟩
  · exact hneg
  · exact absurd ⟨hguards, hzero⟩ hcounts

/-- What is seen from a place that is neither before a token nor at a call or an end. -/
theorem sees_nexts (hways : (sc.tables.edge c.site).ways = (sc.tables.edge c.site).nexts)
    (hstop : ∀ r, sc.tables.edge c.site ≠ .stop r) :
    c.Sees sc.tables sc.atEnd w ↔ ∃ n ∈ (sc.tables.edge c.site).ways,
      Config.Sees sc.tables sc.atEnd w { c with site := n } := by
  simp only [Config.Sees, Tables.sees_ways hways hstop]
  constructor
  · rintro ⟨σ, hσ, n, hn, hs⟩
    exact ⟨n, hn, σ, hσ, hs⟩
  · rintro ⟨n, hn, σ, hσ, hs⟩
    exact ⟨σ, hσ, n, hn, hs⟩

theorem sees_enter {r : Rule} {level next : Nat}
    (hedge : sc.tables.edge c.site = .call r level next) :
    c.Sees sc.tables sc.atEnd w ↔ Config.Sees sc.tables sc.atEnd w
      { c with site := (sc.tables.rule r).start, stack := c.stack.push next } := by
  simp only [Config.Sees, Tables.sees_call hedge, Stack.holds_push]
  constructor
  · rintro ⟨σ, hσ, hs⟩
    exact ⟨next :: σ, ⟨σ, rfl, hσ⟩, hs⟩
  · rintro ⟨_, ⟨σ, rfl, hσ⟩, hs⟩
    exact ⟨σ, hσ, hs⟩

/-- At the end of a rule the calls return. -/
theorem sees_leave {r : Rule} (hedge : sc.tables.edge c.site = .stop r) :
    c.Sees sc.tables sc.atEnd w ↔
      (∃ top ∈ c.stack.tops, Config.Sees sc.tables sc.atEnd w
        { c with site := top.1, stack := top.2, loose := false }) ∨
      c.stack.ends = true ∧ Config.Sees sc.tables sc.atEnd w { c with stack := .root } := by
  constructor
  · rintro ⟨σ, hσ, hs⟩
    cases hσ with
    | ends hends => exact .inr ⟨hends, [], Stack.holds_root.mpr rfl, hs⟩
    | top htop hbelow =>
      exact .inl ⟨_, htop, _, hbelow, (Tables.sees_stop_cons hedge).mp hs⟩
  · rintro (⟨top, htop, σ, hσ, hs⟩ | ⟨hends, σ, hσ, hs⟩)
    · exact ⟨top.1 :: σ, .top htop hσ, (Tables.sees_stop_cons hedge).mpr hs⟩
    · rw [Stack.holds_root.mp hσ] at hs
      exact ⟨[], .ends hends, hs⟩

/-- A loop that every caller returns to can be left at once. -/
theorem sees_of_leaves (hsc : sc.Known) {operator finish : Nat}
    (hedge : sc.tables.edge c.site = .climb operator finish)
    (hleaves : leaves sc.tables c.site c.stack = true) :
    c.Sees sc.tables sc.atEnd w ↔ Config.Sees sc.tables sc.atEnd w { c with site := finish } := by
  obtain ⟨bound, hloop⟩ := hsc.loops _ _ _ hedge
  simp only [leaves, Bool.and_eq_true, Bool.not_eq_true', List.all_eq_true] at hleaves
  obtain ⟨⟨hends, _⟩, hall⟩ := hleaves
  have hreturn : ∀ {σ}, c.stack.Holds σ → (sc.tables.Sees sc.atEnd c.site σ w ↔
      sc.tables.Sees sc.atEnd finish σ w) := by
    intro σ hσ
    cases hσ with
    | ends h =>
      rw [h] at hends
      cases hends
    | top htop hbelow =>
      have hleads := hall _ htop
      rw [hloop.sees_operator, or_iff_right_iff_imp]
      intro hop
      rw [hloop.sees_return hleads hloop.first] at hop
      exact (hloop.sees_finish hleads).mpr (hloop.sees_operator.mpr (.inl hop))
  exact exists_congr fun σ => and_congr_right fun hσ => hreturn hσ

/-- A step at the end of a rule. -/
theorem shows_stop (hsc : sc.Known) (hp : p.found.Keyed) {r : Rule}
    (hedge : sc.tables.edge c.site = .stop r) (hdepth : ¬ sc.Counts (depth - 1)) :
    sc.WorkShows (sc.expand c depth p).1 alt w ∨
        Shows sc.tables sc.atEnd (sc.expand c depth p).2.found.toConfigs alt w ↔
      c.alt = alt ∧ c.Sees sc.tables sc.atEnd w ∨
        Shows sc.tables sc.atEnd p.found.toConfigs alt w := by
  have hreturned : sc.WorkShows (c.stack.tops.map fun top =>
      ({ c with site := top.1, stack := top.2, loose := false }, depth - 1)) alt w ↔
      c.alt = alt ∧ ∃ top ∈ c.stack.tops, Config.Sees sc.tables sc.atEnd w
        { c with site := top.1, stack := top.2, loose := false } := by
    simp only [WorkShows, List.mem_map]
    constructor
    · rintro ⟨_, ⟨top, htop, rfl⟩, halt, hs⟩
      exact ⟨halt, top, htop, (sights_of_not_counts hdepth).mp hs⟩
    · rintro ⟨halt, top, htop, hs⟩
      exact ⟨_, ⟨top, htop, rfl⟩, halt, (sights_of_not_counts hdepth).mpr hs⟩
  rw [expand, hedge]
  dsimp only
  split
  · rw [if_pos (by rw [hsc.known]; rfl)]
    dsimp only
    rw [shows_find_stop hsc hp hedge, or_iff_right not_workShows_nil]
  · dsimp only
    rw [hreturned, sees_leave hedge]
    split
    · rename_i hends
      rw [shows_find_stop (c := { c with stack := .root }) hsc hp hedge]
      simp only [hends, true_and]
      rw [and_or_left, or_assoc]
    · rename_i hends
      simp only [hends, Bool.false_eq_true, false_and, or_false]

/-- A step below the level of the decision, or when levels do not count. -/
theorem shows_expand_free (hsc : sc.Known) (hp : p.found.Keyed) (hclear : sc.Clear (c, depth))
    (hcounts : ¬ sc.Counts depth) :
    sc.WorkShows (sc.expand c depth p).1 alt w ∨
        Shows sc.tables sc.atEnd (sc.expand c depth p).2.found.toConfigs alt w ↔
      c.alt = alt ∧ c.Sees sc.tables sc.atEnd w ∨
        Shows sc.tables sc.atEnd p.found.toConfigs alt w := by
  have hsame : ∀ {d : Config}, sc.Sights w (d, depth) ↔ d.Sees sc.tables sc.atEnd w :=
    sights_of_not_counts hcounts
  have hways : ∀ nexts : List Nat, (sc.tables.edge c.site).ways = nexts →
      (sc.tables.edge c.site).ways = (sc.tables.edge c.site).nexts →
      (∀ r, sc.tables.edge c.site ≠ .stop r) →
      (sc.WorkShows (nexts.map fun n => ({ c with site := n }, depth)) alt w ↔
        c.alt = alt ∧ c.Sees sc.tables sc.atEnd w) := by
    rintro nexts rfl hnexts hstop
    rw [sees_nexts hnexts hstop]
    simp only [WorkShows, List.mem_map]
    constructor
    · rintro ⟨_, ⟨n, hn, rfl⟩, halt, hs⟩
      exact ⟨halt, n, hn, hsame.mp hs⟩
    · rintro ⟨halt, n, hn, hs⟩
      exact ⟨_, ⟨n, hn, rfl⟩, halt, hsame.mpr hs⟩
  cases hedge : sc.tables.edge c.site with
  | terminal kinds next =>
    rw [expand, hedge]
    dsimp only
    rw [shows_find hsc hp]
    cases hend : sc.atEnd with
    | false => simp [not_workShows_nil, or_comm]
    | true =>
      have hsees : c.Sees sc.tables true w ↔ kinds.contains .eof = true ∧
          Config.Sees sc.tables true w { c with site := next } := by
        simp only [Config.Sees, Tables.sees_terminal_atEnd hedge]
        constructor
        · rintro ⟨σ, hσ, hkinds, hs⟩
          exact ⟨hkinds, σ, hσ, hs⟩
        · rintro ⟨hkinds, σ, hσ, hs⟩
          exact ⟨σ, hσ, hkinds, hs⟩
      have hstop : Lookahead.atStop sc.tables c = false := by rw [Lookahead.atStop, hedge]
      rw [Bool.true_and, hsees]
      simp only [hstop, Bool.false_eq_true, imp_false, not_true_eq_false, false_and, and_false,
        or_false]
      split
      · rename_i hkinds
        rw [workShows_singleton, hsame, hend]
        simp only [hkinds, true_and]
      · rename_i hkinds
        simp only [hkinds, false_and, and_false, or_iff_right not_workShows_nil, false_or,
          Bool.false_eq_true]
  | call r level next =>
    have hdepth : ¬ sc.Counts (if depth < 0 then depth else depth + 1) := by
      rintro ⟨hguards, hzero⟩
      have := hclear.below hcounts hguards
      rw [if_pos this] at hzero
      omega
    rw [expand, hedge]
    dsimp only
    rw [workShows_singleton, sights_of_not_counts hdepth, sees_enter hedge]
  | guard level next =>
    have hcond : (sc.guards && depth == 0) = false := by
      rw [Bool.eq_false_iff]
      intro h
      simp only [Bool.and_eq_true, beq_iff_eq] at h
      exact hcounts h
    rw [expand, hedge]
    dsimp only
    rw [hcond, if_neg Bool.false_ne_true]
    exact or_congr_left (hways [next] (by rw [hedge]; rfl) (by rw [hedge]; rfl)
      (by simp [hedge]))
  | jump next =>
    rw [expand, hedge]
    exact or_congr_left (hways [next] (by rw [hedge]; rfl) (by rw [hedge]; rfl)
      (by simp [hedge]))
  | fork nexts =>
    rw [expand, hedge]
    exact or_congr_left (hways _ (by rw [hedge]; rfl) (by rw [hedge]; rfl) (by simp [hedge]))
  | climb operator finish =>
    rw [expand, hedge]
    dsimp only
    split
    · rename_i hleaves
      rw [workShows_singleton, hsame, sees_of_leaves hsc hedge hleaves]
    · exact or_congr_left (hways [operator, finish] (by rw [hedge]; rfl)
        (by rw [hedge]; rfl) (by simp [hedge]))
  | stop r =>
    refine shows_stop hsc hp hedge fun hdepth => ?_
    have hbelow := hclear.below hcounts hdepth.1
    have hzero : depth - 1 = 0 := hdepth.2
    omega

/-- A step at the level of the decision, while levels count. -/
theorem shows_expand_counts (hsc : sc.Known) (hp : p.found.Keyed) (hclear : sc.Clear (c, depth))
    (hcounts : sc.Counts depth) :
    sc.WorkShows (sc.expand c depth p).1 alt w ∨
        Shows sc.tables sc.atEnd (sc.expand c depth p).2.found.toConfigs alt w ↔
      c.alt = alt ∧ c.Opens sc.tables sc.level w ∨
        Shows sc.tables sc.atEnd p.found.toConfigs alt w := by
  have hsame : ∀ {d : Config}, sc.Sights w (d, depth) ↔ d.Opens sc.tables sc.level w :=
    sights_of_counts hcounts
  have hend : sc.atEnd = false := hsc.early hcounts.1
  have hplain : ∀ (_ : ∀ g x, sc.tables.Fronts c.site g x ↔ g = none ∧ x = c.site),
      (c.Opens sc.tables sc.level w ↔ c.Sees sc.tables false w) := by
    intro hfronts
    simp only [Config.Opens, Config.Sees, hfronts]
    constructor
    · rintro ⟨σ, hσ, _, _, ⟨rfl, rfl⟩, _, hs⟩
      exact ⟨σ, hσ, hs⟩
    · rintro ⟨σ, hσ, hs⟩
      exact ⟨σ, hσ, none, c.site, ⟨rfl, rfl⟩, rfl, hs⟩
  cases hclear.fronted hcounts with
  | token hedge =>
    rw [expand, hedge]
    dsimp only
    rw [shows_find hsc hp, hend, hplain fun g x => Tables.fronts_token hedge]
    simp [not_workShows_nil, or_comm]
  | stop hedge =>
    have hdepth : ¬ sc.Counts (depth - 1) := fun h => by
      have hzero : depth - 1 = 0 := h.2
      have hdepth : depth = 0 := hcounts.2
      omega
    rw [shows_stop hsc hp hedge hdepth, hend, hplain fun g x => Tables.fronts_stop hedge]
  | fork hedge hn =>
    rw [expand, hedge]
    dsimp only
    refine or_congr_left ?_
    simp only [WorkShows, List.mem_map, Config.Opens, Tables.fronts_fork hedge]
    constructor
    · rintro ⟨_, ⟨n, hn, rfl⟩, halt, hs⟩
      obtain ⟨σ, hσ, g, x, hx, hpass, hs⟩ := hsame.mp hs
      exact ⟨halt, σ, hσ, g, x, ⟨n, hn, hx⟩, hpass, hs⟩
    · rintro ⟨halt, σ, hσ, g, x, ⟨n, hn, hx⟩, hpass, hs⟩
      exact ⟨_, ⟨n, hn, rfl⟩, halt, hsame.mpr ⟨σ, hσ, g, x, hx, hpass, hs⟩⟩
  | @guard _ n level hedge hn =>
    have hcond : (sc.guards && depth == 0) = true := by
      simp only [Bool.and_eq_true, beq_iff_eq]
      exact hcounts
    rw [expand, hedge]
    dsimp only
    refine or_congr_left ?_
    rw [hcond, hsc.known, if_pos rfl, if_neg Bool.false_ne_true]
    have hopens : c.Opens sc.tables sc.level w ↔
        sc.level ≤ level ∧ Config.Opens sc.tables sc.level w { c with site := n } := by
      simp only [Config.Opens, Tables.fronts_guard hedge]
      constructor
      · rintro ⟨σ, hσ, _, x, ⟨rfl, hx⟩, hpass, hs⟩
        exact ⟨of_decide_eq_true hpass, σ, hσ, none, x, hx, rfl, hs⟩
      · rintro ⟨hlevel, σ, hσ, g, x, hx, _, hs⟩
        rw [hn.eq_none hx] at hx
        exact ⟨σ, hσ, some level, x, ⟨rfl, hx⟩, decide_eq_true hlevel, hs⟩
    rw [hopens]
    split
    · rename_i hlevel
      rw [workShows_singleton, hsame]
      simp only [hlevel, true_and]
    · rename_i hlevel
      simp only [hlevel, false_and, and_false, iff_false]
      exact not_workShows_nil

/-- A step from a configuration keeps what is seen. -/
theorem shows_expand (hsc : sc.Known) (hp : p.found.Keyed) (hclear : sc.Clear (c, depth)) :
    sc.WorkShows (sc.expand c depth p).1 alt w ∨
        Shows sc.tables sc.atEnd (sc.expand c depth p).2.found.toConfigs alt w ↔
      c.alt = alt ∧ sc.Sights w (c, depth) ∨
        Shows sc.tables sc.atEnd p.found.toConfigs alt w := by
  by_cases hcounts : sc.Counts depth
  · rw [shows_expand_counts hsc hp hclear hcounts, sights_of_counts hcounts]
  · rw [shows_expand_free hsc hp hclear hcounts, sights_of_not_counts hcounts]

/-- A step from a configuration that is clear leads to such configurations. -/
theorem clear_expand (hsc : sc.Known) (hclear : sc.Clear (c, depth)) :
    ∀ x ∈ (sc.expand c depth p).1, sc.Clear x := by
  intro x hx hguards
  have hend := hsc.early hguards
  rcases hclear hguards with hneg | ⟨hzero, hfronted⟩
  · refine .inl ?_
    cases follows_of_mem hx with
    | call => simp [hneg]
    | back | dip => exact Int.lt_trans (Int.sub_lt_self depth Int.one_pos) hneg
    | eof | guard | way => exact hneg
  · subst hzero
    cases follows_of_mem hx with
    | eof _ hatEnd => rw [hend] at hatEnd; cases hatEnd
    | call hedge =>
      cases hfronted with
      | token h | stop h | fork h | guard h => cases hedge.symm.trans h
    | guard _ _ hunknown => rw [hsc.known] at hunknown; cases hunknown
    | way hway => exact .inr ⟨rfl, hfronted.ways hway⟩
    | back => exact .inl (by simp only; omega)
    | dip _ _ hunknown => rw [hsc.known] at hunknown; cases hunknown

theorem keyed_expand (hp : p.found.Keyed) : (sc.expand c depth p).2.found.Keyed := by
  rcases found_expand sc c depth p with heq | ⟨d, _, heq⟩
  · rw [heq]
    exact hp
  · rw [heq]
    exact hp.insert _ d

/-- Following the network keeps what is seen. -/
theorem shows_follow (hsc : sc.Known) {work : Work} {q : Progress}
    (h : sc.follow work p = some q) (hp : p.found.Keyed) (hwork : ∀ x ∈ work, sc.Clear x) :
    q.found.Keyed ∧ ∀ alt w, Shows sc.tables sc.atEnd q.found.toConfigs alt w ↔
      sc.WorkShows work alt w ∨ Shows sc.tables sc.atEnd p.found.toConfigs alt w := by
  refine follow.partial_correctness sc (fun work p q => p.found.Keyed → (∀ x ∈ work, sc.Clear x) →
    q.found.Keyed ∧ ∀ alt w, Shows sc.tables sc.atEnd q.found.toConfigs alt w ↔
      sc.WorkShows work alt w ∨ Shows sc.tables sc.atEnd p.found.toConfigs alt w)
    ?_ work p q h hp hwork
  intro follow ih work p q h hp hwork
  split at h
  · cases h
    exact ⟨hp, fun alt w => (or_iff_right not_workShows_nil).symm⟩
  · rename_i c depth work
    have hclear : sc.Clear (c, depth) := hwork _ List.mem_cons_self
    have hnext : ∀ x ∈ (sc.expand c depth p).1 ++ work, sc.Clear x := by
      intro x hx
      rcases List.mem_append.mp hx with hx | hx
      · exact clear_expand hsc hclear x hx
      · exact hwork x (List.mem_cons_of_mem _ hx)
    obtain ⟨hq, hshows⟩ := ih ((sc.expand c depth p).1 ++ work) (sc.expand c depth p).2 q h
      (keyed_expand hp) hnext
    refine ⟨hq, fun alt w => ?_⟩
    rw [hshows, workShows_append, workShows_cons, or_assoc, or_assoc, or_left_comm,
      shows_expand hsc hp hclear, or_left_comm]

end Scope

end Callscope
