import Callscope.Proofs.Lookahead.Exactness
import Callscope.Proofs.Lookahead.Viability

/-!
# Where levels count

The first lookahead of a loop of operators does not know its callers. It tests levels at its first token
only: the tree that is kept for a decision is worth no more than the plain steps, and once the operators
that may not be taken are left out, the level plays no part any more. So at two levels between which no
operator with the first token makes a difference, the outcome is the same.
-/

namespace Callscope

/-! ## Unknown callers -/

namespace Scope

variable {sc : Scope} {level : Nat}

/-- With unknown callers a step tests no level. -/
theorem expand_level (h : sc.unknown = true) (c : Config) (depth : Int) (p : Progress) :
    ({ sc with level } : Scope).expand c depth p = sc.expand c depth p := by
  unfold expand
  cases sc.tables.edge c.site with
  | guard => simp only [h, if_true]
  | terminal | call | jump | fork | climb | stop => rfl

theorem follow_level (level : Nat) (h : sc.unknown = true) {work : Work} {p q : Progress}
    (hq : sc.follow work p = some q) : ({ sc with level } : Scope).follow work p = some q := by
  refine follow.partial_correctness sc
    (fun work p q => ({ sc with level } : Scope).follow work p = some q) ?_ work p q hq
  intro follow ih work p q hq
  split at hq
  · cases hq
    rw [Scope.follow]
  · rename_i c depth work
    rw [Scope.follow, expand_level h]
    exact ih _ _ q hq

theorem closure_level (level : Nat) (h : sc.unknown = true) (cs : List Config) :
    ({ sc with level } : Scope).closure cs = sc.closure cs := by
  have hsame : ({ sc with level } : Scope).follow (cs.map fun c => (c, 0)) ⟨{}, {}⟩ =
      sc.follow (cs.map fun c => (c, 0)) ⟨{}, {}⟩ := by
    cases hfollow : sc.follow (cs.map fun c => (c, 0)) ⟨{}, {}⟩ with
    | some q => exact follow_level level h hfollow
    | none =>
      rw [Option.eq_none_iff_forall_ne_some]
      intro q hq
      have hback := follow_level sc.level (show ({ sc with level } : Scope).unknown = true from h) hq
      rw [hfollow] at hback
      cases hback
  rw [closure, closure, hsame]

end Scope

namespace Lookahead

variable {t : Tables} {d : Decision} {cs : List Config} {k : Kind} {level alt : Nat}

theorem start_level (level level' : Nat) (stack : Stack) :
    start t true level d stack = start t true level' d stack :=
  congrArg Configs.toConfigs (Scope.closure_level level (show
    (⟨t, true, level', if d.climbs then some d.owner else none, true, false⟩ : Scope).unknown = true
    from rfl) _)

/-! ## The tree of a set -/

theorem mem_toList {s : KindSet} : k ∈ s.toList ↔ s.contains k = true := by
  rw [KindSet.toList, List.mem_filter, and_iff_right (List.mem_of_getElem? k.all_ctorIdx)]

theorem contains_foldl {f : KindSet → Config → KindSet} {Q : Config → Prop}
    (hf : ∀ s c, (f s c).contains k = true ↔ s.contains k = true ∨ Q c) (s : KindSet) :
    (cs.foldl f s).contains k = true ↔ s.contains k = true ∨ ∃ c ∈ cs, Q c := by
  induction cs generalizing s with
  | nil => simp
  | cons c cs ih => rw [List.foldl_cons, ih, hf, List.exists_mem_cons_iff, or_assoc]

theorem contains_readable : (readable t cs).contains k = true ↔
    ∃ c ∈ cs, c.Reads t k ∨ atStop t c = true ∧ k = .eof := by
  refine (contains_foldl (Q := fun c => c.Reads t k ∨ atStop t c = true ∧ k = .eof)
    (fun s c => ?_) .empty).trans (by simp)
  rw [atStop]
  cases hedge : t.edge c.site <;> simp [Config.Reads, hedge, KindSet.contains_insert]

/-- A token that cannot be read leaves nothing. -/
theorem step_eq_nil (h : (readable t cs).contains k = false) : step t true cs k = [] := by
  have hreadable : ∀ c ∈ cs, ¬ (c.Reads t k ∨ atStop t c = true ∧ k = .eof) := by
    intro c hc hreads
    rw [contains_readable.mpr ⟨c, hc, hreads⟩] at h
    cases h
  refine List.eq_nil_iff_forall_not_mem.mpr (forall_step (P := fun _ => False) ?_ ?_ ?_ ?_)
  · refine forall_move (fun c hc kinds next hedge hk => ?_) fun _ _ h _ _ => h
    exact hreadable c hc (.inl ⟨kinds, next, hedge, hk⟩)
  · intro hend c hc hstop
    exact hreadable c hc (.inr ⟨hstop, by simpa using hend⟩)
  · intro sc _ hmoved
    exact (Scope.closure_of (I := fun _ => False) (fun _ _ _ h _ => h) (fun _ _ _ h _ => h)
      (fun _ _ h _ _ => h) hmoved).of_mem
  · exact fun _ _ h _ _ => h

theorem Automaton.configs_build (depth : Nat) (v : Verdict) : (build t depth cs v).configs = cs := by
  cases depth with
  | zero => rfl
  | succ depth => cases v <;> rfl

theorem Automaton.verdict_build (depth : Nat) (v : Verdict) :
    (build t depth cs v).verdict = v := by
  cases depth with
  | zero => rfl
  | succ depth => cases v <;> rfl

/-- The tree of a set goes on with that of the set after a token. -/
theorem Automaton.step_build (t : Tables) (depth : Nat) (cs : List Config) (k : Kind) :
    (build t depth cs .open).step t k =
    if Lookahead.step t true cs k = [] then none
    else some (build t (depth - 1) (Lookahead.step t true cs k)
      (Lookahead.verdict t (Lookahead.step t true cs k))) := by
  have hkept : ∀ depth, (some (build t depth (Lookahead.step t true cs k)
      (Lookahead.verdict t (Lookahead.step t true cs k)))).filter (fun b => !b.configs.isEmpty) =
      if Lookahead.step t true cs k = [] then none
      else some (build t depth (Lookahead.step t true cs k)
        (Lookahead.verdict t (Lookahead.step t true cs k))) := by
    intro depth
    rw [Option.filter_some, configs_build]
    by_cases hnil : Lookahead.step t true cs k = []
    · rw [if_pos hnil, hnil]
      rfl
    · rw [if_neg hnil, if_pos (by simpa using hnil)]
  cases depth with
  | zero => exact hkept 0
  | succ depth =>
    rw [← hkept, build]
    unfold step
    dsimp only
    by_cases hk : k ∈ (readable t cs).toList
    · rw [List.lookup_graph _ hk]
      rfl
    · have hnone : ((readable t cs).toList.map fun k => (k, Thunk.mk fun _ =>
          build t depth (Lookahead.step t true cs k)
            (Lookahead.verdict t (Lookahead.step t true cs k)))).lookup k = none := by
        rw [List.lookup_eq_none_iff]
        intro x hx
        obtain ⟨k', hk', rfl⟩ := List.mem_map.mp hx
        have hne : k ≠ k' := fun heq => hk (heq ▸ hk')
        simpa using hne
      rw [mem_toList, Bool.not_eq_true] at hk
      rw [hnone, step_eq_nil hk, Option.map_none, Option.filter_none, Option.filter_some,
        configs_build]
      rfl

/-! ## Configurations without a level to test -/

theorem unguarded_step (h : ∀ c ∈ cs, c.guard = none) (unknown : Bool) :
    ∀ c ∈ step t unknown cs k, c.guard = none := by
  have hmerge : ∀ c d : Config, c.guard = none → d.guard = none → c.key = d.key →
      (c.merge unknown d).guard = none := fun _ _ hc _ _ => hc
  refine forall_step (forall_move (fun c hc _ _ _ _ => h c hc) hmerge) (fun _ c hc _ => h c hc)
    (fun sc hguards hmoved => ?_) hmerge
  refine (Scope.closure_of (I := fun x => x.1.guard = none) (fun c depth x hc hx => ?_)
    (fun c depth e hc he => ?_) (fun _ _ hc _ _ => hc) hmoved).of_mem
  · cases hx with
    | guard _ hcounts => rw [hguards] at hcounts; cases hcounts.1
    | eof | call | way | back | dip => exact hc
  · cases he <;> exact hc

/-- No choice of the verdict depends on a level. -/
def Verdict.Unguarded : Verdict → Prop
  | .open => True
  | .settled _ guard => guard = none
  | .conflict alts => ∀ a ∈ alts, a.2 = none

/-- Two lookaheads that come to the same set have the same outcome if no level is left to test. -/
theorem withoutCallers_of_step {a a' b : Automaton} {level level' : Nat}
    {first last last' tk : Token} {rest : List Token} (ha : a.step t tk.kind = some b)
    (ha' : a'.step t tk.kind = some b) (hb : b.verdict.Unguarded)
    (hrest : b.verdict = .open →
      withoutCallers t level first b tk rest = withoutCallers t level' first b tk rest) :
    withoutCallers t level first a last (tk :: rest) =
      withoutCallers t level' first a' last' (tk :: rest) := by
  rw [withoutCallers, withoutCallers, ha, ha']
  dsimp only
  cases hverdict : b.verdict with
  | «open» => exact hrest hverdict
  | settled alt guard =>
    rw [hverdict] at hb
    have hguard : guard = none := hb
    subst hguard
    rfl
  | conflict alts =>
    rw [hverdict] at hb
    have hnone : (alts.any fun a => a.2.isSome) = false := by
      rw [List.any_eq_false]
      intro a ha
      rw [hb a ha]
      decide
    dsimp only
    rw [hnone, if_neg Bool.false_ne_true, if_neg Bool.false_ne_true]

section

variable (hcs : ∀ c ∈ cs, c.guard = none)

include hcs

theorem guardOf_eq_none (alt : Nat) : guardOf cs alt = none := by
  have hall : ∀ g ∈ (cs.filter fun c => c.alt == alt).map Config.guard, g = none := by
    intro g hg
    obtain ⟨c, hc, rfl⟩ := List.mem_map.mp hg
    exact hcs c (List.mem_filter.mp hc).1
  rw [guardOf]
  generalize (cs.filter fun c => c.alt == alt).map Config.guard = gs at hall
  cases gs with
  | nil => rfl
  | cons g gs =>
    rw [List.any_cons, hall g List.mem_cons_self]
    rfl

theorem fallback_level (level level' : Nat) : fallback t level cs = fallback t level' cs := by
  have hpasses : ∀ level, ∀ c ∈ cs, passes level c.guard = true := by
    intro level c hc
    rw [hcs c hc]
    rfl
  have hpart : ∀ level, (cs.partition fun c => passes level c.guard) = (cs, []) := by
    intro level
    rw [List.partition_eq_filter_filter, List.filter_eq_self.mpr (hpasses level),
      List.filter_eq_nil_iff.mpr fun c hc => by simp [hpasses level c hc]]
  rw [fallback, fallback, hpart, hpart]

theorem unguarded_verdict : (verdict t cs).Unguarded := by
  rw [verdict]
  split
  · exact guardOf_eq_none hcs _
  · split
    · intro a ha
      obtain ⟨alt, _, rfl⟩ := List.mem_map.mp ha
      exact guardOf_eq_none hcs alt
    · trivial

/-- A lookahead does not depend on the level if there is none to test. -/
theorem withoutCallers_level (level level' depth : Nat) (first last : Token) (ahead : List Token) :
    withoutCallers t level first (.build t depth cs .open) last ahead =
      withoutCallers t level' first (.build t depth cs .open) last ahead := by
  induction ahead generalizing cs depth last with
  | nil => rfl
  | cons tk rest ih =>
    have hnext := unguarded_step (t := t) (k := tk.kind) hcs true
    have hstep := Automaton.step_build t depth cs tk.kind
    by_cases hnil : step t true cs tk.kind = []
    · rw [if_pos hnil] at hstep
      rw [withoutCallers, withoutCallers, hstep, Automaton.configs_build]
      dsimp only
      rw [fallback_level hcs level level']
    · rw [if_neg hnil] at hstep
      refine withoutCallers_of_step hstep hstep ?_ fun hopen => ?_
      · rw [Automaton.verdict_build]
        exact unguarded_verdict hnext
      · rw [Automaton.verdict_build] at hopen
        rw [hopen]
        exact ih hnext (depth - 1) tk

end

/-! ## The first token -/

open Classical in
/-- Only what reads the token matters behind it. -/
theorem move_congr {ds : List Config} {unknown : Bool}
    (h : cs.filter (fun c => c.Reads t k) = ds.filter (fun c => c.Reads t k)) :
    move t unknown cs k = move t unknown ds k := by
  have hreaders : ∀ cs : List Config,
      move t unknown cs k = move t unknown (cs.filter fun c => c.Reads t k) k := by
    intro cs
    rw [move, move, List.foldl_filter]
    refine congrArg Configs.toConfigs (List.foldl_ext _ _ _ fun s c _ => ?_)
    split
    · rename_i kinds next hedge
      by_cases hk : kinds.contains k = true
      · rw [if_pos hk, if_pos (by simpa using ⟨kinds, next, hedge, hk⟩)]
      · rw [if_neg hk, ite_self]
    · rw [ite_self]
  rw [hreaders cs, hreaders ds, h]

/-- Before the end of the text a step depends on what is behind the token only. -/
theorem step_congr {ds : List Config} (hk : k ≠ .eof)
    (h : move t true cs k = move t true ds k) : step t true cs k = step t true ds k := by
  unfold step
  rw [h]
  simp only [hk, decide_false, Bool.not_true, Bool.or_false, Bool.false_eq_true, if_false]

/-- Some operator that may be taken leads to the place. -/
theorem any_more {site : Nat} {stack : Stack} : ((cs.filterMap fun c =>
      if c.alt == 1 && passes level c.guard then some { c with guard := none } else none).any
        fun d => d.site == site && d.stack == stack) = true ↔
    ∃ d ∈ cs, (d.alt = 1 ∧ passes level d.guard = true) ∧ d.site = site ∧ d.stack = stack := by
  simp only [List.any_eq_true, List.mem_filterMap, Bool.and_eq_true, beq_iff_eq]
  constructor
  · rintro ⟨_, ⟨d, hd, hsome⟩, hplace⟩
    split at hsome
    · rename_i hmore
      cases hsome
      exact ⟨d, hd, hmore, hplace⟩
    · cases hsome
  · rintro ⟨d, hd, hmore, hplace⟩
    exact ⟨_, ⟨d, hd, if_pos hmore⟩, hplace⟩

open Classical in
/-- Levels that make no difference to the operators that begin with a token. -/
theorem filter_climbFilter {level level' : Nat}
    (h : ∀ c ∈ cs, c.alt = 1 → c.Reads t k → passes level c.guard = passes level' c.guard) :
    (climbFilter level cs).filter (fun c => c.Reads t k) =
      (climbFilter level' cs).filter (fun c => c.Reads t k) := by
  rw [climbFilter, climbFilter, List.filter_append, List.filter_append]
  congr 1
  · rw [← List.filterMap_eq_filter, List.filterMap_filterMap, List.filterMap_filterMap]
    refine List.filterMap_congr fun c hc => ?_
    by_cases hreads : c.Reads t k
    · by_cases halt : c.alt = 1
      · rw [h c hc halt hreads]
      · simp [halt]
    · have hnone : Option.guard (fun c => decide (c.Reads t k)) { c with guard := none } = none :=
        Option.guard_eq_none_iff.mpr (decide_eq_false hreads)
      split <;> split <;> simp only [Option.bind_some, Option.bind_none, hnone]
  · rw [List.filter_filter, List.filter_filter]
    refine List.filter_congr fun c hc => ?_
    by_cases hreads : c.Reads t k
    · have hplaces : ∀ d ∈ cs, d.site = c.site → d.alt = 1 →
          passes level d.guard = passes level' d.guard :=
        fun d hd hsite halt => h d hd halt (by rwa [Config.Reads, hsite])
      rw [Bool.eq_iff_iff.mpr (any_more.trans (Iff.trans ?_ any_more.symm))]
      refine exists_congr fun d => and_congr_right fun hd => ?_
      constructor
      · rintro ⟨⟨halt, hpass⟩, hsite, hstack⟩
        exact ⟨⟨halt, hplaces d hd hsite halt ▸ hpass⟩, hsite, hstack⟩
      · rintro ⟨⟨halt, hpass⟩, hsite, hstack⟩
        exact ⟨⟨halt, (hplaces d hd hsite halt).symm ▸ hpass⟩, hsite, hstack⟩
    · simp [hreads]

end Lookahead

/-! ## One more operator -/

/-- The decision between the operators of a loop, each of which begins with a token, and its end. -/
structure Decision.Grows (t : Tables) (operator finish : Nat) (d : Decision) : Prop where
  nexts : d.nexts = [operator, finish]
  climbs : d.climbs = true
  fronted : t.Fronted true operator
  token : ∀ g x, t.Fronts operator g x → ∃ kinds next, t.edge x = .terminal kinds next
  unfinished : (t.look operator).ends = false
  stop : ∃ r, t.edge finish = .stop r

/-- Every operator that begins with a token of the kind may be taken at the level. -/
def Tables.Permits (t : Tables) (operator : Nat) (k : Kind) (level : Nat) : Prop :=
  ∀ g x kinds next, t.Fronts operator g x → t.edge x = .terminal kinds next →
    kinds.contains k = true → Lookahead.passes level g = true

/-- Where the search for the first token of an operator has come: what is in front of it belongs to the
operator whose level has been noted. -/
def Config.Seeks (t : Tables) (operator : Nat) (c : Config) : Prop :=
  t.Fronted c.guard.isNone c.site ∧
    ∀ g x, t.Fronts c.site g x → t.Fronts operator (c.guard.or g) x

namespace Config

variable {t : Tables} {d : Decision} {operator finish : Nat} {sc : Scope} {c : Config}
  {kinds : KindSet} {next level : Nat}

theorem Seeks.found (h : c.Seeks t operator) (hedge : t.edge c.site = .terminal kinds next) :
    t.Fronts operator c.guard c.site := by
  have hfronts := h.2 none c.site (.token hedge)
  rwa [Option.or_none] at hfronts

theorem Seeks.guard (h : c.Seeks t operator) (hedge : t.edge c.site = .guard level next) :
    Seeks t operator { c with site := next, guard := some level } := by
  obtain ⟨hfronted, hfronts⟩ := h
  generalize hnone : c.guard.isNone = guarded at hfronted
  cases hfronted with
  | token h' | stop h' | fork h' => cases hedge.symm.trans h'
  | guard h' hnext =>
    cases hedge.symm.trans h'
    refine ⟨hnext, fun g x hx => ?_⟩
    have hg := hnext.eq_none hx
    subst hg
    have hfront := hfronts (some level) x (.guard hedge hx)
    rwa [Option.isNone_iff_eq_none.mp hnone, Option.none_or] at hfront

theorem Seeks.fork (h : c.Seeks t operator) {n : Nat} (hn : n ∈ (t.edge c.site).ways)
    (hguard : ∀ level, t.edge c.site ≠ .guard level n) : Seeks t operator { c with site := n } := by
  obtain ⟨hfronted, hfronts⟩ := h
  rw [Seeks]
  dsimp only
  generalize c.guard.isNone = guarded at hfronted
  cases hfronted with
  | token h' | stop h' => rw [h'] at hn; cases hn
  | fork h' hnexts =>
    rw [h'] at hn
    exact ⟨hnexts n hn, fun g x hx => hfronts g x (.fork h' hn hx)⟩
  | guard h' =>
    rw [h'] at hn
    cases List.mem_singleton.mp hn
    exact absurd h' (hguard _)

theorem Seeks.not_stop (hd : d.Grows t operator finish) (h : c.Seeks t operator) (r : Rule) :
    t.edge c.site ≠ .stop r := by
  intro hedge
  obtain ⟨kinds, next, hterminal⟩ := hd.token _ _ (h.2 none c.site (.stop hedge))
  cases hedge.symm.trans hterminal

/-- On the way to the first token of an operator there are forks and the test of its level only. -/
theorem Seeks.follows (hd : d.Grows sc.tables operator finish) (hunknown : sc.unknown = true)
    (hguards : sc.guards = true) (hend : sc.atEnd = false) (hc : c.Seeks sc.tables operator)
    {x : Config × Int} (h : sc.Follows c 0 x) :
    x.1.alt = c.alt ∧ x.2 = 0 ∧ x.1.Seeks sc.tables operator := by
  cases h with
  | eof _ hatEnd => rw [hend] at hatEnd; cases hatEnd
  | call hedge =>
    obtain ⟨hfronted, _⟩ := hc
    generalize c.guard.isNone = guarded at hfronted
    cases hfronted with
    | token h | stop h | fork h | guard h => cases hedge.symm.trans h
  | guard hedge => exact ⟨rfl, rfl, hc.guard hedge⟩
  | way hway hpasses =>
    refine ⟨rfl, rfl, hc.fork hway fun level hedge => ?_⟩
    have hknown := (hpasses level hedge hguards rfl).1
    rw [hunknown] at hknown
    cases hknown
  | back hedge | dip hedge => exact absurd hedge (hc.not_stop hd _)

end Config

namespace Lookahead

variable {t : Tables} {d : Decision} {operator finish : Nat} {k : Kind} {level : Nat}

/-- With unknown callers the operators come with their levels and the end of the loop without one. -/
theorem fronts_start (hd : d.Grows t operator finish) (level : Nat) (stack : Stack) :
    ∀ c ∈ start t true level d stack,
      (c.alt = 1 → t.Fronts operator c.guard c.site) ∧ (c.alt ≠ 1 → c.guard = none) := by
  obtain ⟨r, hstop⟩ := hd.stop
  refine (Scope.closure_of (I := fun x =>
    x.1.alt = 1 ∧ x.2 = 0 ∧ x.1.Seeks t operator ∨
      x.1.alt ≠ 1 ∧ x.1.guard = none ∧ (x.2 < 0 ∨ x.2 = 0 ∧ x.1.site = finish))
    (fun c depth x hc h => ?_) (fun c depth e hc h => ?_) (fun c e hc _ _ => hc)
    fun c hc => ?_).of_mem
  · rcases hc with ⟨halt, hdepth, hseeks⟩ | ⟨halt, hguard, hplace⟩
    · cases hdepth
      obtain ⟨halt', hdepth, hseeks⟩ := hseeks.follows hd rfl rfl rfl h
      exact .inl ⟨halt'.trans halt, hdepth, hseeks⟩
    · refine .inr ?_
      cases h with
      | eof _ hatEnd => cases hatEnd
      | call hedge =>
        rcases hplace with hneg | ⟨_, hsite⟩
        · exact ⟨halt, hguard, .inl (by rw [if_pos hneg]; exact hneg)⟩
        · cases (hsite ▸ hstop).symm.trans hedge
      | guard hedge hcounts =>
        rcases hplace with hneg | ⟨_, hsite⟩
        · have hzero := hcounts.2
          dsimp only at hneg
          omega
        · cases (hsite ▸ hstop).symm.trans hedge
      | way hway =>
        rcases hplace with hneg | ⟨_, hsite⟩
        · exact ⟨halt, hguard, .inl hneg⟩
        · rw [show t.edge c.site = _ from hsite ▸ hstop] at hway
          cases hway
      | back | dip => exact ⟨halt, hguard, .inl (by dsimp only at hplace ⊢; omega)⟩
  · rcases hc with ⟨halt, _, hseeks⟩ | ⟨halt, hguard, _⟩
    · cases h with
      | token hedge => exact ⟨fun _ => hseeks.found hedge, fun hne => absurd halt hne⟩
      | stop hedge | ended hedge => exact absurd hedge (hseeks.not_stop hd _)
    · cases h with
      | token | stop | ended => exact ⟨fun heq => absurd heq halt, fun _ => hguard⟩
  · rw [hd.nexts] at hc
    rcases List.mem_cons.mp hc with rfl | hc
    · refine .inl ⟨rfl, rfl, hd.fronted, fun g x hx => ?_⟩
      rwa [Option.none_or]
    · rw [List.mem_singleton.mp hc]
      exact .inr ⟨show 2 ≠ 1 by decide, rfl, .inr ⟨rfl, rfl⟩⟩

/-- The tree that is kept for a loop of operators. -/
theorem tree_climbs {site : Nat} (hd : t.decision? site = some d) (hdirect : d.direct = false)
    (hclimbs : d.climbs = true) (level : Nat) : (Automata.ofTables t).tree site level =
      automaton t Automata.depth d (min level (Automata.topLevel t)) := by
  rw [Automata.tree, trees_eq hd, hdirect, if_neg Bool.false_ne_true, if_pos hclimbs]
  have htop : (Automata.ofTables t).top = Automata.topLevel t := rfl
  have hindex : (if Automata.topLevel t + 1 ≤ 1 then 0 else min level (Automata.topLevel t)) =
      min level (Automata.topLevel t) := by
    split <;> omega
  have hlt : min level (Automata.topLevel t) < Automata.topLevel t + 1 := by omega
  simp only [htop, List.size_toArray, List.length_map, List.length_range, hindex]
  rw [Array.getD_eq_getD_getElem?, List.getElem?_toArray, List.getElem?_map, List.getElem?_range hlt]
  rfl

theorem passes_of_le {level level' : Nat} {g : Option Nat} (hle : level' ≤ level)
    (h : passes level g = true) : passes level' g = true := by
  cases g with
  | none => rfl
  | some n =>
    rw [passes, decide_eq_true_eq] at h ⊢
    omega

theorem unguarded_climbFilter {cs : List Config} (hcs : ∀ c ∈ cs, c.alt ≠ 1 → c.guard = none)
    (level : Nat) : ∀ c ∈ climbFilter level cs, c.guard = none := by
  intro c hc
  rw [climbFilter] at hc
  rcases List.mem_append.mp hc with hc | hc
  · obtain ⟨e, _, hec⟩ := List.mem_filterMap.mp hc
    split at hec
    · cases hec
      rfl
    · cases hec
  · obtain ⟨hc, hfinish⟩ := List.mem_filter.mp hc
    rw [Bool.and_eq_true] at hfinish
    exact hcs c hc (by simpa using hfinish.1)

/-- The end of the loop is no operator. -/
theorem fallback_ne_first (hd : d.Grows t operator finish)
    {cs : List Config} (hcs : ∀ c ∈ cs, c.Grounded t d) : fallback t level cs ≠ some 1 := by
  intro h
  refine within_fallback (S := fun alt => alt ≠ 1) (fun c hc hdone halt => ?_) h rfl
  have hends := (hcs c hc).ends hdone
  rw [halt, Decision.opening, hd.nexts, List.getD_cons_zero, hd.unfinished] at hends
  cases hends

section

variable (hsound : ∀ s, (t.edge s).Sound t s) {site : Nat} (hdecision : t.decision? site = some d)
  (hdirect : d.direct = false) (hd : d.Grows t operator finish) {level' : Nat}
  {first last last' tk : Token} {rest : List Token} (hk : tk.kind ≠ .eof)
  (hlevel : t.Permits operator tk.kind level) (hlevel' : t.Permits operator tk.kind level')

include hsound hdecision hdirect hd hk hlevel hlevel'

/-- Where no operator with the first token is below either of two levels, the outcome without callers is
the same at both, unless the loop ends or fails. -/
theorem withoutCallers_climb
    (h : (withoutCallers t level first ((Automata.ofTables t).tree site level) last
        (tk :: rest)).1 = none ∨
      (withoutCallers t level first ((Automata.ofTables t).tree site level) last
        (tk :: rest)).1 = some (.choose 1)) :
    withoutCallers t level first ((Automata.ofTables t).tree site level) last (tk :: rest) =
      withoutCallers t level' first ((Automata.ofTables t).tree site level') last' (tk :: rest) := by
  have htree : ∀ level, ∃ top ≤ level, (Automata.ofTables t).tree site level =
      .build t Automata.depth (climbFilter top (start t true 0 d .root)) .open := by
    intro level
    refine ⟨min level (Automata.topLevel t), Nat.min_le_left _ _, ?_⟩
    rw [tree_climbs hdecision hdirect hd.climbs, automaton, start_level _ 0, if_pos hd.climbs]
  obtain ⟨top, hle, htop⟩ := htree level
  obtain ⟨top', hle', htop'⟩ := htree level'
  have hstart := fronts_start hd 0 .root
  have hsame : step t true (climbFilter top (start t true 0 d .root)) tk.kind =
      step t true (climbFilter top' (start t true 0 d .root)) tk.kind := by
    refine step_congr hk (move_congr (filter_climbFilter fun c hc halt hreads => ?_))
    obtain ⟨kinds, next, hedge, hkind⟩ := hreads
    have hfronts := (hstart c hc).1 halt
    rw [passes_of_le hle (hlevel _ _ _ _ hfronts hedge hkind),
      passes_of_le hle' (hlevel' _ _ _ _ hfronts hedge hkind)]
  have hground : ∀ c ∈ climbFilter top (start t true 0 d .root), c.Grounded t d :=
    grounded_climbFilter (grounded_start hsound true 0 d .root) top
  have hunguarded : ∀ c ∈ climbFilter top (start t true 0 d .root), c.guard = none :=
    unguarded_climbFilter (fun c hc => (hstart c hc).2) top
  have hstep := Automaton.step_build t Automata.depth (climbFilter top (start t true 0 d .root))
    tk.kind
  have hstep' := Automaton.step_build t Automata.depth (climbFilter top' (start t true 0 d .root))
    tk.kind
  rw [← hsame] at hstep'
  rw [htop] at h ⊢
  rw [htop']
  by_cases hnil : step t true (climbFilter top (start t true 0 d .root)) tk.kind = []
  · rw [if_pos hnil] at hstep
    rw [withoutCallers, hstep, Automaton.configs_build] at h
    dsimp only at h
    split at h
    · rename_i alt halt
      rcases h with h | h
      · cases h
      · cases h
        exact absurd halt (fallback_ne_first hd hground)
    · rcases h with h | h <;> cases h
  · rw [if_neg hnil] at hstep hstep'
    have hnext := unguarded_step (t := t) (k := tk.kind) hunguarded true
    refine withoutCallers_of_step hstep hstep' ?_ fun hopen => ?_
    · rw [Automaton.verdict_build]
      exact unguarded_verdict hnext
    · rw [Automaton.verdict_build] at hopen
      rw [hopen]
      exact withoutCallers_level hnext level level' _ _ _ _

end

end Lookahead

end Callscope
