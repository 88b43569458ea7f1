import Callscope.Lookahead.Choose
import Callscope.Proofs.Lookahead.Expansion

/-!
# Choices are in range

A lookahead follows the choices of a decision under their numbers. Nothing that it does to a
configuration changes the number, and every answer is the number of some configuration. So if all
configurations of a set belong to some of the choices, what is chosen from there on is one of these.
-/

namespace Callscope

/-- The configuration belongs to one of some choices. -/
def Config.Within (S : Nat → Prop) (c : Config) : Prop := S c.alt

/-- The configuration stands before a token of the kind. -/
def Config.Reads (t : Tables) (k : Kind) (c : Config) : Prop :=
  ∃ kinds next, t.edge c.site = .terminal kinds next ∧ kinds.contains k = true

/-- The numbers of the sites to choose from. -/
def Decision.Offered (d : Decision) (alt : Nat) : Prop := 1 ≤ alt ∧ alt ≤ d.nexts.length

/-- Following configurations keeps the numbers of their choices. -/
theorem Scope.within_closure {S : Nat → Prop} (sc : Scope) {cs : List Config}
    (hcs : ∀ c ∈ cs, c.Within S) : ∀ c ∈ (sc.closure cs).toConfigs, c.Within S := by
  refine (closure_of (I := fun x => x.1.Within S) (fun c depth x hc h => ?_) (fun c depth d hc h => ?_)
    (fun c d hc _ _ => hc) hcs).of_mem
  · cases h <;> exact hc
  · cases h <;> exact hc

namespace Lookahead

variable {S : Nat → Prop} {t : Tables} {cs : List Config}

/-! ## Sets of configurations -/

theorem forall_ite {P : Config → Prop} {p : Prop} [Decidable p] {as bs : List Config}
    (has : ∀ c ∈ as, P c) (hbs : ∀ c ∈ bs, P c) : ∀ c ∈ (if p then as else bs), P c := by
  split
  · exact has
  · exact hbs

/-- What holds behind a token and at the ends before it, and is kept on the way, holds after a step. -/
theorem forall_step {P : Config → Prop} {k : Kind} {unknown : Bool}
    (hmoved : ∀ c ∈ move t unknown cs k, P c)
    (hstops : (!unknown || decide (k = .eof)) = true → ∀ c ∈ cs, atStop t c = true → P c)
    (hclosure : ∀ sc : Scope, sc.guards = false → (∀ c ∈ move t unknown cs k, P c) →
      ∀ c ∈ (sc.closure (move t unknown cs k)).toConfigs, P c)
    (hmerge : ∀ c d, P c → P d → c.key = d.key → P (c.merge unknown d)) :
    ∀ c ∈ step t unknown cs k, P c := by
  have hinsert : ∀ {ds : List Config} {s : Configs}, (∀ c ∈ ds, P c) → s.Each P →
      (ds.foldl (fun (s : Configs) c => s.insertConfig unknown c) s).Each P :=
    fun hds hs => hs.collect hds hmerge
  have hfilter : ∀ {ds : List Config}, (∀ c ∈ ds, P c) → ∀ c ∈ ds.filter (atStop t), P c :=
    fun hds c hc => hds c (List.mem_filter.mp hc).1
  have hwaiting : ∀ c ∈ (if !unknown || decide (k = .eof) then cs.filter (atStop t) else []),
      P c := by
    split
    · rename_i hwaits
      exact fun c hc => hstops hwaits c (List.mem_filter.mp hc).1 (List.mem_filter.mp hc).2
    · simp
  have hreached {p q : Prop} [Decidable p] [Decidable q] (sc : Scope) (hsc : sc.guards = false) :=
    forall_ite (p := p)
      (hfilter (forall_ite (p := q) hmoved (hclosure sc hsc hmoved)))
      (forall_ite (p := q) hmoved (hclosure sc hsc hmoved))
  unfold step
  exact forall_ite (hreached _ rfl)
    (forall_ite (hinsert hwaiting (hinsert (hreached _ rfl) Configs.each_empty)).of_mem
      (hreached _ rfl))

/-- After a token there are only choices that could read it or had come to an end. -/
theorem within_step_of {k : Kind} (hreads : ∀ c ∈ cs, c.Reads t k → c.Within S)
    (hstops : ∀ c ∈ cs, atStop t c = true → c.Within S) (unknown : Bool) :
    ∀ c ∈ step t unknown cs k, c.Within S := by
  have hmerge : ∀ c d : Config, c.Within S → d.Within S → c.key = d.key →
      (c.merge unknown d).Within S := fun c d hc _ _ => hc
  refine forall_step (forall_move (fun c hc kinds next hedge hk => ?_) hmerge) (fun _ => hstops)
    (fun sc _ hmoved => sc.within_closure hmoved) hmerge
  exact hreads c hc ⟨kinds, next, hedge, hk⟩

theorem within_step (hcs : ∀ c ∈ cs, c.Within S) (unknown : Bool) (k : Kind) :
    ∀ c ∈ step t unknown cs k, c.Within S :=
  within_step_of (fun c hc _ => hcs c hc) (fun c hc _ => hcs c hc) unknown

theorem within_start (unknown : Bool) (level : Nat) (d : Decision) (stack : Stack) :
    ∀ c ∈ start t unknown level d stack, c.Within d.Offered := by
  refine Scope.within_closure _ fun c hc => ?_
  obtain ⟨i, hi, rfl⟩ := List.mem_mapIdx.mp hc
  exact ⟨by simp, by simp only; omega⟩

/-! ## Choices of a set -/

theorem within_unique {alt : Nat} (hcs : ∀ c ∈ cs, c.Within S) (h : unique cs = some alt) :
    S alt := by
  cases cs with
  | nil => cases h
  | cons c cs =>
    rw [unique] at h
    split at h
    · cases h
      exact hcs c List.mem_cons_self
    · cases h

theorem mem_alts {alt : Nat} (h : alt ∈ alts cs) : ∃ c ∈ cs, c.alt = alt := by
  have hseen : ∀ (cs : List Config) (seen : List Nat),
      alt ∈ cs.foldl (fun s c => if s.contains c.alt then s else c.alt :: s) seen →
        alt ∈ seen ∨ ∃ c ∈ cs, c.alt = alt := by
    intro cs
    induction cs with
    | nil => exact fun _ h => Or.inl h
    | cons c cs ih =>
      intro seen h
      rw [List.foldl_cons] at h
      rcases ih _ h with h | ⟨d, hd, hda⟩
      · split at h
        · exact Or.inl h
        · rcases List.mem_cons.mp h with rfl | h
          · exact Or.inr ⟨c, List.mem_cons_self, rfl⟩
          · exact Or.inl h
      · exact Or.inr ⟨d, List.mem_cons_of_mem _ hd, hda⟩
  rw [alts, List.mem_mergeSort] at h
  rcases hseen cs [] h with h | h
  · cases h
  · exact h

theorem within_alts {alt : Nat} (hcs : ∀ c ∈ cs, c.Within S) (h : alt ∈ alts cs) :
    S alt := by
  obtain ⟨c, hc, rfl⟩ := mem_alts h
  exact hcs c hc

/-- What is chosen without a token has left the rule that decides or come to an end. -/
theorem within_fallback {level alt : Nat}
    (hcs : ∀ c ∈ cs, c.dipped = true ∨ atStop t c = true → c.Within S)
    (h : fallback t level cs = some alt) : S alt := by
  have hfinished : ∀ {ds : List Config}, (∀ c ∈ ds, c ∈ cs) → finished t ds = some alt →
      S alt := by
    intro ds hds hf
    have hmem := List.mem_of_mem_head? hf
    refine within_alts (fun c hc => ?_) hmem
    obtain ⟨hc, hdone⟩ := List.mem_filter.mp hc
    rw [Bool.or_eq_true, Bool.and_eq_true] at hdone
    exact hcs c (hds c hc) (hdone.imp_right And.left)
  rw [fallback, List.partition_eq_filter_filter] at h
  rcases Option.or_eq_some_iff.mp h with h | ⟨_, h⟩
  · exact hfinished (fun c hc => (List.mem_filter.mp hc).1) h
  · exact hfinished (fun c hc => (List.mem_filter.mp hc).1) h

theorem mem_groupAlts {κ : Type} [BEq κ] [Hashable κ] [EquivBEq κ] [LawfulHashable κ]
    {key : Config → κ} {as : List Nat} (h : as ∈ groupAlts key cs) :
    ∀ a ∈ as, ∃ c ∈ cs, c.alt = a := by
  obtain ⟨⟨k, bs⟩, hk, rfl⟩ := List.mem_map.mp h
  rw [Std.HashMap.mem_toList_iff_getKey?_eq_some_and_getElem?_eq_some] at hk
  -- Every group made so far holds choices of the configurations only.
  refine List.foldlRecOn (motive := fun (m : Std.HashMap κ (List Nat)) => ∀ (k : κ) (as : List Nat),
    m[k]? = some as → ∀ a ∈ as, ∃ c ∈ cs, c.alt = a) cs _ (by simp) ?_ k bs hk.2
  intro m hm d hd k as hk a ha
  rw [Std.HashMap.getElem?_alter] at hk
  split at hk
  · split at hk
    · cases hk
      rw [List.mem_singleton.mp ha]
      exact ⟨d, hd, rfl⟩
    · rename_i bs hbs
      cases hk
      split at ha
      · exact hm _ bs hbs a ha
      · rcases List.mem_cons.mp ha with rfl | ha
        · exact ⟨d, hd, rfl⟩
        · exact hm _ bs hbs a ha
  · exact hm k as hk a ha

theorem within_resolve {alt : Nat} (hcs : ∀ c ∈ cs, c.Within S) (h : resolve cs = some alt) :
    S alt := by
  rw [resolve] at h
  split at h
  · rename_i found hfound
    cases h
    exact within_unique hcs hfound
  · split at h
    · cases h
    · rename_i m ms hms
      split at h
      · cases h
        have hmem : alt ∈ (groupAlts (fun c => (c.site, c.stack)) cs).filterMap
            fun as => as.min? := by rw [hms]; exact List.mem_cons_self
        obtain ⟨as, has, hmin⟩ := List.mem_filterMap.mp hmem
        obtain ⟨c, hc, rfl⟩ := mem_groupAlts has alt (List.min?_mem hmin)
        exact hcs c hc
      · cases h

/-! ## Lookahead with known callers -/

/-- What is chosen with one more token: what the sets before and after it allow. -/
theorem within_withCallers_cons {level alt : Nat} {last tk : Token} {rest : List Token}
    (hnone : fallback t level cs = some alt → S alt)
    (hnext : ∀ c ∈ step t false cs tk.kind, c.Within S)
    (hrest : (withCallers t level (step t false cs tk.kind) tk rest).1 = .choose alt → S alt)
    (h : (withCallers t level cs last (tk :: rest)).1 = .choose alt) : S alt := by
  rw [withCallers] at h
  split at h
  · split at h
    · rename_i found hfound
      cases h
      exact hnone hfound
    · cases h
  · split at h
    · rename_i found hfound
      cases h
      exact within_resolve hnext hfound
    · exact hrest h

theorem within_withCallers {level alt : Nat} (hcs : ∀ c ∈ cs, c.Within S) {last : Token}
    {ahead : List Token} (h : (withCallers t level cs last ahead).1 = .choose alt) : S alt := by
  induction ahead generalizing cs last with
  | nil => cases h
  | cons tk rest ih =>
    have hnext := within_step (t := t) hcs false tk.kind
    exact within_withCallers_cons (within_fallback fun c hc _ => hcs c hc) hnext (ih hnext) h

/-! ## Lookahead with unknown callers -/

/-- A verdict names some of the choices only. -/
def Verdict.Within (S : Nat → Prop) : Verdict → Prop
  | .open => True
  | .settled alt _ => S alt
  | .conflict alts => ∀ a ∈ alts, S a.1

theorem within_verdict (hcs : ∀ c ∈ cs, c.Within S) : (verdict t cs).Within S := by
  rw [verdict]
  split
  · rename_i alt halt
    exact within_unique hcs halt
  · split
    · intro a ha
      obtain ⟨alt, halt, rfl⟩ := List.mem_map.mp ha
      exact within_alts hcs halt
    · trivial

/-- All sets of an automaton and all their verdicts keep to some of the choices. -/
inductive Automaton.Within (S : Nat → Prop) : Automaton → Prop
  | node {cs : List Config} {v : Verdict} {next : List (Kind × Thunk Automaton)}
      (configs : ∀ c ∈ cs, c.Within S) (verdict : v.Within S)
      (branches : ∀ x ∈ next, Within S x.2.get) : Within S (.node cs v next)
  | leaf {cs : List Config} {v : Verdict} (configs : ∀ c ∈ cs, c.Within S)
      (verdict : v.Within S) : Within S (.leaf cs v)

namespace Automaton

theorem Within.configs_within {a : Automaton} (h : a.Within S) : ∀ c ∈ a.configs, c.Within S := by
  cases h with
  | node configs verdict branches => exact configs
  | leaf configs verdict => exact configs

theorem Within.verdict_within {a : Automaton} (h : a.Within S) : a.verdict.Within S := by
  cases h with
  | node configs verdict branches => exact verdict
  | leaf configs verdict => exact verdict

theorem within_build (depth : Nat) {v : Verdict} (hcs : ∀ c ∈ cs, c.Within S)
    (hv : v.Within S) : (build t depth cs v).Within S := by
  induction depth generalizing cs v with
  | zero => exact .leaf hcs hv
  | succ depth ih =>
    cases v with
    | settled alt guard => exact .leaf hcs hv
    | conflict alts => exact .leaf hcs hv
    | «open» =>
      refine .node hcs hv fun x hx => ?_
      obtain ⟨k, _, rfl⟩ := List.mem_map.mp hx
      have hnext := within_step (t := t) hcs true k
      exact ih hnext (within_verdict hnext)

theorem within_automatonStep {a b : Automaton} {k : Kind} (ha : a.Within S)
    (h : a.step t k = some b) : b.Within S := by
  unfold step at h
  cases ha with
  | leaf configs verdict =>
    obtain ⟨hb, _⟩ := Option.filter_eq_some_iff.mp h
    cases hb
    have hnext := within_step (t := t) configs true k
    exact .leaf hnext (within_verdict hnext)
  | node configs verdict branches =>
    obtain ⟨hb, _⟩ := Option.filter_eq_some_iff.mp h
    obtain ⟨th, hth, rfl⟩ := Option.map_eq_some_iff.mp hb
    obtain ⟨before, after, hnext, _⟩ := List.lookup_eq_some_iff.mp hth
    exact branches (k, th) (by rw [hnext]; simp)

end Automaton

/-- What is chosen with one more token: what the set before it and the automaton after it allow. -/
theorem within_withoutCallers_cons {level alt : Nat} {first last tk : Token} {a : Automaton}
    {rest : List Token} (hnone : fallback t level a.configs = some alt → S alt)
    (hsome : ∀ b, a.step t tk.kind = some b → b.Within S)
    (hrest : ∀ b, b.Within S →
      (withoutCallers t level first b tk rest).1 = some (.choose alt) → S alt)
    (h : (withoutCallers t level first a last (tk :: rest)).1 = some (.choose alt)) : S alt := by
  rw [withoutCallers] at h
  split at h
  · split at h
    · rename_i found hfound
      cases h
      exact hnone hfound
    · cases h
  · rename_i b hb
    have hv := (hsome b hb).verdict_within
    split at h
    · rename_i found guard hverdict
      rw [hverdict] at hv
      simp only [Option.some.injEq] at h
      split at h
      · cases h
        exact hv
      · cases h
    · rename_i alts hverdict
      rw [hverdict] at hv
      split at h
      · split at h
        · rename_i found hfound
          cases h
          have hmem : alt ∈ passing level alts := by rw [hfound]; exact List.mem_cons_self
          obtain ⟨x, hx, rfl⟩ := List.mem_map.mp hmem
          exact hv x (List.mem_filter.mp hx).1
        · cases h
      · cases h
    · exact hrest b (hsome b hb) h

theorem within_withoutCallers {level alt : Nat} {first last : Token} {a : Automaton}
    (ha : a.Within S) {ahead : List Token}
    (h : (withoutCallers t level first a last ahead).1 = some (.choose alt)) : S alt := by
  induction ahead generalizing a last with
  | nil => cases h
  | cons tk rest ih =>
    exact within_withoutCallers_cons (within_fallback fun c hc _ => ha.configs_within c hc)
      (fun b => Automaton.within_automatonStep ha) (fun b hb => ih hb) h

theorem within_climbFilter (hcs : ∀ c ∈ cs, c.Within S) (level : Nat) :
    ∀ c ∈ climbFilter level cs, c.Within S := by
  intro c hc
  rw [climbFilter] at hc
  rcases List.mem_append.mp hc with hc | hc
  · obtain ⟨d, hd, hdc⟩ := List.mem_filterMap.mp hc
    split at hdc
    · cases hdc
      exact hcs d hd
    · cases hdc
  · exact hcs c (List.mem_filter.mp hc).1

theorem within_automaton (depth : Nat) (d : Decision) (level : Nat) :
    (automaton t depth d level).Within d.Offered := by
  refine Automaton.within_build depth (forall_ite ?_ ?_) trivial
  · exact within_climbFilter (within_start true level d .root) level
  · exact within_start true level d .root

/-- The trees that are kept for a site. -/
theorem trees_eq {d : Decision} {site : Nat} (hd : t.decision? site = some d) :
    (Automata.ofTables t).trees.getD site #[] =
      if d.direct then #[]
      else if d.climbs then ((List.range (Automata.topLevel t + 1)).map fun level =>
        Thunk.mk fun _ => automaton t Automata.depth d level).toArray
      else #[Thunk.mk fun _ => automaton t Automata.depth d 0] := by
  rw [Tables.decision?, Array.getD_eq_getD_getElem?] at hd
  cases hsome : t.decisions[site]? with
  | none => simp [hsome] at hd
  | some o =>
    rw [hsome] at hd
    cases hd
    simp [Automata.ofTables, Array.getD_eq_getD_getElem?, hsome]

/-- The tree that is kept for a site is one of its decision, if there is any. -/
theorem tree_eq {d : Decision} {site : Nat} (hd : t.decision? site = some d) (level : Nat) :
    (Automata.ofTables t).tree site level = default ∨
      ∃ top, (Automata.ofTables t).tree site level = automaton t Automata.depth d top := by
  have htrees : ∀ th ∈ ((Automata.ofTables t).trees.getD site #[]).toList,
      ∃ top, th.get = automaton t Automata.depth d top := by
    rw [trees_eq hd]
    intro th hth
    split at hth
    · simp at hth
    · split at hth
      · obtain ⟨top, _, rfl⟩ := List.mem_map.mp hth
        exact ⟨top, rfl⟩
      · rw [List.mem_singleton.mp hth]
        exact ⟨0, rfl⟩
  rw [Automata.tree]
  generalize (Automata.ofTables t).trees.getD site #[] = trees at htrees
  rw [Array.getD_eq_getD_getElem?]
  cases hget : trees[if trees.size ≤ 1 then 0 else min level (Automata.ofTables t).top]? with
  | none => exact .inl rfl
  | some th => exact .inr (htrees th (by simpa using Array.mem_of_getElem? hget))

/-- What is chosen is one of the sites to choose from. -/
theorem within_choose {d : Decision} {site : Nat} (hd : t.decision? site = some d)
    {level alt : Nat} {stack : Stack} {current : Token} {ahead : List Token}
    (h : (choose (.ofTables t) d site level stack current ahead).1 = .choose alt) :
    1 ≤ alt ∧ alt ≤ d.nexts.length := by
  have htree : ((Automata.ofTables t).tree site level).Within d.Offered := by
    rcases tree_eq hd level with htree | ⟨top, htree⟩
    · rw [htree]
      exact .leaf (by simp) trivial
    · rw [htree]
      exact within_automaton Automata.depth d top
  rw [choose] at h
  split at h
  · rename_i o last ho
    cases h
    exact within_withoutCallers htree (congrArg Prod.fst ho)
  · exact within_withCallers (within_start false level d stack) h

end Lookahead

end Callscope
