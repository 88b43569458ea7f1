import Callscope.Proofs.Lookahead.Expansion

/-!
# Following configurations ends

The configurations that can be reached without a token are followed to the end. A walk that stays inside
of its rule only goes down, and one that leaves it returns to a stack that is smaller; a call is left
again only if its rule can be empty. Where the callers are unknown a walk goes on to every place that a
rule is called from, but it leaves a mark there and does not come back to a place with a mark. There are
only finitely many marks, so this too comes to an end.
-/

namespace Callscope

theorem Stack.sizeOf_below {s : Stack} {top : Nat × Stack} (h : top ∈ s.tops) :
    sizeOf top.2 < sizeOf s := by
  obtain ⟨hash, ends, tops⟩ := s
  have hmem := List.sizeOf_lt_of_mem h
  obtain ⟨site, below⟩ := top
  simp only [Stack.tops, Prod.mk.sizeOf_spec, Stack.node.sizeOf_spec] at hmem ⊢
  omega

/-! ## Marks -/

namespace Tables

variable {t : Tables}

/-- The sites at which callers go on. -/
def resumes (t : Tables) : List Nat := t.callers.toList.flatten.map Caller.next

/-- The levels that are tested. -/
def levels (t : Tables) : List Nat :=
  t.edges.toList.filterMap fun
    | .guard level _ => some level
    | _ => none

theorem mem_resumes {r : Rule} {caller : Caller} (h : caller ∈ t.callers.getD r.ctorIdx []) :
    caller.next ∈ t.resumes := by
  rw [Array.getD_eq_getD_getElem?] at h
  cases hr : t.callers[r.ctorIdx]? with
  | none =>
    rw [hr] at h
    cases h
  | some callers =>
    rw [hr] at h
    have hmem := Array.mem_toList_iff.mpr (Array.mem_of_getElem? hr)
    exact List.mem_map_of_mem (List.mem_flatten.mpr ⟨callers, hmem, h⟩)

theorem mem_levels {s level next : Nat} (h : t.edge s = .guard level next) : level ∈ t.levels := by
  rw [edge, Array.getD_eq_getD_getElem?] at h
  cases hs : t.edges[s]? with
  | none =>
    rw [hs] at h
    cases h
  | some e =>
    rw [hs] at h
    have hmem := Array.mem_toList_iff.mpr (Array.mem_of_getElem? hs)
    exact List.mem_filterMap.mpr ⟨e, hmem, by rw [show e = .guard level next from h]⟩

end Tables

namespace Config

variable {t : Tables} {c d : Config} {m : Key × Bool}

/-- What is noted about a configuration after the rule that decides was left. -/
def mark (c : Config) : Key × Bool := (c.key, c.loose)

/-- The tests that can be noted on the way from a configuration. -/
def guards (t : Tables) (c : Config) : List (Option Nat) := c.guard :: t.levels.map some

/-- The marks that can be left on the way from a configuration, which keeps its choice. -/
def marks (t : Tables) (c : Config) : List (Key × Bool) :=
  t.resumes.flatMap fun site => (c.guards t).flatMap fun guard =>
    [(⟨site, c.alt, guard⟩, true), (⟨site, c.alt, guard⟩, false)]

theorem mem_marks :
    m ∈ c.marks t ↔ m.1.site ∈ t.resumes ∧ m.1.alt = c.alt ∧ m.1.guard ∈ c.guards t := by
  obtain ⟨⟨site, alt, guard⟩, loose⟩ := m
  simp only [marks, List.mem_flatMap, List.mem_cons, List.not_mem_nil, or_false, Prod.mk.injEq,
    Key.mk.injEq]
  constructor
  · rintro ⟨site', hsite, guard', hguard, ⟨⟨rfl, rfl, rfl⟩, -⟩ | ⟨⟨rfl, rfl, rfl⟩, -⟩⟩
    · exact ⟨hsite, rfl, hguard⟩
    · exact ⟨hsite, rfl, hguard⟩
  · rintro ⟨hsite, rfl, hguard⟩
    refine ⟨site, hsite, guard, hguard, ?_⟩
    cases loose
    · exact .inr ⟨⟨rfl, rfl, rfl⟩, rfl⟩
    · exact .inl ⟨⟨rfl, rfl, rfl⟩, rfl⟩

/-- A configuration further on can leave no marks but those of the one before it. -/
theorem marks_subset (halt : d.alt = c.alt) (hguard : d.guard ∈ c.guards t) :
    d.marks t ⊆ c.marks t := by
  intro m hm
  obtain ⟨hsite, hm, hlevel⟩ := mem_marks.mp hm
  refine mem_marks.mpr ⟨hsite, hm.trans halt, ?_⟩
  rcases List.mem_cons.mp hlevel with heq | hlevel
  · rwa [heq]
  · exact List.mem_cons_of_mem _ hlevel

end Config

namespace Scope

variable {sc : Scope} {c : Config} {depth : Int} {p q : Progress} {x : Config × Int}
  {left : List (Key × Bool)}

theorem Follows.marks_subset (h : sc.Follows c depth x) : x.1.marks sc.tables ⊆ c.marks sc.tables := by
  cases h with
  | eof | call | way | back | dip => exact Config.marks_subset rfl List.mem_cons_self
  | guard hedge =>
    have hlevel := List.mem_map_of_mem (f := some) (Tables.mem_levels hedge)
    exact Config.marks_subset rfl (List.mem_cons_of_mem _ hlevel)

/-- Going on to the callers of a rule leaves marks where there were none. -/
theorem marked_dips {r : Rule} {callers : List Caller} {seen : Std.HashSet (Key × Bool)} :
    (∀ m ∈ seen, m ∈ (sc.dips r c depth callers seen).1) ∧
    ∀ x ∈ (sc.dips r c depth callers seen).2,
      x.1.mark ∈ (sc.dips r c depth callers seen).1 ∧ x.1.mark ∉ seen := by
  refine List.foldlRecOn
    (motive := fun (y : Std.HashSet (Key × Bool) × Work) => (∀ m ∈ seen, m ∈ y.1) ∧
      ∀ x ∈ y.2, x.1.mark ∈ y.1 ∧ x.1.mark ∉ seen)
    callers _ ⟨fun _ hm => hm, by simp⟩ ?_
  intro y ⟨hseen, hy⟩ caller _
  dsimp only
  split
  · exact ⟨hseen, hy⟩
  · rename_i hnew
    refine ⟨fun m hm => Std.HashSet.mem_insert.mpr (.inr (hseen m hm)), fun x hx => ?_⟩
    rcases List.mem_cons.mp hx with rfl | hx
    · refine ⟨Std.HashSet.mem_insert_self, fun hm => hnew ?_⟩
      exact Std.HashSet.contains_iff_mem.mpr (hseen _ hm)
    · exact ⟨Std.HashSet.mem_insert.mpr (.inr (hy x hx).1), (hy x hx).2⟩

/-- No mark is taken away. -/
theorem seen_expand (sc : Scope) (c : Config) (depth : Int) (p : Progress) :
    ∀ m ∈ p.seen, m ∈ (sc.expand c depth p).2.seen := by
  intro m hm
  rw [expand]
  split
  · exact hm
  · exact hm
  · exact hm
  · exact hm
  · exact hm
  · exact hm
  · split
    · split
      · exact hm
      · split
        · exact hm
        · exact marked_dips.1 m hm
    · dsimp only
      split
      · exact hm
      · exact hm

/-- Where a walk leaves the rule that decides for its callers, it leaves a mark. -/
theorem marked_expand {r : Rule} (hedge : sc.tables.edge c.site = .stop r)
    (hroot : c.stack.isRoot = true) (h : x ∈ (sc.expand c depth p).1) :
    x.1.mark ∈ c.marks sc.tables ∧ x.1.mark ∈ (sc.expand c depth p).2.seen ∧ x.1.mark ∉ p.seen := by
  revert h
  rw [expand, hedge]
  dsimp only
  rw [if_pos hroot]
  split
  · exact fun h => absurd h List.not_mem_nil
  · split
    · exact fun h => absurd h List.not_mem_nil
    · intro h
      obtain ⟨hseen, hnew⟩ := marked_dips.2 x h
      refine ⟨?_, hseen, hnew⟩
      obtain ⟨caller, hcaller, loose, rfl⟩ := mem_dips h
      exact Config.mem_marks.mpr ⟨Tables.mem_resumes hcaller, rfl, List.mem_cons_self⟩

/-! ## Halting -/

/-- Every mark that can be left on the way from a configuration is on a list or has been left. -/
def Charted (sc : Scope) (left : List (Key × Bool)) (seen : Std.HashSet (Key × Bool))
    (c : Config) : Prop :=
  ∀ m ∈ c.marks sc.tables, m ∈ left ∨ m ∈ seen

/-- Following the configuration first comes to an end if following the others does, as long as the marks
that can still be left are on the list. -/
def Halts (sc : Scope) (left : List (Key × Bool)) (c : Config) : Prop :=
  ∀ depth work p, sc.Charted left p.seen c →
    (∀ q : Progress, (∀ m ∈ p.seen, m ∈ q.seen) → (sc.follow work q).isSome) →
    (sc.follow ((c, depth) :: work) p).isSome

theorem follow_cons (sc : Scope) (c : Config) (depth : Int) (work : Work) (p : Progress) :
    sc.follow ((c, depth) :: work) p =
      sc.follow ((sc.expand c depth p).1 ++ work) (sc.expand c depth p).2 := by
  rw [follow]

theorem Charted.mono {seen seen' : Std.HashSet (Key × Bool)} (h : sc.Charted left seen c)
    (hseen : ∀ m ∈ seen, m ∈ seen') : sc.Charted left seen' c :=
  fun m hm => (h m hm).imp_right (hseen m)

theorem isSome_follow_append (left : List (Key × Bool)) {more work : Work}
    (hmore : ∀ x ∈ more, sc.Halts left x.1 ∧ sc.Charted left p.seen x.1)
    (hwork : ∀ q : Progress, (∀ m ∈ p.seen, m ∈ q.seen) → (sc.follow work q).isSome) :
    (sc.follow (more ++ work) p).isSome := by
  induction more generalizing p with
  | nil => exact hwork p fun _ hm => hm
  | cons x more ih =>
    obtain ⟨hhalts, hcharted⟩ := hmore x List.mem_cons_self
    refine hhalts x.2 (more ++ work) p hcharted fun q hq => ih (fun y hy => ?_) fun q' hq' => ?_
    · obtain ⟨hhalts, hcharted⟩ := hmore y (List.mem_cons_of_mem _ hy)
      exact ⟨hhalts, hcharted.mono hq⟩
    · exact hwork q' fun m hm => hq' m (hq m hm)

/-- A configuration halts if those halt that it is followed to, except that fewer marks are left where
the rule that decides is left. -/
theorem halts_of_follows
    (hinside : ∀ depth x, sc.Follows c depth x → (∀ r, sc.tables.edge c.site = .stop r →
      c.stack.isRoot = false) → sc.Halts left x.1)
    (houtside : ∀ left' : List (Key × Bool), left'.length < left.length → ∀ d, sc.Halts left' d) :
    sc.Halts left c := by
  intro depth work p hcharted hwork
  rw [follow_cons]
  have hseen := seen_expand sc c depth p
  have hrest : ∀ q : Progress, (∀ m ∈ (sc.expand c depth p).2.seen, m ∈ q.seen) →
      (sc.follow work q).isSome := fun q hq => hwork q fun m hm => hq m (hseen m hm)
  have hfurther : ∀ x ∈ (sc.expand c depth p).1,
      sc.Charted left (sc.expand c depth p).2.seen x.1 := fun x hx m hm =>
    (hcharted.mono hseen) m ((follows_of_mem hx).marks_subset hm)
  by_cases hleaves : ∃ r, sc.tables.edge c.site = .stop r ∧ c.stack.isRoot = true
  · obtain ⟨r, hedge, hroot⟩ := hleaves
    refine isSome_follow_append (left.filter (· ∉ (sc.expand c depth p).2.seen))
      (fun x hx => ⟨?_, fun m hm => ?_⟩) hrest
    · obtain ⟨hmark, hnow, hbefore⟩ := marked_expand hedge hroot hx
      refine houtside _ (List.length_filter_lt_length_iff_exists.mpr ⟨x.1.mark, ?_, ?_⟩) x.1
      · exact (hcharted _ hmark).resolve_right hbefore
      · simpa using hnow
    · by_cases hmarked : m ∈ (sc.expand c depth p).2.seen
      · exact .inr hmarked
      · exact .inl (List.mem_filter.mpr ⟨(hfurther x hx m hm).resolve_right hmarked, by simpa⟩)
  · refine isSome_follow_append left (fun x hx => ⟨?_, hfurther x hx⟩) hrest
    refine hinside depth x (follows_of_mem hx) fun r hedge => ?_
    by_contra hroot
    exact hleaves ⟨r, hedge, by simpa using hroot⟩

/-- A configuration halts if those do to which its calls return, as far as its rule can be left at all. -/
theorem halts_of_returns (hg : sc.tables.Grounds)
    (houtside : ∀ left' : List (Key × Bool), left'.length < left.length → ∀ d, sc.Halts left' d)
    {s : Nat} {stack : Stack} (hreturns : (sc.tables.look s).Admits .eof → ∀ top ∈ stack.tops,
      ∀ c : Config, c.site = top.1 → c.stack = top.2 → sc.Halts left c) :
    ∀ c : Config, c.site = s → c.stack = stack → sc.Halts left c := by
  induction hg.safe s generalizing stack with
  | intro s hunder ih =>
    rintro c rfl rfl
    have hsound := hg.sound c.site
    have hstay : ∀ n ∈ (sc.tables.edge c.site).ways,
        ∀ d : Config, d.site = n → d.stack = c.stack → sc.Halts left d := by
      intro n hn
      have hlook := Edge.Sound.below_ways hsound hn
      exact ih n (.way hn) fun hadmits => hreturns (hadmits.imp (hlook.1 _) hlook.2)
    refine halts_of_follows (fun depth x hx hinside => ?_) houtside
    cases hx with
    | @eof kinds next hedge _ hkinds =>
      rw [hedge, Edge.Sound] at hsound
      exact ih next (.eof hedge hkinds) (fun _ => hreturns (.inl (hsound.1 _ hkinds))) _ rfl rfl
    | @call r level next hedge =>
      rw [hedge, Edge.Sound] at hsound
      -- The caller goes on after the call only if the rule can be empty.
      refine ih _ (.start hedge) (fun hadmits top htop => ?_) _ rfl rfl
      have hends : (sc.tables.first r).ends = true := by
        refine hadmits.resolve_left fun heof => ?_
        cases heof.symm.trans (hg.calls _ r level next hedge)
      rw [List.mem_singleton.mp htop]
      refine ih next (.next hedge hends) fun hnext => hreturns ?_
      refine hnext.imp (fun heof => hsound.1 _ (Look.contains_andThen.mpr (.inr ⟨hends, heof⟩)))
        fun hnext => hsound.2 ?_
      rw [Look.ends_andThen, hends, hnext]
      rfl
    | guard hedge => exact hstay _ (by rw [hedge]; exact List.mem_singleton.mpr rfl) _ rfl rfl
    | way hway => exact hstay _ hway _ rfl rfl
    | back hedge htop =>
      rw [hedge, Edge.Sound] at hsound
      exact hreturns (.inr hsound) _ htop _ rfl rfl
    | dip hedge hroot => cases hroot.symm.trans (hinside _ hedge)

/-- Following a configuration comes to an end. The induction is on the marks that are left, and for the
same marks on the stack. -/
theorem halts (hg : sc.tables.Grounds) (left : List (Key × Bool)) (c : Config) :
    sc.Halts left c := by
  induction hn : left.length using Nat.strongRecOn generalizing left c with
  | ind n ihleft =>
    subst hn
    have houtside : ∀ left' : List (Key × Bool), left'.length < left.length →
        ∀ d, sc.Halts left' d := fun left' hlt d => ihleft _ hlt left' d rfl
    suffices hstack : ∀ stack : Stack, ∀ c : Config, c.stack = stack → sc.Halts left c from
      hstack _ c rfl
    intro stack
    induction hn : sizeOf stack using Nat.strongRecOn generalizing stack with
    | ind n ih =>
      subst hn
      intro c hc
      refine halts_of_returns hg houtside (fun _ top htop => ?_) c rfl hc
      exact fun d _ hd => ih _ (Stack.sizeOf_below htop) top.2 rfl d hd

theorem isSome_follow (hg : sc.tables.Grounds) (work : Work) (p : Progress) :
    (sc.follow work p).isSome := by
  have hempty : ∀ q : Progress, (∀ m ∈ p.seen, m ∈ q.seen) → (sc.follow [] q).isSome :=
    fun q _ => by rw [follow]; rfl
  rw [← List.append_nil work]
  refine isSome_follow_append (work.flatMap fun x => x.1.marks sc.tables)
    (fun x hx => ⟨halts hg _ x.1, fun m hm => .inl ?_⟩) hempty
  exact List.mem_flatMap.mpr ⟨x, hx, hm⟩

end Scope

end Callscope
