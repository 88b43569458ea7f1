import Callscope.Proofs.Grammar.Pace

/-!
# What the tables of a grammar hold

Every site has the look and the decision that the grammar gives it, because no two places share a
number. Along each edge of the network the look can only shrink. `Paced` collects what a parser needs of
its tables to get on with any text.
-/

namespace Callscope

/-- Increasing numbers from `n` on and below `m`. -/
def increasing (n m : Nat) : List Nat → Bool
  | [] => true
  | s :: ss => decide (n ≤ s ∧ s < m) && increasing (s + 1) m ss

theorem between_of_increasing {n m : Nat} {ss : List Nat} (h : increasing n m ss = true) :
    Between n m ss := by
  induction ss generalizing n with
  | nil => exact .nil
  | cons s ss ih =>
    rw [increasing, Bool.and_eq_true, decide_eq_true_eq] at h
    exact .cons h.1 (ih h.2)

namespace Network

theorem size_tabulate {α : Type} (size : Nat) (dflt : α) (entries : List (Nat × α)) :
    (tabulate size dflt entries).size = size := by
  rw [tabulate]
  refine List.foldlRecOn (motive := fun (table : Array α) => table.size = size) entries _
    Array.size_replicate fun table htable e _ => ?_
  rw [Array.size_setIfInBounds, htable]

theorem foldl_set_of_not_mem {α : Type} {entries : List (Nat × α)} {table : Array α} {i : Nat}
    (h : i ∉ entries.map Prod.fst) :
    (entries.foldl (fun table (i, a) => table.setIfInBounds i a) table)[i]? = table[i]? := by
  induction entries generalizing table with
  | nil => rfl
  | cons e entries ih =>
    rw [List.map_cons, List.mem_cons, not_or] at h
    rw [List.foldl_cons, ih h.2, Array.getElem?_setIfInBounds_ne (Ne.symm h.1)]

/-- A table holds what was entered for a number once. -/
theorem tabulate_of_mem {α : Type} {size i : Nat} {dflt v : α} {entries : List (Nat × α)}
    (hnodup : (entries.map Prod.fst).Nodup) (hsize : i < size) (h : (i, v) ∈ entries) :
    (tabulate size dflt entries)[i]? = some v := by
  have hfold : ∀ table : Array α, i < table.size →
      (entries.foldl (fun table (i, a) => table.setIfInBounds i a) table)[i]? = some v := by
    clear hsize
    induction entries with
    | nil => cases h
    | cons e entries ih =>
      intro table hi
      rw [List.map_cons, List.nodup_cons] at hnodup
      rw [List.foldl_cons]
      rcases List.mem_cons.mp h with rfl | h
      · rw [foldl_set_of_not_mem hnodup.1, Array.getElem?_setIfInBounds_self_of_lt hi]
      · exact ih hnodup.2 h _ (by rwa [Array.size_setIfInBounds])
  exact hfold _ (by rwa [Array.size_replicate])

end Network

/-! ## Looks along the edges -/

/-- The way on from a site leads to nothing that could not come at the site. -/
def Edge.Sound (t : Tables) (s : Nat) : Edge → Prop
  | .terminal kinds _ => (Look.ofKinds kinds).Below (t.look s)
  | .call r _ next => ((t.first r).andThen (t.look next)).Below (t.look s)
  | .guard _ next | .jump next => (t.look next).Below (t.look s)
  | .fork nexts => ∀ n ∈ nexts, (t.look n).Below (t.look s)
  | .climb operator finish =>
    (t.look operator).Below (t.look s) ∧ (t.look finish).Below (t.look s)
  | .stop _ => (t.look s).ends = true

namespace Look

/-- One round of a loop can come where any number of rounds can. -/
theorem round_below (l after : Look) : (l.andThen ({ l with ends := true }.andThen after)).Below
    ({ l with ends := true }.andThen after) := by
  refine ⟨fun k hk => ?_, fun he => ?_⟩
  · rcases contains_andThen.mp hk with hk | ⟨_, hk⟩
    · exact contains_andThen.mpr (.inl hk)
    · exact hk
  · rw [ends_andThen, Bool.and_eq_true] at he
    exact he.2

theorem below_loop (l after : Look) : after.Below ({ l with ends := true }.andThen after) :=
  ⟨fun _ hk => contains_andThen.mpr (.inr ⟨rfl, hk⟩), fun he => by simp [he]⟩

end Look

namespace Network

open Item

variable {t : Tables} {p : Pace} {after : Look} {next : Nat} {shared ends : Bool}

mutual

theorem sound_edges (i : Item) (after : Look) (next : Nat) (shared ends : Bool)
    (hlooks : ∀ x ∈ Look.sitesOfItem t.first after i, t.looks[x.1]? = some x.2)
    (hsteady : i.steady t.first p ends = true) (hnext : t.look next = after) :
    ∀ x ∈ edges next shared i, x.2.Sound t x.1 := by
  cases i with
  | terminal s k l =>
    have hsite := Tables.look_of_getElem? (hlooks (s, _) List.mem_cons_self)
    simp only [edges, List.mem_singleton, forall_eq, Edge.Sound, hsite]
    exact .refl _
  | terminalOf s ks l =>
    have hsite := Tables.look_of_getElem? (hlooks (s, _) List.mem_cons_self)
    simp only [edges, List.mem_singleton, forall_eq, Edge.Sound, hsite]
    exact .refl _
  | call s r v l =>
    have hsite := Tables.look_of_getElem? (hlooks (s, _) List.mem_cons_self)
    have hmeet := Tables.look_of_getElem?
      (hlooks (s + 1, _) (List.mem_cons_of_mem _ List.mem_cons_self))
    have hreturn : t.look (if shared then next else s + 1) = after := by
      split
      · exact hnext
      · exact hmeet
    simp only [edges, List.mem_cons, List.not_mem_nil, or_false, forall_eq_or_imp, forall_eq,
      Edge.Sound, hsite, hmeet, hreturn, hnext]
    exact ⟨.refl _, .refl _⟩
  | branch s alts =>
    rw [steady, Bool.and_eq_true] at hsteady
    have hsite := Tables.look_of_getElem? (hlooks (s, _) List.mem_cons_self)
    have hmeet := Tables.look_of_getElem?
      (hlooks (s + 1, _) (List.mem_cons_of_mem _ List.mem_cons_self))
    have hin : ∀ x ∈ Look.sitesOfAlts t.first after alts, t.looks[x.1]? = some x.2 :=
      fun x hx => hlooks x (List.mem_cons_of_mem _ (List.mem_cons_of_mem _ hx))
    simp only [edges, List.mem_cons, forall_eq_or_imp, Edge.Sound]
    refine ⟨fun n hn => ?_, ?_, sound_edgesAlts alts after (s + 1) ends hin hsteady.2 hmeet⟩
    · obtain ⟨a, ha, rfl⟩ := List.mem_map.mp hn
      rw [look_entry (fun x hx => hin x (Look.mem_sitesOfAlts ha hx))
        (steadyAlts_iff.mp hsteady.2 a ha).2 hmeet, hsite]
      exact (Look.ofItems_below_ofAlts ha).andThen (.refl _)
    · rw [hmeet, hnext]
      exact .refl _
  | loop s body =>
    rw [steady, Bool.and_eq_true] at hsteady
    have hsite := Tables.look_of_getElem? (hlooks (s, _) List.mem_cons_self)
    have hmeet := Tables.look_of_getElem?
      (hlooks (s + 1, _) (List.mem_cons_of_mem _ List.mem_cons_self))
    have hin := fun x hx => hlooks x (List.mem_cons_of_mem _ (List.mem_cons_of_mem _ hx))
    simp only [edges, List.mem_cons, List.not_mem_nil, or_false, forall_eq_or_imp, forall_eq,
      Edge.Sound]
    refine ⟨⟨?_, ?_⟩, ?_, sound_edgesAll body _ (s + 1) true ends hin hsteady.2 hmeet⟩
    · rw [look_entry hin hsteady.2 hmeet, hsite]
      exact Look.round_below ..
    · rw [hnext, hsite]
      exact Look.below_loop ..
    · rw [hsite, hmeet]
      exact .refl _
  | loopOnce s body =>
    rw [steady, Bool.and_eq_true] at hsteady
    have hsite := Tables.look_of_getElem? (hlooks (s, _) List.mem_cons_self)
    have hmeet := Tables.look_of_getElem?
      (hlooks (s + 1, _) (List.mem_cons_of_mem _ List.mem_cons_self))
    have hin := fun x hx => hlooks x (List.mem_cons_of_mem _ (List.mem_cons_of_mem _ hx))
    simp only [edges, List.mem_cons, List.not_mem_nil, or_false, forall_eq_or_imp, forall_eq,
      Edge.Sound]
    refine ⟨?_, ⟨?_, ?_⟩, sound_edgesAll body _ (s + 1) true ends hin hsteady.2 hmeet⟩
    · rw [look_entry hin hsteady.2 hmeet, hsite]
      exact .refl _
    · rw [hsite, hmeet]
      exact Look.round_below ..
    · rw [hnext, hmeet]
      exact Look.below_loop ..
  | climb s ops =>
    simp only [steady, Bool.and_eq_true] at hsteady
    have hsite := Tables.look_of_getElem? (hlooks (s, _) List.mem_cons_self)
    have hmeet := Tables.look_of_getElem?
      (hlooks (s + 1, _) (List.mem_cons_of_mem _ List.mem_cons_self))
    have hwhich := Tables.look_of_getElem? (hlooks (s + 2, _)
      (List.mem_cons_of_mem _ (List.mem_cons_of_mem _ List.mem_cons_self)))
    have hin := fun x hx => hlooks x
      (List.mem_cons_of_mem _ (List.mem_cons_of_mem _ (List.mem_cons_of_mem _ hx)))
    have hops := steadyOps_iff.mp hsteady.2
    simp only [edges, List.mem_cons, forall_eq_or_imp, Edge.Sound]
    refine ⟨⟨?_, ?_⟩, ?_, fun n hn => ?_,
      sound_edgesOps ops _ (s + 1) ends hin hsteady.2 hmeet⟩
    · rw [hwhich, hsite]
      have hsolid := Look.ofOps_not_ends fun op hop => (begins_iff.mp (hops op hop).1).1
      exact ⟨fun k hk => Look.contains_andThen.mpr (.inl hk),
        fun he => absurd (he.symm.trans hsolid) (by decide)⟩
    · rw [hnext, hsite]
      exact Look.below_loop { Look.ofOps t.first ops with guarded := true } after
    · rw [hsite, hmeet]
      exact .refl _
    · obtain ⟨op, hop, rfl⟩ := List.mem_map.mp hn
      rw [Tables.look_of_getElem? (hin _ (Look.mem_sitesOfOps hop (.inl rfl))), hwhich,
        Look.andThen_of_not_ends (begins_iff.mp (hops op hop).1).1]
      exact Look.ofItems_below_ofOps hop

theorem sound_edgesAll (is : List Item) (after : Look) (next : Nat) (shared ends : Bool)
    (hlooks : ∀ x ∈ Look.sitesOfItems t.first after is, t.looks[x.1]? = some x.2)
    (hsteady : steadyAll t.first p ends is = true) (hnext : t.look next = after) :
    ∀ x ∈ edgesAll next shared is, x.2.Sound t x.1 := by
  cases is with
  | nil => simp [edgesAll]
  | cons i is =>
    rw [steadyAll, Bool.and_eq_true] at hsteady
    obtain ⟨sh, sh', hedges⟩ := edgesAll_cons next shared i is
    have hrest : ∀ x ∈ Look.sitesOfItems t.first after is, t.looks[x.1]? = some x.2 :=
      fun x hx => hlooks x (List.mem_append_right _ hx)
    rw [hedges]
    intro x hx
    rcases List.mem_append.mp hx with hx | hx
    · exact sound_edges i _ _ sh _ (fun x hx => hlooks x (List.mem_append_left _ hx)) hsteady.1
        (look_entry hrest hsteady.2 hnext) x hx
    · exact sound_edgesAll is after next sh' ends hrest hsteady.2 hnext x hx

theorem sound_edgesAlts (alts : List (List Item)) (after : Look) (next : Nat) (ends : Bool)
    (hlooks : ∀ x ∈ Look.sitesOfAlts t.first after alts, t.looks[x.1]? = some x.2)
    (hsteady : steadyAlts t.first p ends alts = true) (hnext : t.look next = after) :
    ∀ x ∈ edgesAlts next alts, x.2.Sound t x.1 := by
  cases alts with
  | nil => simp [edgesAlts]
  | cons a alts =>
    simp only [steadyAlts, Bool.and_eq_true] at hsteady
    intro x hx
    rcases List.mem_append.mp hx with hx | hx
    · exact sound_edgesAll a after next true ends
        (fun x hx => hlooks x (List.mem_append_left _ hx)) hsteady.1.2 hnext x hx
    · exact sound_edgesAlts alts after next ends
        (fun x hx => hlooks x (List.mem_append_right _ hx)) hsteady.2 hnext x hx

theorem sound_edgesOps (ops : List (Nat × List Item)) (after : Look) (next : Nat) (ends : Bool)
    (hlooks : ∀ x ∈ Look.sitesOfOps t.first after ops, t.looks[x.1]? = some x.2)
    (hsteady : steadyOps t.first p ends ops = true) (hnext : t.look next = after) :
    ∀ x ∈ edgesOps next ops, x.2.Sound t x.1 := by
  cases ops with
  | nil => simp [edgesOps]
  | cons op ops =>
    obtain ⟨v, a⟩ := op
    simp only [steadyOps, Bool.and_eq_true] at hsteady
    have hin : ∀ x ∈ Look.sitesOfItems t.first after a, t.looks[x.1]? = some x.2 :=
      fun x hx => hlooks x (List.mem_append_left _ (List.mem_cons_of_mem _ hx))
    intro x hx
    rcases List.mem_append.mp hx with hx | hx
    · rcases List.mem_cons.mp hx with rfl | hx
      · rw [Edge.Sound, look_entry hin hsteady.1.2 hnext]
        dsimp only
        rw [Tables.look_of_getElem? (hlooks _ (List.mem_append_left _ List.mem_cons_self))]
        exact .refl _
      · exact sound_edgesAll a after next true ends hin hsteady.1.2 hnext x hx
    · exact sound_edgesOps ops after next ends
        (fun x hx => hlooks x (List.mem_append_right _ hx)) hsteady.2 hnext x hx

end

end Network

/-! ## The tables of a grammar -/

/-- The bounds hold for a rule, given how the rules begin. -/
def Pace.suits (p : Pace) (first : Rule → Look) (r : Rule × Numbered) : Bool :=
  decide (Look.ofItems first r.2.items = first r.1) &&
    decide (Item.idleAll first p r.2.items ≤ p.idle r.1 ∧ p.idle r.1 ≤ p.cap) &&
    decide (Item.descentAll first p 0 r.2.items ≤ p.descent r.1) &&
    Item.steadyAll first p true r.2.items

namespace Tables

/-- The tables are those of a grammar in which a parser gets on. -/
structure Paced (t : Tables) (p : Pace) : Prop where
  sound : ∀ s, (t.edge s).Sound t s
  rules : ∀ r, Item.LaidAll t p .done (t.rule r).items
  first : ∀ r, Look.ofItems t.first (t.rule r).items = t.first r
  idle : ∀ r, Item.idleAll t.first p (t.rule r).items ≤ p.idle r ∧ p.idle r ≤ p.cap
  descent : ∀ r, Item.descentAll t.first p 0 (t.rule r).items ≤ p.descent r

variable {g : Grammar} {p : Pace}

theorem size_looks (g : Grammar) : (ofGrammar g).looks.size = (g.numberRules 0 Rule.all).2 := by
  simp only [ofGrammar, Network.size_tabulate]

theorem mem_numbering (g : Grammar) (r : Rule) :
    (r, (ofGrammar g).rule r) ∈ numbering g := by
  obtain ⟨m, hm⟩ := numberRules_getElem? (g := g) 0 (all_ctorIdx r)
  have hrule : (ofGrammar g).rule r = ⟨m, (Item.numberAll (m + 2) (g r)).1⟩ := by
    rw [rule, Array.getD_eq_getD_getElem?]
    simp only [ofGrammar, List.getElem?_toArray, hm, Option.getD_some]
  refine List.mem_of_getElem? (i := r.ctorIdx) ?_
  rw [hrule, numbering, List.getElem?_zip_eq_some]
  exact ⟨all_ctorIdx r, hm⟩

/-- How the text can go on after each rule. -/
def follow (t : Tables) : Rule → Look :=
  Look.ofTable (settleFollow t.looks t.callers (Rule.all.length * (Kind.all.length + 2))
    (Rule.all.map fun _ => Look.none).toArray)

theorem decisions_ofGrammar (g : Grammar) : (ofGrammar g).decisions =
    Network.tabulate (g.numberRules 0 Rule.all).2 none ((edgesOf (numbering g)).map fun x =>
      (x.2.1, decisionOf (ofGrammar g).looks (ofGrammar g).follow x.1 x.2.2)) := by
  simp only [ofGrammar, follow, numbering]

/-- A site has the decision of its edge. -/
theorem decision?_of_edge (hg : ∀ r, Item.Proper (g r)) {r : Rule} {s : Nat} {e : Edge}
    (he : (r, s, e) ∈ edgesOf (numbering g)) : (ofGrammar g).decision? s =
      decisionOf (ofGrammar g).looks (ofGrammar g).follow r e := by
  obtain ⟨_, hnodup, hbound⟩ := between_edgesOf hg Rule.all 0
  have hsize := (hbound s (List.mem_map.mpr ⟨_, he, rfl⟩)).2
  have hmem := List.mem_map_of_mem
    (f := fun x => (x.2.1, decisionOf (ofGrammar g).looks (ofGrammar g).follow x.1 x.2.2)) he
  rw [decision?, Array.getD_eq_getD_getElem?, decisions_ofGrammar,
    Network.tabulate_of_mem (by rwa [List.map_map]) hsize hmem, Option.getD_some]

/-- Every choice has its decision. -/
theorem decides_of_edge (hg : ∀ r, Item.Proper (g r)) {r : Rule} {s : Nat} {e : Edge}
    (he : (r, s, e) ∈ edgesOf (numbering g)) (hchoices : 2 ≤ e.choices.length) :
    (ofGrammar g).Decides s e.choices := by
  have hsome := decision?_of_edge hg he
  match e, hchoices with
  | .fork (n :: n' :: nexts), _ => exact ⟨_, (ofGrammar g).follow r, hsome, rfl, List.map_map⟩
  | .climb operator finish, _ => exact ⟨_, (ofGrammar g).follow r, hsome, rfl, List.map_map⟩

/-- The looks of a rule's places are in the tables. -/
structure Holds (t : Tables) (r : Rule) (n : Numbered) : Prop where
  start : t.look n.start = t.first r
  stop : t.look n.stop = .done
  items : ∀ x ∈ Look.sitesOfItems t.first .done n.items, t.looks[x.1]? = some x.2

theorem Holds.sound {t : Tables} {r : Rule} {n : Numbered} (h : t.Holds r n)
    (hfirst : Look.ofItems t.first n.items = t.first r)
    (hsteady : Item.steadyAll t.first p true n.items = true) :
    ∀ x ∈ Network.edgesRule r n, x.2.Sound t x.1 := by
  have hentry := Item.look_entry h.items hsteady h.stop
  simp only [Network.edgesRule, List.mem_cons, forall_eq_or_imp, Edge.Sound, h.stop, Look.done,
    true_and]
  refine ⟨?_, Network.sound_edgesAll n.items .done n.stop false true h.items hsteady h.stop⟩
  rw [hentry, Look.andThen_done, hfirst, h.start]
  exact .refl _

theorem Holds.laid (hg : ∀ r, Item.Proper (g r)) {r : Rule} {n : Numbered}
    (hr : (r, n) ∈ numbering g) (h : (ofGrammar g).Holds r n)
    (hsteady : Item.steadyAll (ofGrammar g).first p true n.items = true) :
    Item.LaidAll (ofGrammar g) p .done n.items := by
  refine ⟨h.items, ⟨n.stop, false, h.stop, fun x hx hchoices => ?_⟩, hsteady⟩
  refine decides_of_edge hg (r := r) (List.mem_flatMap.mpr ⟨(r, n), hr, ?_⟩) hchoices
  exact List.mem_map.mpr ⟨x, List.mem_cons_of_mem _ (List.mem_cons_of_mem _ hx), rfl⟩

/-- The looks of a grammar that gives no number twice are those of its tables. -/
theorem holds_ofGrammar
    (hsites : Between 0 (g.numberRules 0 Rule.all).2
      ((looksOf (Look.ofTable (Look.ofGrammar g)) (numbering g)).map Prod.fst)) :
    (ofGrammar g).first = Look.ofTable (Look.ofGrammar g) ∧
      ∀ r n, (r, n) ∈ numbering g → (ofGrammar g).Holds r n := by
  have hlook : ∀ x ∈ looksOf (Look.ofTable (Look.ofGrammar g)) (numbering g),
      (ofGrammar g).looks[x.1]? = some x.2 := by
    intro x hx
    exact Network.tabulate_of_mem hsites.1 (hsites.2 x.1 (List.mem_map.mpr ⟨x, hx, rfl⟩)).2 hx
  have hin : ∀ r n, (r, n) ∈ numbering g → ∀ x ∈ (n.start, Look.ofTable (Look.ofGrammar g) r) ::
      (n.stop, .done) :: Look.sitesOfItems (Look.ofTable (Look.ofGrammar g)) .done n.items,
      (ofGrammar g).looks[x.1]? = some x.2 :=
    fun r n hr x hx => hlook x (List.mem_flatMap.mpr ⟨(r, n), hr, hx⟩)
  simp only [List.mem_cons, forall_eq_or_imp] at hin
  have hfirst : (ofGrammar g).first = Look.ofTable (Look.ofGrammar g) :=
    funext fun r => look_of_getElem? (hin r _ (mem_numbering g r)).1
  refine ⟨hfirst, fun r n hr => ?_⟩
  rw [← hfirst] at hin
  obtain ⟨hstart, hstop, hitems⟩ := hin r n hr
  exact ⟨look_of_getElem? hstart, look_of_getElem? hstop, hitems⟩

/-- The tables of a grammar that gives no number twice, with bounds that hold for all its rules. -/
theorem paced_ofGrammar (hg : ∀ r, Item.Proper (g r))
    (hsites : Between 0 (g.numberRules 0 Rule.all).2
      ((looksOf (Look.ofTable (Look.ofGrammar g)) (numbering g)).map Prod.fst))
    (hsuits : (numbering g).all (p.suits (Look.ofTable (Look.ofGrammar g))) = true) :
    (ofGrammar g).Paced p := by
  obtain ⟨hfirst, hholds⟩ := holds_ofGrammar hsites
  rw [← hfirst] at hsuits
  have hsuit := fun r n (hr : (r, n) ∈ numbering g) => List.all_eq_true.mp hsuits (r, n) hr
  simp only [Pace.suits, Bool.and_eq_true, decide_eq_true_eq] at hsuit
  refine
    { sound := fun s => ?_
      rules := fun r => ?_
      first := fun r => (hsuit r _ (mem_numbering g r)).1.1.1
      idle := fun r => (hsuit r _ (mem_numbering g r)).1.1.2
      descent := fun r => (hsuit r _ (mem_numbering g r)).1.2 }
  · generalize hedge : (ofGrammar g).edge s = e
    rcases Network.mem_of_tabulate hedge with rfl | hmem
    · simp [Edge.Sound]
    · obtain ⟨⟨r, x⟩, hx, rfl⟩ := List.mem_map.mp hmem
      obtain ⟨⟨r', n⟩, hr, hin⟩ := List.mem_flatMap.mp hx
      obtain ⟨y, hy, heq⟩ := List.mem_map.mp hin
      cases heq
      exact (hholds r n hr).sound (hsuit r n hr).1.1.1 (hsuit r n hr).2 y hy
  · have hr := mem_numbering g r
    exact (hholds r _ hr).laid hg hr (hsuit r _ hr).2

end Tables

end Callscope
