import Callscope.Proofs.Grammar.Tables

/-!
# Nothing goes on for ever without a token

Between two tokens a walk through the network only goes down: into rules that can be begun first, past
items that can be empty, and never twice to the same site. This holds because the rules can be ranked so
that each begins only with rules of lower rank, and because no round of a loop is empty.
-/

namespace Callscope

namespace Edge

/-- The sites to which an edge leads inside of its rule. -/
def nexts : Edge → List Nat
  | terminal _ next | call _ _ next | guard _ next | jump next => [next]
  | fork nexts => nexts
  | climb operator finish => [operator, finish]
  | stop _ => []

/-- The sites to which an edge leads without a token and without a call. -/
def ways : Edge → List Nat
  | guard _ next | jump next => [next]
  | fork nexts => nexts
  | climb operator finish => [operator, finish]
  | terminal .. | call .. | stop _ => []

theorem nexts_of_ways {e : Edge} {n : Nat} (h : n ∈ e.ways) : n ∈ e.nexts := by
  cases e <;> first | exact h | cases h

/-- Along a way the look can only shrink. -/
theorem Sound.below_ways {t : Tables} {s n : Nat} {e : Edge} (h : e.Sound t s) (hn : n ∈ e.ways) :
    (t.look n).Below (t.look s) := by
  cases e with
  | terminal | call | stop => cases hn
  | guard | jump =>
    rw [List.mem_singleton.mp hn]
    exact h
  | fork nexts => exact h n hn
  | climb operator finish =>
    rcases List.mem_cons.mp hn with rfl | hn
    · exact h.1
    · rw [List.mem_singleton.mp hn]
      exact h.2

end Edge

namespace Tables

/-- A site comes right after another one without a token. After a call it does if the rule can be
empty, and after a token if that can be the end of the text. -/
inductive Under (t : Tables) : Nat → Nat → Prop
  | way {s n : Nat} (h : n ∈ (t.edge s).ways) : Under t n s
  | start {s level next : Nat} {r : Rule} (h : t.edge s = .call r level next) :
      Under t (t.rule r).start s
  | next {s level next : Nat} {r : Rule} (h : t.edge s = .call r level next)
      (hends : (t.first r).ends = true) : Under t next s
  | eof {s next : Nat} {kinds : KindSet} (h : t.edge s = .terminal kinds next)
      (hkinds : kinds.contains .eof = true) : Under t next s

/-- The site cannot be left for ever without a token. -/
def Safe (t : Tables) (s : Nat) : Prop := Acc t.Under s

variable {t : Tables} {s n : Nat}

theorem safe_of_ways (hways : (t.edge s).ways = (t.edge s).nexts)
    (h : ∀ n ∈ (t.edge s).ways, t.Safe n) : t.Safe s := by
  refine ⟨s, fun n hn => ?_⟩
  cases hn with
  | way hn => exact h n hn
  | start he | next he | eof he => rw [he] at hways; cases hways

theorem safe_jump (hedge : t.edge s = .jump n) (h : t.Safe n) : t.Safe s := by
  refine safe_of_ways (by rw [hedge]; rfl) fun n' hn => ?_
  rw [hedge] at hn
  rw [List.mem_singleton.mp hn]
  exact h

theorem safe_fork {nexts : List Nat} (hedge : t.edge s = .fork nexts)
    (h : ∀ n ∈ nexts, t.Safe n) : t.Safe s := by
  refine safe_of_ways (by rw [hedge]; rfl) fun n hn => ?_
  rw [hedge] at hn
  exact h n hn

theorem safe_stop {r : Rule} (hedge : t.edge s = .stop r) : t.Safe s := by
  refine safe_of_ways (by rw [hedge]; rfl) fun n hn => ?_
  rw [hedge] at hn
  cases hn

theorem safe_terminal {kinds : KindSet} (hedge : t.edge s = .terminal kinds n)
    (h : kinds.contains .eof = true → t.Safe n) : t.Safe s := by
  refine ⟨s, fun m hm => ?_⟩
  cases hm with
  | way hm => rw [hedge] at hm; cases hm
  | start he | next he => cases hedge.symm.trans he
  | eof he hkinds =>
    cases hedge.symm.trans he
    exact h hkinds

theorem safe_call {r : Rule} {level : Nat} (hedge : t.edge s = .call r level n)
    (hstart : t.Safe (t.rule r).start) (hnext : (t.first r).ends = true → t.Safe n) : t.Safe s := by
  refine ⟨s, fun m hm => ?_⟩
  cases hm with
  | way hm => rw [hedge] at hm; cases hm
  | start he =>
    cases hedge.symm.trans he
    exact hstart
  | next he hends =>
    cases hedge.symm.trans he
    exact hnext hends
  | eof he => cases hedge.symm.trans he

/-- After the end of the text a walk comes to an end. -/
def EofSafe (t : Tables) : Prop := ∀ s kinds next, t.edge s = .terminal kinds next →
  kinds.contains .eof = true → t.Safe next

end Tables

namespace Item

section

variable (first : Rule → Look)

mutual

/-- The rules with which an item can begin. -/
def corners : Item → List Rule
  | terminal .. | terminalOf .. => []
  | call _ r _ _ => [r]
  | branch _ alts => cornersAlts alts
  | loop _ body | loopOnce _ body => cornersAll body
  | climb _ ops => cornersOps ops

def cornersAll : List Item → List Rule
  | [] => []
  | i :: is => corners i ++ if (Look.ofItem first i).ends then cornersAll is else []

def cornersAlts : List (List Item) → List Rule
  | [] => []
  | a :: as => cornersAll a ++ cornersAlts as

def cornersOps : List (Nat × List Item) → List Rule
  | [] => []
  | (_, a) :: as => cornersAll a ++ cornersOps as

end

end

variable {t : Tables} {p : Pace}

open Network Tables

/-! ## Where an item begins -/

mutual

/-- The place before an item is safe if the rules with which it can begin are, and the place after it
is in case the item can be empty. -/
theorem safe_site (heof : t.EofSafe) (i : Item) (next : Nat) (shared ends : Bool)
    (hedges : ∀ x ∈ edges next shared i, t.edge x.1 = x.2)
    (hsteady : i.steady t.first p ends = true)
    (hcorners : ∀ r ∈ corners t.first i, t.Safe (t.rule r).start)
    (hnext : (Look.ofItem t.first i).ends = true → t.Safe next) : t.Safe i.site := by
  cases i with
  | terminal s k l =>
    have hedge := hedges _ List.mem_cons_self
    exact safe_terminal hedge (heof _ _ _ hedge)
  | terminalOf s ks l =>
    have hedge := hedges _ List.mem_cons_self
    exact safe_terminal hedge (heof _ _ _ hedge)
  | call s r v l =>
    have hafter := hedges (s + 1, _) (List.mem_cons_of_mem _ List.mem_cons_self)
    refine safe_call (hedges _ List.mem_cons_self) (hcorners r List.mem_cons_self) fun hends => ?_
    split
    · exact hnext hends
    · exact safe_jump hafter (hnext hends)
  | branch s alts =>
    have hmeet := hedges (s + 1, _) (List.mem_cons_of_mem _ List.mem_cons_self)
    simp only [steady, Bool.and_eq_true] at hsteady
    refine safe_fork (hedges _ List.mem_cons_self) fun n hn => ?_
    obtain ⟨a, ha, rfl⟩ := List.mem_map.mp hn
    refine safe_alts heof alts (s + 1) ends (fun x hx => hedges x ?_) hsteady.2 hcorners
      (fun hends => safe_jump hmeet (hnext hends)) a ha
    exact List.mem_cons_of_mem _ (List.mem_cons_of_mem _ hx)
  | loop s body =>
    simp only [steady, Bool.and_eq_true] at hsteady
    refine safe_fork (hedges _ List.mem_cons_self) fun n hn => ?_
    rcases List.mem_cons.mp hn with rfl | hn
    · refine safe_entry heof body (s + 1) true ends (fun x hx => hedges x ?_) hsteady.2 hcorners
        fun hends => ?_
      · exact List.mem_cons_of_mem _ (List.mem_cons_of_mem _ hx)
      · cases hends.symm.trans (begins_iff.mp hsteady.1).1
    · rw [List.mem_singleton.mp hn]
      exact hnext rfl
  | loopOnce s body =>
    simp only [steady, Bool.and_eq_true] at hsteady
    refine safe_jump (hedges _ List.mem_cons_self) ?_
    refine safe_entry heof body (s + 1) true ends (fun x hx => hedges x ?_) hsteady.2 hcorners
      fun hends => ?_
    · exact List.mem_cons_of_mem _ (List.mem_cons_of_mem _ hx)
    · cases hends.symm.trans (begins_iff.mp hsteady.1).1
  | climb s ops =>
    have hwhich := hedges (s + 2, _)
      (List.mem_cons_of_mem _ (List.mem_cons_of_mem _ List.mem_cons_self))
    simp only [steady, Bool.and_eq_true] at hsteady
    refine safe_of_ways (s := s) (by rw [hedges _ List.mem_cons_self]; rfl) fun n hn => ?_
    rw [hedges _ List.mem_cons_self] at hn
    rcases List.mem_cons.mp hn with rfl | hn
    · refine safe_fork hwhich fun n hn => ?_
      obtain ⟨op, hop, rfl⟩ := List.mem_map.mp hn
      refine safe_ops heof ops (s + 1) ends (fun x hx => hedges x ?_) hsteady.2 hcorners op hop
      exact List.mem_cons_of_mem _ (List.mem_cons_of_mem _ (List.mem_cons_of_mem _ hx))
    · rw [List.mem_singleton.mp hn]
      exact hnext rfl

theorem safe_entry (heof : t.EofSafe) (is : List Item) (next : Nat) (shared ends : Bool)
    (hedges : ∀ x ∈ edgesAll next shared is, t.edge x.1 = x.2)
    (hsteady : steadyAll t.first p ends is = true)
    (hcorners : ∀ r ∈ cornersAll t.first is, t.Safe (t.rule r).start)
    (hnext : (Look.ofItems t.first is).ends = true → t.Safe next) : t.Safe (entry next is) := by
  cases is with
  | nil => exact hnext rfl
  | cons i is =>
    obtain ⟨sh, sh', heq⟩ := edgesAll_cons next shared i is
    rw [heq] at hedges
    rw [steadyAll, Bool.and_eq_true] at hsteady
    refine safe_site heof i (entry next is) sh _ (fun x hx => hedges x (List.mem_append_left _ hx))
      hsteady.1 (fun r hr => hcorners r (List.mem_append_left _ hr)) fun hends => ?_
    refine safe_entry heof is next sh' ends (fun x hx => hedges x (List.mem_append_right _ hx))
      hsteady.2 (fun r hr => hcorners r (List.mem_append_right _ ?_)) fun hrest => hnext ?_
    · rw [if_pos hends]
      exact hr
    · rw [Look.ofItems, Look.ends_andThen, hends, hrest]
      rfl

theorem safe_alts (heof : t.EofSafe) (alts : List (List Item)) (next : Nat) (ends : Bool)
    (hedges : ∀ x ∈ edgesAlts next alts, t.edge x.1 = x.2)
    (hsteady : steadyAlts t.first p ends alts = true)
    (hcorners : ∀ r ∈ cornersAlts t.first alts, t.Safe (t.rule r).start)
    (hnext : (Look.ofAlts t.first alts).ends = true → t.Safe next) :
    ∀ a ∈ alts, t.Safe (entry next a) := by
  cases alts with
  | nil => simp
  | cons a alts =>
    simp only [steadyAlts, Bool.and_eq_true] at hsteady
    have hends : (Look.ofItems t.first a).ends = true ∨ (Look.ofAlts t.first alts).ends = true →
        t.Safe next := by
      intro hends
      rw [← Bool.or_eq_true] at hends
      exact hnext hends
    have hfirst := safe_entry heof a next true ends
      (fun x hx => hedges x (List.mem_append_left _ hx)) hsteady.1.2
      (fun r hr => hcorners r (List.mem_append_left _ hr)) fun h => hends (.inl h)
    have hrest := safe_alts heof alts next ends
      (fun x hx => hedges x (List.mem_append_right _ hx)) hsteady.2
      (fun r hr => hcorners r (List.mem_append_right _ hr)) fun h => hends (.inr h)
    exact List.forall_mem_cons.mpr ⟨hfirst, hrest⟩

theorem safe_ops (heof : t.EofSafe) (ops : List (Nat × List Item)) (next : Nat) (ends : Bool)
    (hedges : ∀ x ∈ edgesOps next ops, t.edge x.1 = x.2)
    (hsteady : steadyOps t.first p ends ops = true)
    (hcorners : ∀ r ∈ cornersOps t.first ops, t.Safe (t.rule r).start) :
    ∀ op ∈ ops, t.Safe (guardSite op.2) := by
  cases ops with
  | nil => simp
  | cons o ops =>
    obtain ⟨v, a⟩ := o
    simp only [steadyOps, Bool.and_eq_true] at hsteady
    have hguard := hedges (guardSite a, .guard v (entry next a)) List.mem_cons_self
    have hentry := safe_entry heof a next true ends
      (fun x hx => hedges x (List.mem_append_left _ (List.mem_cons_of_mem _ hx))) hsteady.1.2
      (fun r hr => hcorners r (List.mem_append_left _ hr))
      fun hends => by cases hends.symm.trans (begins_iff.mp hsteady.1.1).1
    have hrest := safe_ops heof ops next ends
      (fun x hx => hedges x (List.mem_append_right _ hx)) hsteady.2
      fun r hr => hcorners r (List.mem_append_right _ hr)
    refine List.forall_mem_cons.mpr ⟨?_, hrest⟩
    refine safe_of_ways (s := guardSite a) (by rw [hguard]; rfl) fun n hn => ?_
    rw [hguard] at hn
    rw [List.mem_singleton.mp hn]
    exact hentry

end

/-! ## Inside of an item -/

mutual

/-- All sites of an item are safe if all rules are and the place after the item is. -/
theorem safe_edges (heof : t.EofSafe) (hall : ∀ r, t.Safe (t.rule r).start) (i : Item)
    (next : Nat) (shared ends : Bool) (hedges : ∀ x ∈ edges next shared i, t.edge x.1 = x.2)
    (hsteady : i.steady t.first p ends = true) (hnext : t.Safe next) :
    ∀ x ∈ edges next shared i, t.Safe x.1 := by
  have hsite : t.Safe i.site :=
    safe_site heof i next shared ends hedges hsteady (fun r _ => hall r) fun _ => hnext
  cases i with
  | terminal s k l =>
    intro x hx
    rw [List.mem_singleton.mp hx]
    exact hsite
  | terminalOf s ks l =>
    intro x hx
    rw [List.mem_singleton.mp hx]
    exact hsite
  | call s r v l =>
    have hafter : t.Safe (s + 1) :=
      safe_jump (hedges (s + 1, _) (List.mem_cons_of_mem _ List.mem_cons_self)) hnext
    simp only [Network.edges, List.forall_mem_cons]
    exact ⟨hsite, hafter, by simp⟩
  | branch s alts =>
    have hmeet : t.Safe (s + 1) :=
      safe_jump (hedges (s + 1, _) (List.mem_cons_of_mem _ List.mem_cons_self)) hnext
    have hin := fun x hx => hedges x (List.mem_cons_of_mem _ (List.mem_cons_of_mem _ hx))
    simp only [steady, Bool.and_eq_true] at hsteady
    simp only [Network.edges, List.forall_mem_cons]
    exact ⟨hsite, hmeet, safe_edgesAlts heof hall alts (s + 1) ends hin hsteady.2 hmeet⟩
  | loop s body =>
    have hagain : t.Safe (s + 1) :=
      safe_jump (hedges (s + 1, _) (List.mem_cons_of_mem _ List.mem_cons_self)) hsite
    have hin := fun x hx => hedges x (List.mem_cons_of_mem _ (List.mem_cons_of_mem _ hx))
    simp only [steady, Bool.and_eq_true] at hsteady
    simp only [Network.edges, List.forall_mem_cons]
    exact ⟨hsite, hagain, safe_edgesAll heof hall body (s + 1) true ends hin hsteady.2 hagain⟩
  | loopOnce s body =>
    have hagain : t.Safe (s + 1) := by
      refine safe_fork (hedges (s + 1, _) (List.mem_cons_of_mem _ List.mem_cons_self)) ?_
      exact List.forall_mem_cons.mpr ⟨hsite, List.forall_mem_singleton.mpr hnext⟩
    have hin := fun x hx => hedges x (List.mem_cons_of_mem _ (List.mem_cons_of_mem _ hx))
    simp only [steady, Bool.and_eq_true] at hsteady
    simp only [Network.edges, List.forall_mem_cons]
    exact ⟨hsite, hagain, safe_edgesAll heof hall body (s + 1) true ends hin hsteady.2 hagain⟩
  | climb s ops =>
    have hagain : t.Safe (s + 1) :=
      safe_jump (hedges (s + 1, _) (List.mem_cons_of_mem _ List.mem_cons_self)) hsite
    have hin := fun x hx => hedges x
      (List.mem_cons_of_mem _ (List.mem_cons_of_mem _ (List.mem_cons_of_mem _ hx)))
    simp only [steady, Bool.and_eq_true] at hsteady
    have hwhich : t.Safe (s + 2) := by
      refine safe_fork (hedges (s + 2, _)
        (List.mem_cons_of_mem _ (List.mem_cons_of_mem _ List.mem_cons_self))) fun n hn => ?_
      obtain ⟨op, hop, rfl⟩ := List.mem_map.mp hn
      exact safe_ops heof ops (s + 1) ends hin hsteady.2 (fun r _ => hall r) op hop
    simp only [Network.edges, List.forall_mem_cons]
    exact ⟨hsite, hagain, hwhich, safe_edgesOps heof hall ops (s + 1) ends hin hsteady.2 hagain⟩

theorem safe_edgesAll (heof : t.EofSafe) (hall : ∀ r, t.Safe (t.rule r).start) (is : List Item)
    (next : Nat) (shared ends : Bool) (hedges : ∀ x ∈ edgesAll next shared is, t.edge x.1 = x.2)
    (hsteady : steadyAll t.first p ends is = true) (hnext : t.Safe next) :
    ∀ x ∈ edgesAll next shared is, t.Safe x.1 := by
  cases is with
  | nil => simp [edgesAll]
  | cons i is =>
    obtain ⟨sh, sh', heq⟩ := edgesAll_cons next shared i is
    rw [heq] at hedges ⊢
    rw [steadyAll, Bool.and_eq_true] at hsteady
    have hright := fun x hx => hedges x (List.mem_append_right _ hx)
    have hentry := safe_entry heof is next sh' ends hright hsteady.2 (fun r _ => hall r)
      fun _ => hnext
    exact List.forall_mem_append.mpr
      ⟨safe_edges heof hall i (entry next is) sh _ (fun x hx => hedges x (List.mem_append_left _ hx))
        hsteady.1 hentry, safe_edgesAll heof hall is next sh' ends hright hsteady.2 hnext⟩

theorem safe_edgesAlts (heof : t.EofSafe) (hall : ∀ r, t.Safe (t.rule r).start)
    (alts : List (List Item)) (next : Nat) (ends : Bool)
    (hedges : ∀ x ∈ edgesAlts next alts, t.edge x.1 = x.2)
    (hsteady : steadyAlts t.first p ends alts = true) (hnext : t.Safe next) :
    ∀ x ∈ edgesAlts next alts, t.Safe x.1 := by
  cases alts with
  | nil => simp [edgesAlts]
  | cons a alts =>
    simp only [steadyAlts, Bool.and_eq_true] at hsteady
    exact List.forall_mem_append.mpr
      ⟨safe_edgesAll heof hall a next true ends (fun x hx => hedges x (List.mem_append_left _ hx))
        hsteady.1.2 hnext, safe_edgesAlts heof hall alts next ends
          (fun x hx => hedges x (List.mem_append_right _ hx)) hsteady.2 hnext⟩

theorem safe_edgesOps (heof : t.EofSafe) (hall : ∀ r, t.Safe (t.rule r).start)
    (ops : List (Nat × List Item)) (next : Nat) (ends : Bool)
    (hedges : ∀ x ∈ edgesOps next ops, t.edge x.1 = x.2)
    (hsteady : steadyOps t.first p ends ops = true) (hnext : t.Safe next) :
    ∀ x ∈ edgesOps next ops, t.Safe x.1 := by
  cases ops with
  | nil => simp [edgesOps]
  | cons o ops =>
    obtain ⟨v, a⟩ := o
    have hguard := safe_ops heof ((v, a) :: ops) next ends hedges hsteady (fun r _ => hall r)
      (v, a) List.mem_cons_self
    simp only [steadyOps, Bool.and_eq_true] at hsteady
    refine List.forall_mem_append.mpr ⟨List.forall_mem_cons.mpr ⟨hguard, ?_⟩, ?_⟩
    · exact safe_edgesAll heof hall a next true ends
        (fun x hx => hedges x (List.mem_append_left _ (List.mem_cons_of_mem _ hx))) hsteady.1.2 hnext
    · exact safe_edgesOps heof hall ops next ends
        (fun x hx => hedges x (List.mem_append_right _ hx)) hsteady.2 hnext

end

end Item

/-- Whether the edge leads straight to a site. -/
def Edge.jumpsTo (site : Nat) : Edge → Bool
  | .jump next => next == site
  | _ => false

/-- The end of the text is read only right before one of the sites, and a rule that begins with it is
not called. -/
def Edge.closes (first : Rule → Look) (sites : List Nat) : Edge → Bool
  | .terminal kinds next => !kinds.contains .eof || sites.contains next
  | .call r _ _ => !(first r).kinds.contains .eof
  | _ => true

/-- The sites of a rule from which it is left at once. -/
def Numbered.exits (r : Rule) (n : Numbered) : List Nat :=
  n.stop :: ((Network.edgesRule r n).filter fun x => x.2.jumpsTo n.stop).map Prod.fst

/-- A rule begins only with rules that come down to a token sooner, and reads the end of the text
last. -/
def Pace.grounds (p : Pace) (first : Rule → Look) (r : Rule × Numbered) : Bool :=
  (Item.cornersAll first r.2.items).all (fun r' => decide (p.descent r' < p.descent r.1)) &&
    let exits := r.2.exits r.1
    (Network.edgesRule r.1 r.2).all fun x => x.2.closes first exits

namespace Tables

open Network

/-- The network cannot be followed for ever without a token. -/
structure Grounds (t : Tables) : Prop where
  sound : ∀ s, (t.edge s).Sound t s
  safe : ∀ s, t.Safe s
  /-- The end of the text does not begin a rule that is called. -/
  calls : ∀ s r level next, t.edge s = .call r level next →
    (t.first r).kinds.contains .eof = false

variable {g : Grammar} {p : Pace}

/-- A site has the edge that the grammar gives it. -/
theorem edge_of_mem (hg : ∀ r, Item.Proper (g r)) {r : Rule} {s : Nat} {e : Edge}
    (h : (r, s, e) ∈ edgesOf (numbering g)) : (ofGrammar g).edge s = e := by
  obtain ⟨_, hnodup, hbound⟩ := between_edgesOf hg Rule.all 0
  have hsize := (hbound s (List.mem_map.mpr ⟨_, h, rfl⟩)).2
  have hmem : (s, e) ∈ (edgesOf (numbering g)).map Prod.snd := List.mem_map.mpr ⟨_, h, rfl⟩
  have hentry : (ofGrammar g).edges[s]? = some e :=
    tabulate_of_mem (by rw [List.map_map]; exact hnodup) hsize hmem
  rw [edge, Array.getD_eq_getD_getElem?, hentry, Option.getD_some]

theorem edge_rule (hg : ∀ r, Item.Proper (g r)) (r : Rule) :
    ∀ x ∈ edgesRule r ((ofGrammar g).rule r), (ofGrammar g).edge x.1 = x.2 := by
  intro x hx
  refine edge_of_mem hg (r := r) (List.mem_flatMap.mpr ⟨_, mem_numbering g r, ?_⟩)
  exact List.mem_map.mpr ⟨x, hx, rfl⟩

theorem edge_start (hg : ∀ r, Item.Proper (g r)) (r : Rule) :
    (ofGrammar g).edge ((ofGrammar g).rule r).start =
      .jump (Item.entry ((ofGrammar g).rule r).stop ((ofGrammar g).rule r).items) :=
  edge_rule hg r (_, _) List.mem_cons_self

theorem edge_stop (hg : ∀ r, Item.Proper (g r)) (r : Rule) :
    (ofGrammar g).edge ((ofGrammar g).rule r).stop = .stop r :=
  edge_rule hg r (_, _) (List.mem_cons_of_mem _ List.mem_cons_self)

theorem edge_items (hg : ∀ r, Item.Proper (g r)) (r : Rule) :
    ∀ x ∈ edgesAll ((ofGrammar g).rule r).stop false ((ofGrammar g).rule r).items,
      (ofGrammar g).edge x.1 = x.2 :=
  fun x hx => edge_rule hg r x (List.mem_cons_of_mem _ (List.mem_cons_of_mem _ hx))

theorem eq_rule_of_mem {r : Rule} {n : Numbered} (h : (r, n) ∈ numbering g) :
    n = (ofGrammar g).rule r := by
  obtain ⟨i, hi⟩ := List.getElem?_of_mem h
  obtain ⟨j, hj⟩ := List.getElem?_of_mem (mem_numbering g r)
  rw [numbering, List.getElem?_zip_eq_some] at hi hj
  have hindex : Rule.all.map Rule.ctorIdx = List.range Rule.all.length := by decide +kernel
  have hnodup : Rule.all.Nodup := .of_map Rule.ctorIdx (hindex ▸ List.nodup_range)
  have hij : i = j := (List.getElem?_inj (List.getElem?_eq_some_iff.mp hi.1).1 hnodup).mp
    (hi.1.trans hj.1.symm)
  subst hij
  exact Option.some.inj (hi.2.symm.trans hj.2)

/-- Every site that leads anywhere is one of a rule. -/
theorem edge_cases (g : Grammar) (s : Nat) : (ofGrammar g).edge s = .fork [] ∨
    ∃ r, (s, (ofGrammar g).edge s) ∈ edgesRule r ((ofGrammar g).rule r) := by
  generalize hedge : (ofGrammar g).edge s = e
  refine (mem_of_tabulate hedge).imp_right fun hmem => ?_
  obtain ⟨⟨r, x⟩, hx, rfl⟩ := List.mem_map.mp hmem
  obtain ⟨⟨r', n⟩, hr, hin⟩ := List.mem_flatMap.mp hx
  obtain ⟨y, hy, heq⟩ := List.mem_map.mp hin
  cases heq
  exact ⟨r, eq_rule_of_mem hr ▸ hy⟩

theorem safe_stop_rule (hg : ∀ r, Item.Proper (g r)) (r : Rule) :
    (ofGrammar g).Safe ((ofGrammar g).rule r).stop :=
  safe_stop (edge_stop hg r)

theorem safe_start (hg : ∀ r, Item.Proper (g r)) (hpaced : (ofGrammar g).Paced p)
    (heof : (ofGrammar g).EofSafe) (hranks : ∀ r r', r' ∈ Item.cornersAll (ofGrammar g).first
      ((ofGrammar g).rule r).items → p.descent r' < p.descent r) (r : Rule) :
    (ofGrammar g).Safe ((ofGrammar g).rule r).start := by
  induction hrank : p.descent r using Nat.strongRecOn generalizing r with
  | ind rank ih =>
    refine safe_jump (edge_start hg r) (Item.safe_entry heof _ _ false true (edge_items hg r)
      (hpaced.rules r).steady ?_ fun _ => safe_stop_rule hg r)
    exact fun r' hr' => ih _ (hrank ▸ hranks r r' hr') r' rfl

theorem safe_exits (hg : ∀ r, Item.Proper (g r)) (r : Rule) :
    ∀ s ∈ ((ofGrammar g).rule r).exits r, (ofGrammar g).Safe s := by
  have hstop := safe_stop_rule hg r
  refine List.forall_mem_cons.mpr ⟨hstop, fun s hs => ?_⟩
  obtain ⟨⟨s, e⟩, hx, rfl⟩ := List.mem_map.mp hs
  obtain ⟨hx, hjump⟩ := List.mem_filter.mp hx
  cases e with
  | jump n =>
    rw [Edge.jumpsTo, beq_iff_eq] at hjump
    exact safe_jump (edge_rule hg r _ hx) (hjump ▸ hstop)
  | _ => cases hjump

/-- A walk comes to an end if each rule begins only with rules that come down to a token sooner, and
reads the end of the text last. -/
theorem grounds_ofGrammar (hg : ∀ r, Item.Proper (g r)) (hpaced : (ofGrammar g).Paced p)
    (hgrounds : (numbering g).all (p.grounds (ofGrammar g).first) = true) :
    (ofGrammar g).Grounds := by
  have hrule := fun r => List.all_eq_true.mp hgrounds _ (mem_numbering g r)
  simp only [Pace.grounds, Bool.and_eq_true, List.all_eq_true, decide_eq_true_eq] at hrule
  have heof : (ofGrammar g).EofSafe := by
    intro s kinds next he hkinds
    rcases edge_cases g s with hnone | ⟨r, hmem⟩
    · cases he.symm.trans hnone
    · rw [he] at hmem
      have hlast := (hrule r).2 _ hmem
      rw [Edge.closes, hkinds, Bool.not_true, Bool.false_or, List.contains_iff_mem] at hlast
      exact safe_exits hg r next hlast
  have hstart := safe_start hg hpaced heof fun r => (hrule r).1
  refine ⟨hpaced.sound, fun s => ?_, fun s r level next he => ?_⟩
  · rcases edge_cases g s with hnone | ⟨r, hmem⟩
    · exact safe_fork hnone fun n hn => absurd hn List.not_mem_nil
    · simp only [edgesRule, List.mem_cons] at hmem
      rcases hmem with hmem | hmem | hmem
      · rw [(Prod.mk.inj hmem).1]
        exact hstart r
      · rw [(Prod.mk.inj hmem).1]
        exact safe_stop_rule hg r
      · exact Item.safe_edgesAll heof hstart _ _ false true
          (edge_items hg r) (hpaced.rules r).steady (safe_stop_rule hg r) _ hmem
  · rcases edge_cases g s with hnone | ⟨r', hmem⟩
    · cases he.symm.trans hnone
    · rw [he] at hmem
      have hcall := (hrule r').2 _ hmem
      rwa [Edge.closes, Bool.not_eq_true'] at hcall

end Tables

end Callscope
