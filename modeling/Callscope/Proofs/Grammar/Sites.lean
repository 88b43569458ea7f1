import Mathlib.Data.List.Nodup
import Callscope.Grammar.Table
import Callscope.Proofs.Grammar.Form

/-!
# Sites and their decisions

Numbering gives every place of a grammar a number of its own, so the table of decisions has at the site
of a choice the decision among its alternatives and no other. `Wired` says this of an item and of all
items inside of it.
-/

namespace Callscope

/-- Different numbers from `n` on and below `m`. -/
def Between (n m : Nat) (sites : List Nat) : Prop :=
  sites.Nodup ∧ ∀ s ∈ sites, n ≤ s ∧ s < m

namespace Between

variable {n m k s : Nat} {as bs : List Nat}

theorem nil : Between n m [] := ⟨List.nodup_nil, by simp⟩

theorem cons (hs : n ≤ s ∧ s < m) (h : Between (s + 1) m as) : Between n m (s :: as) := by
  refine ⟨List.nodup_cons.mpr ⟨fun hmem => ?_, h.1⟩, fun a ha => ?_⟩
  · have hlt := (h.2 s hmem).1
    omega
  · rcases List.mem_cons.mp ha with rfl | ha
    · exact hs
    · have hbetween := h.2 a ha
      omega

theorem append (hnm : n ≤ m) (hmk : m ≤ k) (ha : Between n m as) (hb : Between m k bs) :
    Between n k (as ++ bs) := by
  refine ⟨List.nodup_append.mpr ⟨ha.1, hb.1, fun a hmem b hmem' hab => ?_⟩, fun s hs => ?_⟩
  · have hlt := (ha.2 a hmem).2
    have hle := (hb.2 b hmem').1
    omega
  · rcases List.mem_append.mp hs with hs | hs
    · have hbetween := ha.2 s hs
      omega
    · have hbetween := hb.2 s hs
      omega

theorem mono (h : Between n m as) (hkn : k ≤ n) : Between k m as :=
  ⟨h.1, fun s hs => ⟨Nat.le_trans hkn (h.2 s hs).1, (h.2 s hs).2⟩⟩

end Between

namespace Item

theorem site_number (n : Nat) (i : Item) : (number n i).1.site = n := by
  cases i <;> rfl

mutual

theorem le_number (n : Nat) (i : Item) : n + 2 ≤ (number n i).2 := by
  cases i with
  | terminal | terminalOf | call => simp only [number]; omega
  | branch s alts =>
    have h := le_numberAlts (n + 2) alts
    simp only [number]
    omega
  | loop s body =>
    have h := le_numberAll (n + 2) body
    simp only [number]
    omega
  | loopOnce s body =>
    have h := le_numberAll (n + 2) body
    simp only [number]
    omega
  | climb s ops =>
    have h := le_numberOps (n + 4) ops
    simp only [number]
    omega

theorem le_numberAll (n : Nat) (is : List Item) : n ≤ (numberAll n is).2 := by
  cases is with
  | nil => exact Nat.le_refl n
  | cons i is =>
    have hi := le_number n i
    have his := le_numberAll (number n i).2 is
    simp only [numberAll]
    omega

theorem le_numberAlts (n : Nat) (as : List (List Item)) : n ≤ (numberAlts n as).2 := by
  cases as with
  | nil => exact Nat.le_refl n
  | cons a as =>
    have ha := le_numberAll n a
    have has := le_numberAlts (numberAll n a).2 as
    simp only [numberAlts]
    omega

theorem le_numberOps (n : Nat) (ops : List (Nat × List Item)) : n ≤ (numberOps n ops).2 := by
  cases ops with
  | nil => exact Nat.le_refl n
  | cons op ops =>
    have hop := le_numberAll (n + 2) op.2
    have hops := le_numberOps (numberAll (n + 2) op.2).2 ops
    simp only [numberOps]
    omega

end

end Item

namespace Network

open Item

/-! ## Every site has one edge -/

theorem between_edgesAll_cons {n : Nat} {i : Item} {is : List Item}
    (hi : ∀ next shared,
      Between n (number n i).2 ((edges next shared (number n i).1).map Prod.fst))
    (his : ∀ next shared, Between (number n i).2 (numberAll (number n i).2 is).2
      ((edgesAll next shared (numberAll (number n i).2 is).1).map Prod.fst))
    (next : Nat) (shared : Bool) :
    Between n (numberAll n (i :: is)).2
      ((edgesAll next shared (numberAll n (i :: is)).1).map Prod.fst) := by
  cases is with
  | nil => exact hi next shared
  | cons j is =>
    have hle := le_number n i
    have hles := le_numberAll (number n i).2 (j :: is)
    have htail := his next (shared && passable (number n i).1)
    simp only [numberAll, edgesAll, List.map_append] at hles htail ⊢
    exact (hi _ true).append (by omega) hles htail

mutual

/-- The edges of a numbered item leave different sites, all of them in its range. -/
theorem between_edges (n : Nat) (i : Item) (hp : plain i = true) (next : Nat) (shared : Bool) :
    Between n (number n i).2 ((edges next shared (number n i).1).map Prod.fst) := by
  cases i with
  | terminal s k l => exact .cons ⟨Nat.le_refl n, by simp only [number]; omega⟩ .nil
  | terminalOf s ks l => exact .cons ⟨Nat.le_refl n, by simp only [number]; omega⟩ .nil
  | call s r v l =>
    refine .cons ⟨Nat.le_refl n, by simp only [number]; omega⟩ ?_
    exact .cons ⟨Nat.le_refl _, by simp only [number]; omega⟩ .nil
  | branch s alts =>
    simp only [plain, Bool.and_eq_true] at hp
    have hle := le_numberAlts (n + 2) alts
    have hin := between_edgesAlts (n + 2) alts hp.2 (n + 1)
    simp only [number, edges, List.map_cons]
    refine .cons (by omega) (.cons (by omega) hin)
  | loop s body =>
    simp only [plain] at hp
    have hle := le_numberAll (n + 2) body
    have hin := between_edgesAll (n + 2) body hp (n + 1) true
    simp only [number, edges, List.map_cons]
    refine .cons (by omega) (.cons (by omega) hin)
  | loopOnce s body =>
    simp only [plain] at hp
    have hle := le_numberAll (n + 2) body
    have hin := between_edgesAll (n + 2) body hp (n + 1) true
    simp only [number, edges, List.map_cons]
    refine .cons (by omega) (.cons (by omega) hin)
  | climb s ops => simp [plain] at hp

theorem between_edgesAll (n : Nat) (is : List Item) (hp : plainAll is = true) (next : Nat)
    (shared : Bool) :
    Between n (numberAll n is).2 ((edgesAll next shared (numberAll n is).1).map Prod.fst) := by
  cases is with
  | nil => exact .nil
  | cons i is =>
    simp only [plainAll, Bool.and_eq_true] at hp
    exact between_edgesAll_cons (between_edges n i hp.1)
      (between_edgesAll (number n i).2 is hp.2) next shared

theorem between_edgesAlts (n : Nat) (as : List (List Item)) (hp : plainAlts as = true)
    (next : Nat) :
    Between n (numberAlts n as).2 ((edgesAlts next (numberAlts n as).1).map Prod.fst) := by
  cases as with
  | nil => exact .nil
  | cons a as =>
    simp only [plainAlts, Bool.and_eq_true] at hp
    have hle := le_numberAll n a
    have hles := le_numberAlts (numberAll n a).2 as
    have hhead := between_edgesAll n a hp.1 next true
    have htail := between_edgesAlts (numberAll n a).2 as hp.2 next
    simp only [numberAlts, edgesAlts, List.map_append]
    exact hhead.append hle hles htail

end

theorem between_edgesOps (n : Nat) (ops : List (Nat × List Item))
    (hp : ∀ op ∈ ops, op.2 ≠ [] ∧ plainAll op.2 = true) (next : Nat) :
    Between n (numberOps n ops).2 ((edgesOps next (numberOps n ops).1).map Prod.fst) := by
  induction ops generalizing n with
  | nil => exact .nil
  | cons op ops ih =>
    obtain ⟨v, items⟩ := op
    obtain ⟨hne, hplain⟩ := hp (v, items) List.mem_cons_self
    have hle := le_numberAll (n + 2) items
    have hles := le_numberOps (numberAll (n + 2) items).2 ops
    -- The place of the test is the number that the operator begins with.
    have hguard : guardSite (numberAll (n + 2) items).1 = n := by
      obtain ⟨i, is, rfl⟩ := List.exists_cons_of_ne_nil hne
      simp only [numberAll, guardSite, entry, site_number]
      omega
    simp only [numberOps, edgesOps, hguard, List.map_cons, List.map_append, List.cons_append]
    have hin := (between_edgesAll (n + 2) items hplain next true).mono (Nat.le_succ (n + 1))
    have hrest := ih (numberAll (n + 2) items).2 fun o ho => hp o (List.mem_cons_of_mem _ ho)
    exact .cons (by omega) (hin.append (by omega) hles hrest)

theorem between_climb (n s : Nat) {ops : List (Nat × List Item)} (hp : plainOps ops = true)
    (next : Nat) (shared : Bool) :
    Between n (number n (.climb s ops)).2
      ((edges next shared (number n (.climb s ops)).1).map Prod.fst) := by
  have hle := le_numberOps (n + 4) ops
  have hops := between_edgesOps (n + 4) ops (plainOps_iff.mp hp).2 (n + 1)
  simp only [number, edges, List.map_cons]
  exact .cons (by omega) (.cons (by omega) (.cons (by omega) (hops.mono (by omega))))

theorem between_edgesAll_of_proper {is : List Item} (hp : Proper is) (n next : Nat)
    (shared : Bool) :
    Between n (numberAll n is).2 ((edgesAll next shared (numberAll n is).1).map Prod.fst) := by
  rcases hp with hp | ⟨init, s, ops, rfl, hinit, hops⟩
  · exact between_edgesAll n is hp next shared
  · induction init generalizing n next shared with
    | nil => exact between_climb n s hops next shared
    | cons i init ih =>
      simp only [plainAll, Bool.and_eq_true] at hinit
      exact between_edgesAll_cons (between_edges n i hinit.1)
        (fun next shared => ih _ next shared hinit.2) next shared

/-- What a table holds is the default or was entered. -/
theorem mem_of_tabulate {α : Type} {size i : Nat} {dflt v : α} {entries : List (Nat × α)}
    (h : (tabulate size dflt entries).getD i dflt = v) : v = dflt ∨ (i, v) ∈ entries := by
  subst h
  rw [tabulate]
  refine List.foldlRecOn (motive := fun (table : Array α) =>
    table.getD i dflt = dflt ∨ (i, table.getD i dflt) ∈ entries) entries _ ?_ ?_
  · refine Or.inl ?_
    rw [Array.getD_eq_getD_getElem?, Array.getElem?_replicate]
    split <;> rfl
  · intro table htable e he
    rw [Array.getD_eq_getD_getElem?, Array.getElem?_setIfInBounds]
    split
    · rename_i hi
      split
      · exact Or.inr (by rw [← hi]; exact he)
      · exact Or.inl rfl
    · rw [← Array.getD_eq_getD_getElem?]
      exact htable

end Network

namespace Tables

open Item

variable {g : Grammar}

/-- The rules of a grammar with their numbers. -/
def numbering (g : Grammar) : List (Rule × Numbered) :=
  Rule.all.zip (g.numberRules 0 Rule.all).1

theorem between_edgesOf (hg : ∀ r, Proper (g r)) (rs : List Rule) (n : Nat) :
    n ≤ (g.numberRules n rs).2 ∧ Between n (g.numberRules n rs).2
      ((edgesOf (rs.zip (g.numberRules n rs).1)).map fun e => e.2.1) := by
  induction rs generalizing n with
  | nil => exact ⟨Nat.le_refl n, .nil⟩
  | cons r rs ih =>
    have hle := le_numberAll (n + 2) (g r)
    obtain ⟨hles, hrest⟩ := ih (numberAll (n + 2) (g r)).2
    have hitems := Network.between_edgesAll_of_proper (hg r) (n + 2) (n + 1) false
    simp only [Grammar.numberRules]
    refine ⟨by omega, ?_⟩
    have hrule : Between n (numberAll (n + 2) (g r)).2
        ((Network.edgesRule r ⟨n, (numberAll (n + 2) (g r)).1⟩).map Prod.fst) := by
      simp only [Network.edgesRule, List.map_cons]
      exact .cons (by omega) (.cons (by simp only [Numbered.stop]; omega) hitems)
    simp only [List.zip_cons_cons, edgesOf, List.flatMap_cons, List.map_append, List.map_map]
    exact hrule.append (by omega) hles hrest

/-- No two edges of a grammar leave the same site. -/
theorem edge_unique (hg : ∀ r, Proper (g r)) {r r' : Rule} {s : Nat} {e e' : Edge}
    (h : (r, s, e) ∈ edgesOf (numbering g)) (h' : (r', s, e') ∈ edgesOf (numbering g)) :
    e = e' := by
  have hnodup := (between_edgesOf hg Rule.all 0).2.1
  have heq := List.inj_on_of_nodup_map hnodup h h' rfl
  cases heq
  rfl

theorem edge_of_decision {s : Nat} {d : Decision} (h : (ofGrammar g).decision? s = some d) :
    ∃ r e looks follow, (r, s, e) ∈ edgesOf (numbering g) ∧
      decisionOf looks follow r e = some d := by
  rcases Network.mem_of_tabulate h with hnone | hmem
  · cases hnone
  · obtain ⟨⟨r, s', e⟩, hedge, heq⟩ := List.mem_map.mp hmem
    obtain ⟨hs, hdecision⟩ := Prod.mk.inj heq
    exact ⟨r, e, _, _, hs ▸ hedge, hdecision⟩

theorem decisionOf_fork {looks : Array Look} {follow : Rule → Look} {r : Rule}
    {nexts : List Nat} {d : Decision} (h : decisionOf looks follow r (.fork nexts) = some d) :
    d.nexts.length = nexts.length ∧ d.heads.length = nexts.length := by
  unfold decisionOf at h
  split at h
  · cases h
  · rename_i hfork
    cases hfork
    cases h
    simp
  · rename_i hfork
    cases hfork
  · cases h

/-- The decision at a site, if there is one, is among `k` choices. -/
def Offers (t : Tables) (s k : Nat) : Prop :=
  ∀ d, t.decision? s = some d → d.nexts.length = k ∧ d.heads.length = k

theorem offers_fork (hg : ∀ r, Proper (g r)) {r : Rule} {s : Nat} {nexts : List Nat}
    (h : (r, s, .fork nexts) ∈ edgesOf (numbering g)) :
    (ofGrammar g).Offers s nexts.length := by
  intro d hd
  obtain ⟨r', e, looks, follow, hmem, hdecision⟩ := edge_of_decision hd
  cases edge_unique hg h hmem
  exact decisionOf_fork hdecision

end Tables

namespace Item

mutual

/-- The decision at each choice is among its alternatives. -/
def Wired (t : Tables) : Item → Prop
  | terminal .. | terminalOf .. | call .. => True
  | branch s alts => alts ≠ [] ∧ t.Offers s alts.length ∧ WiredAlts t alts
  | loop _ body | loopOnce _ body => WiredAll t body
  | climb s ops => ops ≠ [] ∧ t.Offers (s + 2) ops.length ∧ WiredOps t ops

def WiredAll (t : Tables) : List Item → Prop
  | [] => True
  | i :: is => Wired t i ∧ WiredAll t is

def WiredAlts (t : Tables) : List (List Item) → Prop
  | [] => True
  | a :: as => WiredAll t a ∧ WiredAlts t as

def WiredOps (t : Tables) : List (Nat × List Item) → Prop
  | [] => True
  | (_, a) :: as => WiredAll t a ∧ WiredOps t as

end

variable {t : Tables}

theorem wiredAll_append {is js : List Item} :
    WiredAll t (is ++ js) ↔ WiredAll t is ∧ WiredAll t js := by
  induction is with
  | nil => simp [WiredAll]
  | cons i is ih => simp [WiredAll, ih, and_assoc]

theorem WiredAlts.mem {alts : List (List Item)} (h : WiredAlts t alts) {a : List Item}
    (ha : a ∈ alts) : WiredAll t a := by
  induction alts with
  | nil => cases ha
  | cons b as ih =>
    rw [WiredAlts] at h
    rcases List.mem_cons.mp ha with rfl | ha
    · exact h.1
    · exact ih h.2 ha

theorem WiredOps.mem {ops : List (Nat × List Item)} (h : WiredOps t ops) {op : Nat × List Item}
    (hop : op ∈ ops) : WiredAll t op.2 := by
  induction ops with
  | nil => cases hop
  | cons o ops ih =>
    obtain ⟨v, items⟩ := o
    rw [WiredOps] at h
    rcases List.mem_cons.mp hop with rfl | hop
    · exact h.1
    · exact ih h.2 hop

open Network

theorem wiredAll_cons_of_edges {i : Item} {is : List Item} {next : Nat} {shared : Bool}
    (hi : ∀ next shared, (∀ s nexts, (s, .fork nexts) ∈ edges next shared i →
      t.Offers s nexts.length) → Wired t i)
    (his : ∀ next shared, (∀ s nexts, (s, .fork nexts) ∈ edgesAll next shared is →
      t.Offers s nexts.length) → WiredAll t is)
    (h : ∀ s nexts, (s, .fork nexts) ∈ edgesAll next shared (i :: is) →
      t.Offers s nexts.length) : WiredAll t (i :: is) := by
  rw [WiredAll]
  cases is with
  | nil => exact ⟨hi next shared h, trivial⟩
  | cons j is =>
    simp only [edgesAll, List.mem_append] at h
    exact ⟨hi _ _ fun s nexts hmem => h s nexts (.inl hmem),
      his _ _ fun s nexts hmem => h s nexts (.inr hmem)⟩

mutual

theorem wired_of_edges (i : Item) (hp : plain i = true) (next : Nat) (shared : Bool)
    (h : ∀ s nexts, (s, .fork nexts) ∈ edges next shared i → t.Offers s nexts.length) :
    Wired t i := by
  cases i with
  | terminal | terminalOf | call => rw [Wired]; trivial
  | branch s alts =>
    simp only [plain, Bool.and_eq_true, Bool.not_eq_true', List.isEmpty_eq_false_iff] at hp
    simp only [edges, List.mem_cons] at h
    rw [Wired]
    refine ⟨hp.1, ?_, wiredAlts_of_edges alts hp.2 (s + 1) fun s' nexts hmem =>
      h s' nexts (.inr (.inr hmem))⟩
    have hoffers := h s _ (.inl rfl)
    rwa [List.length_map] at hoffers
  | loop s body =>
    simp only [plain] at hp
    simp only [edges, List.mem_cons] at h
    rw [Wired]
    exact wiredAll_of_edges body hp (s + 1) true fun s' nexts hmem =>
      h s' nexts (.inr (.inr hmem))
  | loopOnce s body =>
    simp only [plain] at hp
    simp only [edges, List.mem_cons] at h
    rw [Wired]
    exact wiredAll_of_edges body hp (s + 1) true fun s' nexts hmem =>
      h s' nexts (.inr (.inr hmem))
  | climb s ops => simp [plain] at hp

theorem wiredAll_of_edges (is : List Item) (hp : plainAll is = true) (next : Nat) (shared : Bool)
    (h : ∀ s nexts, (s, .fork nexts) ∈ edgesAll next shared is → t.Offers s nexts.length) :
    WiredAll t is := by
  cases is with
  | nil => rw [WiredAll]; trivial
  | cons i is =>
    simp only [plainAll, Bool.and_eq_true] at hp
    exact wiredAll_cons_of_edges (wired_of_edges i hp.1) (wiredAll_of_edges is hp.2) h

theorem wiredAlts_of_edges (as : List (List Item)) (hp : plainAlts as = true) (next : Nat)
    (h : ∀ s nexts, (s, .fork nexts) ∈ edgesAlts next as → t.Offers s nexts.length) :
    WiredAlts t as := by
  cases as with
  | nil => rw [WiredAlts]; trivial
  | cons a as =>
    simp only [plainAlts, Bool.and_eq_true] at hp
    simp only [edgesAlts, List.mem_append] at h
    rw [WiredAlts]
    exact ⟨wiredAll_of_edges a hp.1 next true fun s nexts hmem => h s nexts (.inl hmem),
      wiredAlts_of_edges as hp.2 next fun s nexts hmem => h s nexts (.inr hmem)⟩

end

theorem wiredOps_of_edges {ops : List (Nat × List Item)} {next : Nat}
    (hp : ∀ op ∈ ops, op.2 ≠ [] ∧ plainAll op.2 = true)
    (h : ∀ s nexts, (s, .fork nexts) ∈ edgesOps next ops → t.Offers s nexts.length) :
    WiredOps t ops := by
  induction ops with
  | nil => rw [WiredOps]; trivial
  | cons op ops ih =>
    obtain ⟨v, items⟩ := op
    simp only [edgesOps, List.cons_append, List.mem_cons, List.mem_append] at h
    rw [WiredOps]
    refine ⟨wiredAll_of_edges items (hp _ List.mem_cons_self).2 next true fun s nexts hmem =>
      h s nexts (.inr (.inl hmem)), ?_⟩
    exact ih (fun o ho => hp o (List.mem_cons_of_mem _ ho)) fun s nexts hmem =>
      h s nexts (.inr (.inr hmem))

theorem wired_climb {s next : Nat} {shared : Bool} {ops : List (Nat × List Item)}
    (hp : plainOps ops = true)
    (h : ∀ s' nexts, (s', .fork nexts) ∈ edges next shared (.climb s ops) →
      t.Offers s' nexts.length) : Wired t (.climb s ops) := by
  obtain ⟨hne, hops⟩ := plainOps_iff.mp hp
  simp only [edges, List.mem_cons] at h
  rw [Wired]
  refine ⟨hne, ?_, wiredOps_of_edges hops fun s' nexts hmem =>
    h s' nexts (.inr (.inr (.inr hmem)))⟩
  have hoffers := h (s + 2) _ (.inr (.inr (.inl rfl)))
  rwa [List.length_map] at hoffers

theorem wiredAll_of_proper {is : List Item} (hp : Proper is) (next : Nat) (shared : Bool)
    (h : ∀ s nexts, (s, .fork nexts) ∈ edgesAll next shared is → t.Offers s nexts.length) :
    WiredAll t is := by
  rcases hp with hp | ⟨init, s, ops, rfl, hinit, hops⟩
  · exact wiredAll_of_edges is hp next shared h
  · induction init generalizing next shared with
    | nil =>
      rw [List.nil_append, WiredAll]
      exact ⟨wired_climb hops h, by rw [WiredAll]; trivial⟩
    | cons i init ih =>
      simp only [plainAll, Bool.and_eq_true] at hinit
      exact wiredAll_cons_of_edges (wired_of_edges i hinit.1)
        (fun next shared h => ih next shared h hinit.2) h

end Item

namespace Tables

open Item

variable {g : Grammar}

theorem numberRules_getElem? {rs : List Rule} {k : Nat} {r : Rule} (n : Nat)
    (h : rs[k]? = some r) :
    ∃ m, (g.numberRules n rs).1[k]? = some ⟨m, (numberAll (m + 2) (g r)).1⟩ := by
  induction rs generalizing n k with
  | nil => cases h
  | cons r' rs ih =>
    simp only [Grammar.numberRules]
    cases k with
    | zero =>
      cases h
      exact ⟨n, rfl⟩
    | succ k => exact ih _ h

theorem all_ctorIdx (r : Rule) : Rule.all[r.ctorIdx]? = some r := by
  cases r <;> rfl

/-- A rule of the tables is the right-hand side of the grammar with numbers, and its decisions are
those of its choices. -/
theorem rule_ofGrammar (hg : ∀ r, Proper (g r)) (r : Rule) : ∃ n,
    ((ofGrammar g).rule r).items = (numberAll n (g r)).1 ∧
      WiredAll (ofGrammar g) (numberAll n (g r)).1 := by
  obtain ⟨m, hm⟩ := numberRules_getElem? (g := g) 0 (all_ctorIdx r)
  refine ⟨m + 2, ?_, wiredAll_of_proper (proper_numberAll (hg r)) (m + 1) false ?_⟩
  · rw [rule, Array.getD_eq_getD_getElem?]
    simp only [ofGrammar, List.getElem?_toArray, hm, Option.getD_some]
  · intro s nexts hmem
    refine offers_fork hg (r := r)
      (List.mem_flatMap.mpr ⟨(r, ⟨m, (numberAll (m + 2) (g r)).1⟩), ?_, ?_⟩)
    · refine List.mem_of_getElem? (i := r.ctorIdx) ?_
      rw [numbering, List.getElem?_zip_eq_some]
      exact ⟨all_ctorIdx r, hm⟩
    · refine List.mem_map.mpr ⟨(s, .fork nexts), ?_, rfl⟩
      exact List.mem_cons_of_mem _ (List.mem_cons_of_mem _ hmem)

end Tables

end Callscope
