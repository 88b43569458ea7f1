import Callscope.Lookahead.Closure
import Callscope.Proofs.Grammar.Descent

/-!
# What can be seen from a place

A place is a site with the sites to which the calls around it return. From a place one glides to others
without a token; a sight is what can be read after that, token by token, and whether the outermost rule
can end then. The main statement is about loops of operators: a caller that only returns to the loop it
called from changes nothing that can be seen inside of the loop, because the loop itself can read on
whatever that caller could.
-/

namespace Callscope

/-! ## Stacks in a set -/

namespace Stack

/-- The stack of sites, innermost first, is in the set. -/
inductive Holds : Stack → List Nat → Prop
  | ends {s : Stack} (h : s.ends = true) : Holds s []
  | top {s below : Stack} {site : Nat} {σ : List Nat} (h : (site, below) ∈ s.tops)
      (hbelow : Holds below σ) : Holds s (site :: σ)

variable {s a b : Stack} {site : Nat} {σ : List Nat}

theorem holds_nil : s.Holds [] ↔ s.ends = true :=
  ⟨fun h => by cases h; assumption, .ends⟩

theorem holds_cons : s.Holds (site :: σ) ↔ ∃ below, (site, below) ∈ s.tops ∧ below.Holds σ :=
  ⟨fun h => by cases h with | top h hbelow => exact ⟨_, h, hbelow⟩, fun ⟨_, h, hbelow⟩ => .top h hbelow⟩

theorem holds_root : root.Holds σ ↔ σ = [] := by
  cases σ with
  | nil => simp [holds_nil, root, make, Stack.ends]
  | cons site σ => simp [holds_cons, root, make, tops]

theorem holds_push : (s.push site).Holds σ ↔ ∃ τ, σ = site :: τ ∧ s.Holds τ := by
  cases σ with
  | nil => simp [holds_nil, push, make, Stack.ends]
  | cons n σ =>
    simp only [holds_cons, push, make, tops, List.mem_singleton, Prod.mk.injEq, List.cons.injEq]
    constructor
    · rintro ⟨below, ⟨rfl, rfl⟩, h⟩
      exact ⟨σ, ⟨rfl, rfl⟩, h⟩
    · rintro ⟨τ, ⟨rfl, rfl⟩, h⟩
      exact ⟨s, ⟨rfl, rfl⟩, h⟩

/-- Some set of the list below the site has the stack. -/
def TopHolds (ts : List (Nat × Stack)) (site : Nat) (σ : List Nat) : Prop :=
  ∃ below, (site, below) ∈ ts ∧ below.Holds σ

theorem topHolds_cons {x : Nat × Stack} {ts : List (Nat × Stack)} :
    TopHolds (x :: ts) site σ ↔ x.1 = site ∧ x.2.Holds σ ∨ TopHolds ts site σ := by
  simp only [TopHolds, List.mem_cons]
  constructor
  · rintro ⟨below, rfl | h, hbelow⟩
    · exact .inl ⟨rfl, hbelow⟩
    · exact .inr ⟨below, h, hbelow⟩
  · rintro (⟨rfl, h⟩ | ⟨below, h, hbelow⟩)
    · exact ⟨x.2, .inl rfl, h⟩
    · exact ⟨below, .inr h, hbelow⟩

/-- Merging the parts of two sets, if merging sets gives their union as far as the stack below goes. -/
theorem topHolds_mergeTops
    (h : ∀ a b : Stack, (merge false a b).Holds σ ↔ a.Holds σ ∨ b.Holds σ)
    (xs ys : List (Nat × Stack)) :
    TopHolds (mergeTops false xs ys) site σ ↔ TopHolds xs site σ ∨ TopHolds ys site σ := by
  have hnil : ¬ TopHolds [] site σ := fun ⟨_, hmem, _⟩ => by cases hmem
  induction xs generalizing ys with
  | nil => simp [mergeTops, hnil]
  | cons x xs ihx =>
    induction ys with
    | nil => simp [mergeTops, hnil]
    | cons y ys ihy =>
      obtain ⟨i, a⟩ := x
      obtain ⟨j, b⟩ := y
      rw [mergeTops]
      split
      · simp only [topHolds_cons (x := (i, a)), ihx, or_assoc]
      · split
        · simp only [topHolds_cons (x := (j, b)), ihy]
          exact or_left_comm
        · have hij : i = j := by omega
          subst hij
          simp only [topHolds_cons, ihx, h, and_or_left]
          exact or_or_or_comm

/-- With known callers, merging gives the union. -/
theorem holds_merge : (merge false a b).Holds σ ↔ a.Holds σ ∨ b.Holds σ := by
  induction σ generalizing a b with
  | nil =>
    obtain ⟨h, e, ts⟩ := a
    obtain ⟨h', e', ts'⟩ := b
    rw [merge]
    split
    · rename_i heq
      rw [heq, or_self]
    · simp [holds_nil, make, Stack.ends]
  | cons site σ ih =>
    obtain ⟨h, e, ts⟩ := a
    obtain ⟨h', e', ts'⟩ := b
    rw [merge]
    split
    · rename_i heq
      rw [heq, or_self]
    · simp only [Bool.false_and, Bool.false_eq_true, if_false, holds_cons]
      exact topHolds_mergeTops (fun _ _ => ih) ts ts'

end Stack

/-! ## Sights -/

/-- What is seen from a place. -/
inductive Sight where
  /-- The outermost rule can end. -/
  | ended
  /-- A token of a kind can be read. -/
  | reads (k : Kind)
  /-- What is seen after a token of a kind. -/
  | after (k : Kind) (w : Sight)

namespace Tables

/-- A move without a token. After the end of the text a token for it is passed. -/
inductive Glides (t : Tables) (atEnd : Bool) : Nat → List Nat → Nat → List Nat → Prop
  | way {s n : Nat} {σ : List Nat} (h : n ∈ (t.edge s).ways) : Glides t atEnd s σ n σ
  | call {s level next : Nat} {r : Rule} {σ : List Nat} (h : t.edge s = .call r level next) :
      Glides t atEnd s σ (t.rule r).start (next :: σ)
  | stop {s n : Nat} {r : Rule} {σ : List Nat} (h : t.edge s = .stop r) :
      Glides t atEnd s (n :: σ) n σ
  | eof {s next : Nat} {kinds : KindSet} {σ : List Nat} (h : t.edge s = .terminal kinds next)
      (hkinds : kinds.contains .eof = true) (hend : atEnd = true) : Glides t atEnd s σ next σ

/-- A sight from a place. -/
inductive Sees (t : Tables) : Bool → Nat → List Nat → Sight → Prop
  | glide {e : Bool} {s s' : Nat} {σ σ' : List Nat} {w : Sight} (h : t.Glides e s σ s' σ')
      (hs : Sees t e s' σ' w) : Sees t e s σ w
  | ended {e : Bool} {s : Nat} {r : Rule} (h : t.edge s = .stop r) : Sees t e s [] .ended
  | reads {s next : Nat} {kinds : KindSet} {σ : List Nat} {k : Kind}
      (h : t.edge s = .terminal kinds next) (hk : kinds.contains k = true) :
      Sees t false s σ (.reads k)
  | after {s next : Nat} {kinds : KindSet} {σ : List Nat} {k : Kind} {w : Sight}
      (h : t.edge s = .terminal kinds next) (hk : kinds.contains k = true)
      (hs : Sees t (decide (k = .eof)) next σ w) : Sees t false s σ (.after k w)

variable {t : Tables} {e : Bool} {s n : Nat} {σ : List Nat} {w : Sight}

/-! ### One step from a place -/

/-- From a site that is neither before a token nor at a call or an end. -/
theorem sees_ways (hways : (t.edge s).ways = (t.edge s).nexts) (hstop : ∀ r, t.edge s ≠ .stop r) :
    t.Sees e s σ w ↔ ∃ n ∈ (t.edge s).ways, t.Sees e n σ w := by
  constructor
  · intro h
    cases h with
    | glide h hs =>
      cases h with
      | way h => exact ⟨_, h, hs⟩
      | call h => rw [h] at hways; cases hways
      | stop h => exact absurd h (hstop _)
      | eof h => rw [h] at hways; cases hways
    | ended h => exact absurd h (hstop _)
    | reads h => rw [h] at hways; cases hways
    | after h => rw [h] at hways; cases hways
  · rintro ⟨n, hn, hs⟩
    exact .glide (.way hn) hs

theorem sees_call {r : Rule} {level next : Nat} (hedge : t.edge s = .call r level next) :
    t.Sees e s σ w ↔ t.Sees e (t.rule r).start (next :: σ) w := by
  constructor
  · intro h
    cases h with
    | glide h hs =>
      cases h with
      | way h => rw [hedge] at h; cases h
      | call h => cases hedge.symm.trans h; exact hs
      | stop h | eof h => cases hedge.symm.trans h
    | ended h | reads h | after h => cases hedge.symm.trans h
  · exact fun h => .glide (.call hedge) h

theorem sees_stop_cons {r : Rule} (hedge : t.edge s = .stop r) :
    t.Sees e s (n :: σ) w ↔ t.Sees e n σ w := by
  constructor
  · intro h
    cases h with
    | glide h hs =>
      cases h with
      | way h => rw [hedge] at h; cases h
      | stop h => exact hs
      | call h | eof h => cases hedge.symm.trans h
    | reads h | after h => cases hedge.symm.trans h
  · exact fun h => .glide (.stop hedge) h

theorem sees_stop_nil {r : Rule} (hedge : t.edge s = .stop r) :
    t.Sees e s [] w ↔ w = .ended := by
  constructor
  · intro h
    cases h with
    | glide h hs =>
      cases h with
      | way h => rw [hedge] at h; cases h
      | call h | eof h => cases hedge.symm.trans h
    | ended h => rfl
    | reads h | after h => cases hedge.symm.trans h
  · rintro rfl
    exact .ended hedge

/-- After the end of the text nothing is read any more. -/
theorem sees_terminal_atEnd {kinds : KindSet} {next : Nat} (hedge : t.edge s = .terminal kinds next) :
    t.Sees true s σ w ↔ kinds.contains .eof = true ∧ t.Sees true next σ w := by
  constructor
  · intro h
    cases h with
    | glide h hs =>
      cases h with
      | way h => rw [hedge] at h; cases h
      | call h | stop h => cases hedge.symm.trans h
      | eof h hkinds => cases hedge.symm.trans h; exact ⟨hkinds, hs⟩
    | ended h => cases hedge.symm.trans h
  · exact fun ⟨hkinds, hs⟩ => .glide (.eof hedge hkinds rfl) hs

theorem sees_reads {kinds : KindSet} {next : Nat} {k : Kind}
    (hedge : t.edge s = .terminal kinds next) :
    t.Sees false s σ (.reads k) ↔ kinds.contains k = true := by
  constructor
  · intro h
    cases h with
    | glide h hs =>
      cases h with
      | way h => rw [hedge] at h; cases h
      | call h | stop h => cases hedge.symm.trans h
      | eof h hkinds hend => cases hend
    | reads h hk => cases hedge.symm.trans h; exact hk
  · exact fun hk => .reads hedge hk

theorem sees_after {kinds : KindSet} {next : Nat} {k : Kind}
    (hedge : t.edge s = .terminal kinds next) :
    t.Sees false s σ (.after k w) ↔
      kinds.contains k = true ∧ t.Sees (decide (k = .eof)) next σ w := by
  constructor
  · intro h
    cases h with
    | glide h hs =>
      cases h with
      | way h => rw [hedge] at h; cases h
      | call h | stop h => cases hedge.symm.trans h
      | eof h hkinds hend => cases hend
    | after h hk hs => cases hedge.symm.trans h; exact ⟨hk, hs⟩
  · exact fun ⟨hk, hs⟩ => .after hedge hk hs

theorem not_sees_ended {kinds : KindSet} {next : Nat} (hedge : t.edge s = .terminal kinds next) :
    ¬ t.Sees false s σ .ended := by
  intro h
  cases h with
  | glide h hs =>
    cases h with
    | way h => rw [hedge] at h; cases h
    | call h | stop h => cases hedge.symm.trans h
    | eof h hkinds hend => cases hend
  | ended h => cases hedge.symm.trans h

/-- Where jumps alone lead, the same is seen. -/
theorem sees_leads {target fuel : Nat} (h : Scope.leads t target fuel s = true) :
    t.Sees e s σ w ↔ t.Sees e target σ w := by
  induction fuel generalizing s with
  | zero => cases h
  | succ fuel ih =>
    rw [Scope.leads, Bool.or_eq_true, beq_iff_eq] at h
    rcases h with rfl | h
    · rfl
    · split at h
      · rename_i next hedge
        rw [sees_ways (by rw [hedge]; rfl) (by simp [hedge]), hedge, ← ih h]
        simp [Edge.ways]
      · cases h

/-! ### Loops of operators -/

/-- A loop of operators that ends its rule. The sites above it and below the bound are its own: what
is done there comes back to the loop before the rule ends. -/
structure Loop (t : Tables) (site operator finish bound : Nat) : Prop where
  edge : t.edge site = .climb operator finish
  stop : ∃ r, t.edge finish = .stop r
  first : site ≤ operator ∧ operator < bound
  closed : ∀ s, site < s → s < bound →
    (∀ r, t.edge s ≠ .stop r) ∧ ∀ n ∈ (t.edge s).nexts, site ≤ n ∧ n < bound

namespace Loop

variable {site operator finish bound fuel r : Nat} {u τ : List Nat}

/-- A site of the loop. -/
abbrev Has (site bound s : Nat) : Prop := site ≤ s ∧ s < bound

/-- The outermost of some calls was made inside of the loop. -/
def Within (site bound s : Nat) (u : List Nat) : Prop := Has site bound (u.getLast?.getD s)

theorem within_nil {s : Nat} : Within site bound s [] ↔ Has site bound s := Iff.rfl

theorem within_cons {s n : Nat} : Within site bound s (n :: u) ↔ Within site bound n u := by
  rw [Within, Within, List.getLast?_cons, Option.getD_some]

theorem sees_operator (hl : Loop t site operator finish bound) :
    t.Sees e site σ w ↔ t.Sees e operator σ w ∨ t.Sees e finish σ w := by
  rw [sees_ways (by rw [hl.edge]; rfl) (by simp [hl.edge]), hl.edge]
  simp [Edge.ways]

theorem not_stop (hl : Loop t site operator finish bound) (hs : Has site bound s) (r : Rule) :
    t.edge s ≠ .stop r := by
  rcases Nat.eq_or_lt_of_le hs.1 with rfl | hlt
  · simp [hl.edge]
  · exact (hl.closed s hlt hs.2).1 r

/-- Calls that were made inside of the loop stay inside, as long as the loop is not left. -/
theorem within_next (hl : Loop t site operator finish bound) (hne : ¬ (u = [] ∧ s = site))
    (hu : Within site bound s u) (hn : n ∈ (t.edge s).nexts) : Within site bound n u := by
  cases u with
  | nil =>
    rw [within_nil] at hu ⊢
    have hlt : site < s := by
      have := hu.1
      have hns : s ≠ site := fun h => hne ⟨rfl, h⟩
      omega
    exact (hl.closed s hlt hu.2).2 n hn
  | cons x u => exact hu

/-- At the end of a rule the calls inside of the loop are not all left. -/
theorem exists_of_stop (hl : Loop t site operator finish bound) {rule : Rule}
    (hu : Within site bound s u) (hedge : t.edge s = .stop rule) : ∃ n u', u = n :: u' := by
  cases u with
  | nil => exact absurd hedge (hl.not_stop hu rule)
  | cons n u => exact ⟨n, u, rfl⟩

/-- From the end of the loop a caller that returns to the loop sees what the loop sees. -/
theorem sees_finish (hl : Loop t site operator finish bound)
    (hr : Scope.leads t site fuel r = true) :
    t.Sees e finish (r :: τ) w ↔ t.Sees e site τ w := by
  obtain ⟨rule, hstop⟩ := hl.stop
  rw [sees_stop_cons hstop, sees_leads hr]

/-- A call or a token inside of the loop does not leave it. -/
theorem within_single (hl : Loop t site operator finish bound) (hu : Within site bound s u)
    (hways : (t.edge s).ways = []) (hn : n ∈ (t.edge s).nexts) : Within site bound n u := by
  refine hl.within_next (fun hne => ?_) hu hn
  rw [hne.2, hl.edge] at hways
  cases hways

/-- The callers of the loop can be exchanged for others that see as much where the loop ends. -/
theorem sees_exchange (hl : Loop t site operator finish bound) {τ' : List Nat}
    (hfinish : ∀ e w, t.Sees e finish τ w → t.Sees e site τ' w) (h : t.Sees e s (u ++ τ) w)
    (hu : Within site bound s u) : t.Sees e s (u ++ τ') w := by
  generalize hσ : u ++ τ = σ at h
  induction h generalizing u with
  | @glide e s s' σ σ' w h hs ih =>
    cases h with
    | way hway =>
      subst hσ
      by_cases hne : u = [] ∧ s = site
      · obtain ⟨rfl, rfl⟩ := hne
        rw [hl.edge] at hway
        rcases List.mem_cons.mp hway with rfl | hway
        · exact hl.sees_operator.mpr (.inl (ih (u := []) hl.first rfl))
        · rw [List.mem_singleton.mp hway] at hs
          exact hfinish e w hs
      · exact .glide (.way hway) (ih (hl.within_next hne hu (Edge.nexts_of_ways hway)) rfl)
    | call hedge =>
      subst hσ
      refine .glide (.call hedge) (ih (u := _ :: u) ?_ rfl)
      rw [within_cons]
      exact hl.within_single hu (by rw [hedge]; rfl) (by rw [hedge]; exact List.mem_singleton.mpr rfl)
    | stop hedge =>
      obtain ⟨n, u', rfl⟩ := hl.exists_of_stop hu hedge
      rw [List.cons_append, List.cons.injEq] at hσ
      obtain ⟨rfl, rfl⟩ := hσ
      exact .glide (.stop hedge) (ih (within_cons.mp hu) rfl)
    | eof hedge hkinds hend =>
      subst hσ
      refine .glide (.eof hedge hkinds hend) (ih ?_ rfl)
      exact hl.within_single hu (by rw [hedge]; rfl) (by rw [hedge]; exact List.mem_singleton.mpr rfl)
  | ended h =>
    obtain ⟨n, u', rfl⟩ := hl.exists_of_stop hu h
    cases hσ
  | reads h hk => exact .reads h hk
  | after h hk hs ih =>
    subst hσ
    refine .after h hk (ih ?_ rfl)
    exact hl.within_single hu (by rw [h]; rfl) (by rw [h]; exact List.mem_singleton.mpr rfl)

/-- Inside of the loop a caller that returns to it changes nothing. -/
theorem sees_return (hl : Loop t site operator finish bound)
    (hr : Scope.leads t site fuel r = true) (hs : Has site bound s) :
    t.Sees e s (r :: τ) w ↔ t.Sees e s τ w := by
  constructor
  · exact fun h => hl.sees_exchange (u := []) (fun e w => (hl.sees_finish hr).mp) h hs
  · refine fun h => hl.sees_exchange (u := []) (fun e w hw => ?_) h hs
    exact hl.sees_operator.mpr (.inr ((hl.sees_finish hr).mpr (hl.sees_operator.mpr (.inr hw))))

end Loop

end Tables

end Callscope
