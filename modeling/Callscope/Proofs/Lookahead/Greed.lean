import Callscope.Proofs.Lookahead.Levels
import Callscope.Proofs.Lookahead.Rivals

/-!
# Operators go to the innermost loop

An operator after an operand can be taken by the loop of the call that read the operand or, after that
call has returned, by the loop of its caller. The main statement is that the inner loop is greedy: if the
caller's loop takes an operator at a token, the inner one does not end before it, provided that every
operator that begins with this token may be taken at both levels.
-/

namespace Callscope

namespace Tables

variable {t : Tables} {e guarded : Bool} {s : Nat} {σ : List Nat} {w : Sight}

/-- What is seen from a site is seen from what is in front of it. -/
theorem Fronted.sees_iff (h : t.Fronted guarded s) :
    t.Sees e s σ w ↔ ∃ g x, t.Fronts s g x ∧ t.Sees e x σ w := by
  induction h with
  | token h =>
    simp only [fronts_token h]
    exact ⟨fun hs => ⟨none, _, ⟨rfl, rfl⟩, hs⟩, fun ⟨_, _, ⟨_, hx⟩, hs⟩ => hx ▸ hs⟩
  | stop h =>
    simp only [fronts_stop h]
    exact ⟨fun hs => ⟨none, _, ⟨rfl, rfl⟩, hs⟩, fun ⟨_, _, ⟨_, hx⟩, hs⟩ => hx ▸ hs⟩
  | @fork _ s nexts h hn ih =>
    rw [sees_ways (by rw [h]; rfl) (by simp [h]), h]
    simp only [Edge.ways, fronts_fork h]
    constructor
    · rintro ⟨n, hn, hs⟩
      obtain ⟨g, x, hx, hs⟩ := (ih n hn).mp hs
      exact ⟨g, x, ⟨n, hn, hx⟩, hs⟩
    · rintro ⟨g, x, ⟨n, hn, hx⟩, hs⟩
      exact ⟨n, hn, (ih n hn).mpr ⟨g, x, hx, hs⟩⟩
  | @guard s n level h hn ih =>
    rw [sees_ways (by rw [h]; rfl) (by simp [h]), h]
    simp only [Edge.ways, List.mem_singleton, exists_eq_left, fronts_guard h, ih]
    constructor
    · rintro ⟨g, x, hx, hs⟩
      exact ⟨some level, x, ⟨rfl, hn.eq_none hx ▸ hx⟩, hs⟩
    · rintro ⟨_, x, ⟨_, hx⟩, hs⟩
      exact ⟨none, x, hx, hs⟩

end Tables

namespace Lookahead

variable {t : Tables} {d : Decision} {site operator finish bound level level' r fuel : Nat}
  {stack : Stack} {k : Kind}

/-- With known callers the set at the start is settled. -/
theorem settled_start (hfull : stack.Full) :
    ∀ c ∈ start t false level d stack, c.Settled t := by
  refine Scope.settled_closure rfl fun c hc => ?_
  obtain ⟨i, hi, rfl⟩ := List.mem_mapIdx.mp hc
  exact ⟨rfl, rfl, hfull⟩

theorem binary_start (hd : d.Grows t operator finish) {unknown : Bool} :
    ∀ c ∈ start t unknown level d stack, c.Within Binary := by
  intro c hc
  have hoffered := within_start unknown level d stack c hc
  rwa [Config.Within, Decision.Offered, hd.nexts] at hoffered

/-- A choice is made without the callers or, if that has no result, with them. -/
theorem of_choose {a : Automata} {current : Token} {ahead : List Token} {alt : Nat}
    (h : (choose a d site level stack current ahead).1 = .choose alt) :
    (withoutCallers a.tables level current (a.tree site level) current ahead).1 =
        some (.choose alt) ∨
      (withoutCallers a.tables level current (a.tree site level) current ahead).1 = none ∧
        (withCallers a.tables level (start a.tables false level d stack) current ahead).1 =
          .choose alt := by
  rw [choose] at h
  split at h
  · rename_i o last ho
    exact .inl (by rw [ho]; exact congrArg some h)
  · rename_i last ho
    exact .inr ⟨by rw [ho], h⟩

/-- What is seen by the operators that may be taken at a level. -/
def Takes (t : Tables) (operator level : Nat) (stack : Stack) (w : Sight) : Prop :=
  ∃ σ, stack.Holds σ ∧ ∃ g x, t.Fronts operator g x ∧ passes level g = true ∧ t.Sees false x σ w

/-- What is seen by the end of a loop. -/
def Leaves (t : Tables) (finish : Nat) (stack : Stack) (w : Sight) : Prop :=
  ∃ σ, stack.Holds σ ∧ t.Sees false finish σ w

variable (ht : t.Regular) (hd : d.Grows t operator finish)

include ht hd

/-- The profile of the set at the start. -/
theorem shows_start {alt : Nat} {w : Sight} : Shows t false (start t false level d stack) alt w ↔
    1 = alt ∧ Takes t operator level stack w ∨ 2 = alt ∧ Leaves t finish stack w := by
  obtain ⟨rule, hstop⟩ := hd.stop
  have hend : ∀ c : Config, c.site = finish →
      (c.Opens t level w ↔ ∃ σ, c.stack.Holds σ ∧ t.Sees false finish σ w) := by
    rintro c rfl
    simp only [Config.Opens, Tables.fronts_stop hstop]
    constructor
    · rintro ⟨σ, hσ, _, _, ⟨rfl, rfl⟩, _, hs⟩
      exact ⟨σ, hσ, hs⟩
    · rintro ⟨σ, hσ, hs⟩
      exact ⟨σ, hσ, none, _, ⟨rfl, rfl⟩, rfl, hs⟩
  let sc : Scope := { tables := t, unknown := false, level, guards := true, atEnd := false
                      climbing := if d.climbs then some d.owner else none }
  have hknown : sc.Known := ⟨rfl, fun _ => rfl, ht.loops⟩
  refine (Scope.shows_closure hknown ht.grounds fun c hc _ => .inr ⟨rfl, ?_⟩).trans ?_
  · rw [hd.nexts] at hc
    rcases List.mem_cons.mp hc with rfl | hc
    · exact hd.fronted
    · rw [List.mem_singleton.mp hc]
      exact .stop hstop
  · rw [hd.nexts]
    refine Scope.workShows_cons.trans (or_congr ?_ (Scope.workShows_singleton.trans ?_))
    · exact and_congr_right fun _ => Scope.sights_of_counts ⟨rfl, rfl⟩
    · exact and_congr_right fun _ => (Scope.sights_of_counts ⟨rfl, rfl⟩).trans (hend _ rfl)

section

variable (hlevel : t.Permits operator k level) (hlevel' : t.Permits operator k level')

include hlevel

omit ht in
/-- Where every operator with the token may be taken, the operators see what their site sees. -/
theorem takes_iff {w : Sight} (hw : w.Begins k) : Takes t operator level stack w ↔
    ∃ σ, stack.Holds σ ∧ t.Sees false operator σ w := by
  simp only [Takes, hd.fronted.sees_iff]
  refine exists_congr fun σ => and_congr_right fun _ => exists_congr fun g => exists_congr fun x =>
    and_congr_right fun hx => and_iff_right_of_imp fun hs => ?_
  obtain ⟨kinds, next, hedge⟩ := hd.token g x hx
  cases w with
  | ended => exact absurd hs (Tables.not_sees_ended hedge)
  | reads k' =>
    cases (show k' = k from hw)
    exact hlevel g x kinds next hx hedge ((Tables.sees_reads hedge).mp hs)
  | after k' w =>
    cases (show k' = k from hw)
    exact hlevel g x kinds next hx hedge ((Tables.sees_after hedge).mp hs).1

variable (hl : t.Loop site operator finish bound) (hr : Scope.leads t site fuel r = true)

include hl hr hlevel'

/-- At the start the loop of a call that returns to the same loop sees more than the loop that it
returns to: what this loop goes on with comes after the end of the call. -/
theorem widens_start : Widens k (Shows t false (start t false level' d (stack.push r)))
    (Shows t false (start t false level d stack)) := by
  have hreturn : ∀ {s : Nat} {w : Sight}, (∃ σ, (stack.push r).Holds σ ∧ t.Sees false s σ w) ↔
      ∃ τ, stack.Holds τ ∧ t.Sees false s (r :: τ) w := by
    intro s w
    simp only [Stack.holds_push]
    constructor
    · rintro ⟨_, ⟨τ, rfl, hτ⟩, hs⟩
      exact ⟨τ, hτ, hs⟩
    · rintro ⟨τ, hτ, hs⟩
      exact ⟨r :: τ, ⟨τ, rfl, hτ⟩, hs⟩
  refine ⟨fun w hw => ?_, fun w hw => ?_⟩
  · simp only [shows_start ht hd, true_and, OfNat.ofNat_ne_one, false_and, or_false]
    rw [takes_iff hd hlevel hw, takes_iff hd hlevel' hw, hreturn]
    exact exists_congr fun τ => and_congr_right fun _ => hl.sees_return hr hl.first
  · simp only [shows_start ht hd, true_and, OfNat.ofNat_ne_one, OfNat.one_ne_ofNat, false_and,
      or_false, false_or]
    rw [takes_iff hd hlevel hw, Leaves, Leaves, hreturn, ← exists_or]
    refine exists_congr fun τ => ?_
    rw [hl.sees_finish hr, hl.sees_operator, and_or_left]

end

section

variable (hsound : ∀ s, (t.edge s).Sound t s) (hdecision : t.decision? site = some d)
  (hdirect : d.direct = false) (hl : t.Loop site operator finish bound)
  (hr : Scope.leads t site fuel r = true) (hfull : stack.Full) {current tk : Token}
  {rest : List Token} (hk : tk.kind ≠ .eof) (hlevel : t.Permits operator tk.kind level)
  (hlevel' : t.Permits operator tk.kind level')

include hsound hdecision hdirect hl hr hfull hk hlevel hlevel'

/-- An inner loop does not end at a token at which the loop that it returns to takes an operator. -/
theorem choose_ne_second
    (h : (choose (.ofTables t) d site level stack current (tk :: rest)).1 = .choose 1) :
    (choose (.ofTables t) d site level' (stack.push r) current (tk :: rest)).1 ≠ .choose 2 := by
  intro h'
  have hsame := fun h => congrArg Prod.fst (withoutCallers_climb hsound hdecision hdirect hd hk hlevel
    hlevel' h : withoutCallers t level current ((Automata.ofTables t).tree site level) current
      (tk :: rest) = withoutCallers t level' current ((Automata.ofTables t).tree site level') current
      (tk :: rest))
  rcases of_choose h with hfirst | ⟨hnone, hfirst⟩
  · have heq := hfirst.symm.trans (hsame (.inr hfirst))
    rcases of_choose h' with hsecond | ⟨hnone, _⟩
    · cases heq.trans hsecond
    · cases heq.trans hnone
  · have heq := hnone.symm.trans (hsame (.inl hnone))
    rcases of_choose h' with hsecond | ⟨_, hsecond⟩
    · cases heq.trans hsecond
    · exact withCallers_ne_second_of_widens ht (settled_start (hfull.push r)) (settled_start hfull)
        (binary_start hd) (binary_start hd) (widens_start ht hd hlevel hlevel' hl hr) hfirst hsecond

end

end Lookahead

end Callscope
