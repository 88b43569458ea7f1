import Callscope.Proofs.Lookahead.Exactness
import Callscope.Proofs.Lookahead.Halting

/-!
# What a set can still read

With known callers a set of configurations is settled: each of them stands before a token or at the end
of the outermost rule. All that matters about a settled set is its profile, the sights of each choice.
The profile after a token is that of the sights behind this token, except that a choice at the end waits
as long as no other one comes to the end.
-/

namespace Callscope

/-! ## Stacks that are not empty -/

namespace Stack

/-- None of the sets that the set consists of is empty. -/
inductive Full : Stack → Prop
  | intro {s : Stack} (any : s.ends = true ∨ s.tops ≠ []) (below : ∀ top ∈ s.tops, Full top.2) :
      Full s

variable {s a b : Stack}

theorem Full.of_tops (h : s.Full) {top : Nat × Stack} (htop : top ∈ s.tops) : top.2.Full := by
  cases h with
  | intro _ below => exact below top htop

theorem Full.exists_holds (h : s.Full) : ∃ σ, s.Holds σ := by
  induction h with
  | intro any _ ih =>
    rcases any with hends | htops
    · exact ⟨[], .ends hends⟩
    · obtain ⟨top, htop⟩ := List.exists_mem_of_ne_nil _ htops
      obtain ⟨σ, hσ⟩ := ih top htop
      exact ⟨top.1 :: σ, .top htop hσ⟩

theorem full_root : root.Full := ⟨.inl rfl, by simp [root, make, tops]⟩

theorem Full.push (h : s.Full) (site : Nat) : (s.push site).Full := by
  refine ⟨.inr (List.cons_ne_nil _ _), fun top htop => ?_⟩
  rw [List.mem_singleton.mp htop]
  exact h

theorem mem_mergeTops {unknown : Bool} {x : Nat × Stack} (xs ys : List (Nat × Stack))
    (h : x ∈ mergeTops unknown xs ys) : x ∈ xs ∨ x ∈ ys ∨
      ∃ below below', (x.1, below) ∈ xs ∧ (x.1, below') ∈ ys ∧ x.2 = merge unknown below below' := by
  induction xs generalizing ys with
  | nil =>
    rw [mergeTops] at h
    exact .inr (.inl h)
  | cons y xs ihx =>
    induction ys with
    | nil =>
      rw [mergeTops] at h
      · exact .inl h
      · simp
    | cons z ys ihy =>
      obtain ⟨i, below⟩ := y
      obtain ⟨j, below'⟩ := z
      rw [mergeTops] at h
      split at h
      · rcases List.mem_cons.mp h with rfl | h
        · exact .inl List.mem_cons_self
        · refine (ihx _ h).imp (List.mem_cons_of_mem _) (.imp_right ?_)
          rintro ⟨a, b, ha, hb, hx⟩
          exact ⟨a, b, List.mem_cons_of_mem _ ha, hb, hx⟩
      · split at h
        · rcases List.mem_cons.mp h with rfl | h
          · exact .inr (.inl List.mem_cons_self)
          · refine (ihy h).imp_right (.imp (List.mem_cons_of_mem _) ?_)
            rintro ⟨a, b, ha, hb, hx⟩
            exact ⟨a, b, ha, List.mem_cons_of_mem _ hb, hx⟩
        · have hij : i = j := by omega
          subst hij
          rcases List.mem_cons.mp h with rfl | h
          · exact .inr (.inr ⟨below, below', List.mem_cons_self, List.mem_cons_self, rfl⟩)
          · refine (ihx _ h).imp (List.mem_cons_of_mem _) (.imp (List.mem_cons_of_mem _) ?_)
            rintro ⟨a, b, ha, hb, hx⟩
            exact ⟨a, b, List.mem_cons_of_mem _ ha, List.mem_cons_of_mem _ hb, hx⟩

theorem mergeTops_eq_nil {unknown : Bool} {xs ys : List (Nat × Stack)} :
    mergeTops unknown xs ys = [] ↔ xs = [] ∧ ys = [] := by
  rcases xs with _ | ⟨⟨i, a⟩, xs⟩
  · simp [mergeTops]
  · rcases ys with _ | ⟨⟨j, b⟩, ys⟩
    · simp [mergeTops]
    · rw [mergeTops]
      split
      · simp
      · split <;> simp

theorem Full.merge (ha : a.Full) (hb : b.Full) : (merge false a b).Full := by
  induction ha generalizing b with
  | @intro a any below ih =>
    obtain ⟨h, e, ts⟩ := a
    obtain ⟨h', e', ts'⟩ := b
    rw [Stack.merge]
    split
    · exact ⟨any, below⟩
    · rw [Bool.false_and, if_neg Bool.false_ne_true]
      refine ⟨?_, fun top htop => ?_⟩
      · rcases any with hends | htops
        · exact .inl (by rw [make, Stack.ends, show e = true from hends, Bool.true_or])
        · exact .inr fun hnil => htops (mergeTops_eq_nil.mp hnil).1
      · rcases mem_mergeTops ts ts' htop with htop | htop | ⟨a', b', ha', hb', heq⟩
        · exact below top htop
        · exact hb.of_tops htop
        · rw [heq]
          exact ih _ ha' (hb.of_tops hb')

theorem isRoot_iff : s.isRoot = true ↔ s.ends = true ∧ s.tops = [] := by
  rw [isRoot, Bool.and_eq_true, List.isEmpty_iff]

theorem holds_of_isRoot (h : s.isRoot = true) {σ : List Nat} : s.Holds σ ↔ σ = [] := by
  obtain ⟨hends, htops⟩ := isRoot_iff.mp h
  constructor
  · rintro (_ | ⟨htop, _⟩)
    · rfl
    · rw [htops] at htop
      cases htop
  · rintro rfl
    exact .ends hends

theorem isRoot_merge (ha : a.isRoot = true) (hb : b.isRoot = true) :
    (merge false a b).isRoot = true := by
  obtain ⟨hends, htops⟩ := isRoot_iff.mp ha
  obtain ⟨hends', htops'⟩ := isRoot_iff.mp hb
  obtain ⟨h, e, ts⟩ := a
  obtain ⟨h', e', ts'⟩ := b
  rw [Stack.merge]
  split
  · exact ha
  · rw [Bool.false_and, if_neg Bool.false_ne_true, isRoot_iff]
    refine ⟨?_, mergeTops_eq_nil.mpr ⟨htops, htops'⟩⟩
    rw [make, Stack.ends, show e = true from hends, Bool.true_or]

end Stack

/-- What a lookahead needs of a network to be exact with known callers. -/
structure Tables.Regular (t : Tables) : Prop where
  grounds : t.Grounds
  loops : ∀ s operator finish, t.edge s = .climb operator finish →
    ∃ bound, t.Loop s operator finish bound
  kinds : ∀ s kinds next, t.edge s = .terminal kinds next → ∃ k, kinds.contains k = true

/-! ## Settled configurations -/

/-- The configuration stands before a token or at the end of the outermost rule. Its rule has not been
left for a caller that is unknown, and no level is left to be tested. -/
structure Config.Settled (t : Tables) (c : Config) : Prop where
  inside : c.dipped = false
  unguarded : c.guard = none
  full : c.stack.Full
  place : (∃ kinds next, t.edge c.site = .terminal kinds next) ∨
    Lookahead.atStop t c = true ∧ c.stack.isRoot = true

namespace Config

variable {t : Tables} {c d : Config} {w : Sight}

theorem Settled.merge (hc : c.Settled t) (hd : d.Settled t) (hkey : c.key = d.key) :
    (c.merge false d).Settled t := by
  have hsite : c.site = d.site := congrArg Key.site hkey
  refine ⟨by simp [Config.merge, hc.inside, hd.inside], hc.unguarded, hc.full.merge hd.full, ?_⟩
  rcases hc.place with htoken | ⟨hstop, hroot⟩
  · exact .inl htoken
  · refine .inr ⟨hstop, Stack.isRoot_merge hroot ?_⟩
    rcases hd.place with ⟨kinds, next, hedge⟩ | ⟨_, hroot'⟩
    · rw [Lookahead.atStop, hsite, hedge] at hstop
      cases hstop
    · exact hroot'

theorem sees_of_atStop {e : Bool} (hstop : Lookahead.atStop t c = true)
    (hroot : c.stack.isRoot = true) : c.Sees t e w ↔ w = .ended := by
  rw [Lookahead.atStop] at hstop
  split at hstop
  · rename_i r hedge
    simp only [Sees, Stack.holds_of_isRoot hroot, exists_eq_left, Tables.sees_stop_nil hedge]
  · cases hstop

theorem Settled.sees_ended (hc : c.Settled t) :
    c.Sees t false .ended ↔ Lookahead.atStop t c = true := by
  rcases hc.place with ⟨kinds, next, hedge⟩ | ⟨hstop, hroot⟩
  · have hstop : Lookahead.atStop t c = false := by rw [Lookahead.atStop, hedge]
    rw [hstop]
    simp only [Bool.false_eq_true, iff_false]
    rintro ⟨σ, _, hs⟩
    exact Tables.not_sees_ended hedge hs
  · simp [sees_of_atStop hstop hroot, hstop]

theorem Settled.sees_reads (hc : c.Settled t) {k : Kind} :
    c.Sees t false (.reads k) ↔ c.Reads t k := by
  rcases hc.place with ⟨kinds, next, hedge⟩ | ⟨hstop, hroot⟩
  · constructor
    · rintro ⟨σ, _, hs⟩
      exact ⟨kinds, next, hedge, (Tables.sees_reads hedge).mp hs⟩
    · rintro ⟨kinds', next', hedge', hk⟩
      obtain ⟨σ, hσ⟩ := hc.full.exists_holds
      exact ⟨σ, hσ, (Tables.sees_reads hedge').mpr hk⟩
  · simp only [sees_of_atStop hstop hroot, reduceCtorEq, false_iff]
    rintro ⟨kinds, next, hedge, _⟩
    rw [Lookahead.atStop, hedge] at hstop
    cases hstop

theorem Settled.sees_after (hc : c.Settled t) {k : Kind} :
    c.Sees t false (.after k w) ↔ ∃ kinds next, t.edge c.site = .terminal kinds next ∧
      kinds.contains k = true ∧ Sees t (decide (k = .eof)) w { c with site := next } := by
  rcases hc.place with ⟨kinds, next, hedge⟩ | ⟨hstop, hroot⟩
  · constructor
    · rintro ⟨σ, hσ, hs⟩
      obtain ⟨hk, hs⟩ := (Tables.sees_after hedge).mp hs
      exact ⟨kinds, next, hedge, hk, σ, hσ, hs⟩
    · rintro ⟨kinds', next', hedge', hk, σ, hσ, hs⟩
      exact ⟨σ, hσ, (Tables.sees_after hedge').mpr ⟨hk, hs⟩⟩
  · simp only [sees_of_atStop hstop hroot, reduceCtorEq, false_iff]
    rintro ⟨kinds, next, hedge, _⟩
    rw [Lookahead.atStop, hedge] at hstop
    cases hstop

/-- Every settled configuration sees something. -/
theorem Settled.exists_sees (ht : t.Regular) (hc : c.Settled t) : ∃ w, c.Sees t false w := by
  rcases hc.place with ⟨kinds, next, hedge⟩ | ⟨hstop, _⟩
  · obtain ⟨k, hk⟩ := ht.kinds _ _ _ hedge
    exact ⟨.reads k, hc.sees_reads.mpr ⟨kinds, next, hedge, hk⟩⟩
  · exact ⟨.ended, hc.sees_ended.mpr hstop⟩

end Config

namespace Scope

variable {sc : Scope} {cs : List Config} {alt : Nat} {w : Sight}

/-- The closure of a set is settled. -/
theorem settled_closure (hknown : sc.unknown = false)
    (hcs : ∀ c ∈ cs, c.dipped = false ∧ c.guard = none ∧ c.stack.Full) :
    ∀ c ∈ (sc.closure cs).toConfigs, c.Settled sc.tables := by
  refine (closure_of (I := fun x => x.1.dipped = false ∧ x.1.guard = none ∧ x.1.stack.Full)
    (fun c depth x hc h => ?_) (fun c depth d hc h => ?_) (fun c d hc hd hkey => ?_) hcs).of_mem
  · obtain ⟨hinside, hguard, hfull⟩ := hc
    cases h with
    | eof | way => exact ⟨hinside, hguard, hfull⟩
    | call => exact ⟨hinside, hguard, hfull.push _⟩
    | back _ htop => exact ⟨hinside, hguard, hfull.of_tops htop⟩
    | guard _ _ hunknown | dip _ _ hunknown => rw [hknown] at hunknown; cases hunknown
  · obtain ⟨hinside, hguard, hfull⟩ := hc
    cases h with
    | token hedge => exact ⟨hinside, hguard, hfull, .inl ⟨_, _, hedge⟩⟩
    | stop hedge hroot =>
      exact ⟨hinside, hguard, hfull, .inr ⟨by rw [Lookahead.atStop, hedge], hroot⟩⟩
    | ended hedge =>
      exact ⟨hinside, hguard, Stack.full_root, .inr ⟨by rw [Lookahead.atStop, hedge], rfl⟩⟩
  · rw [hknown]
    exact hc.merge hd hkey

/-- The closure of a set shows what the set does. -/
theorem shows_closure (hsc : sc.Known) (hg : sc.tables.Grounds) (hcs : ∀ c ∈ cs, sc.Clear (c, 0)) :
    Shows sc.tables sc.atEnd (sc.closure cs).toConfigs alt w ↔
      sc.WorkShows (cs.map fun c => (c, 0)) alt w := by
  obtain ⟨q, hq⟩ := Option.isSome_iff_exists.mp
    (isSome_follow hg (cs.map fun c => (c, 0)) ⟨{}, {}⟩)
  have hclear : ∀ x ∈ cs.map fun c => (c, (0 : Int)), sc.Clear x := by
    intro x hx
    obtain ⟨c, hc, rfl⟩ := List.mem_map.mp hx
    exact hcs c hc
  rw [closure, hq, (shows_follow hsc hq Configs.each_empty hclear).2,
    or_iff_left Configs.not_shows_empty]

end Scope

namespace Configs

variable {Q R : Config → Prop} {s : Configs} {cs : List Config}

theorem meets_foldl {f : Configs → Config → Configs}
    (hf : ∀ s, ∀ c ∈ cs, s.Keyed → (f s c).Keyed ∧ ((f s c).Meets Q ↔ s.Meets Q ∨ R c))
    (hs : s.Keyed) : (cs.foldl f s).Meets Q ↔ s.Meets Q ∨ ∃ c ∈ cs, R c := by
  induction cs generalizing s with
  | nil => simp
  | cons c cs ih =>
    obtain ⟨hkeyed, hmeets⟩ := hf s c List.mem_cons_self hs
    rw [List.foldl_cons, ih (fun s d hd => hf s d (List.mem_cons_of_mem _ hd)) hkeyed, hmeets]
    simp only [List.mem_cons, or_and_right, exists_or, exists_eq_left, or_assoc]

theorem meets_collect (hQ : Splits Q) (hs : s.Keyed) :
    (cs.foldl (fun (s : Configs) c => s.insertConfig false c) s).Meets Q ↔
      s.Meets Q ∨ ∃ c ∈ cs, Q c :=
  meets_foldl (fun _ c _ hs => ⟨hs.insert false c, meets_insert hs hQ⟩) hs

end Configs

namespace Lookahead

variable {t : Tables} {cs : List Config} {k : Kind} {alt : Nat} {w : Sight}

theorem exists_move {Q : Config → Prop} (hQ : Configs.Splits Q) :
    (∃ c ∈ move t false cs k, Q c) ↔ ∃ c ∈ cs, ∃ kinds next, t.edge c.site = .terminal kinds next ∧
      kinds.contains k = true ∧ Q { c with site := next } := by
  refine (Configs.meets_foldl (fun s c _ hs => ?_) Configs.each_empty).trans
    (or_iff_right Configs.not_meets_empty)
  split
  · rename_i kinds next hedge
    split
    · rename_i hk
      refine ⟨hs.insert false _, (Configs.meets_insert hs hQ).trans (or_congr_right ?_)⟩
      constructor
      · exact fun hq => ⟨kinds, next, hedge, hk, hq⟩
      · rintro ⟨kinds', next', hedge', _, hq⟩
        cases hedge.symm.trans hedge'
        exact hq
    · rename_i hk
      refine ⟨hs, (or_iff_left ?_).symm⟩
      rintro ⟨kinds', next', hedge', hk', _⟩
      cases hedge.symm.trans hedge'
      exact hk hk'
  · rename_i hedge
    refine ⟨hs, (or_iff_left ?_).symm⟩
    rintro ⟨kinds, next, hedge', _⟩
    exact hedge kinds next hedge'

/-! ## Sights of a settled set -/

theorem shows_false : Shows t false cs alt w ↔ ∃ c ∈ cs, c.alt = alt ∧ c.Sees t false w := by
  simp [Shows]

section

variable (hcs : ∀ c ∈ cs, c.Settled t)

include hcs

theorem shows_ended : Shows t false cs alt .ended ↔ ∃ c ∈ cs.filter (atStop t), c.alt = alt := by
  rw [shows_false]
  constructor
  · rintro ⟨c, hc, halt, hs⟩
    exact ⟨c, List.mem_filter.mpr ⟨hc, (hcs c hc).sees_ended.mp hs⟩, halt⟩
  · rintro ⟨c, hc, halt⟩
    obtain ⟨hc, hstop⟩ := List.mem_filter.mp hc
    exact ⟨c, hc, halt, (hcs c hc).sees_ended.mpr hstop⟩

/-- The configurations at an end show this end alone. -/
theorem shows_stops : Shows t false (cs.filter (atStop t)) alt w ↔
    w = .ended ∧ Shows t false cs alt .ended := by
  have hstop : ∀ c ∈ cs.filter (atStop t), c.Sees t false w ↔ w = .ended := by
    intro c hc
    obtain ⟨hc, hstop⟩ := List.mem_filter.mp hc
    rcases (hcs c hc).place with ⟨_, _, hedge⟩ | ⟨_, hroot⟩
    · rw [atStop, hedge] at hstop
      cases hstop
    · exact Config.sees_of_atStop hstop hroot
  rw [shows_ended hcs, shows_false]
  constructor
  · rintro ⟨c, hc, halt, hs⟩
    exact ⟨(hstop c hc).mp hs, c, hc, halt⟩
  · rintro ⟨hw, c, hc, halt⟩
    exact ⟨c, hc, halt, (hstop c hc).mpr hw⟩

theorem shows_reads : Shows t false cs alt (.reads k) ↔ ∃ c ∈ move t false cs k, c.alt = alt := by
  rw [shows_false, exists_move (Configs.splits_alt alt)]
  constructor
  · rintro ⟨c, hc, halt, hs⟩
    obtain ⟨kinds, next, hedge, hk⟩ := (hcs c hc).sees_reads.mp hs
    exact ⟨c, hc, kinds, next, hedge, hk, halt⟩
  · rintro ⟨c, hc, kinds, next, hedge, hk, halt⟩
    exact ⟨c, hc, halt, (hcs c hc).sees_reads.mpr ⟨kinds, next, hedge, hk⟩⟩

theorem shows_after : Shows t false cs alt (.after k w) ↔
    ∃ c ∈ move t false cs k, c.alt = alt ∧ c.Sees t (decide (k = .eof)) w := by
  rw [shows_false, exists_move (Configs.splits_sees alt w)]
  constructor
  · rintro ⟨c, hc, halt, hs⟩
    obtain ⟨kinds, next, hedge, hk, hs⟩ := (hcs c hc).sees_after.mp hs
    exact ⟨c, hc, kinds, next, hedge, hk, halt, hs⟩
  · rintro ⟨c, hc, kinds, next, hedge, hk, halt, hs⟩
    exact ⟨c, hc, halt, (hcs c hc).sees_after.mpr ⟨kinds, next, hedge, hk, hs⟩⟩

theorem shows_reads_of_after (h : Shows t false cs alt (.after k w)) :
    Shows t false cs alt (.reads k) := by
  obtain ⟨c, hc, halt, _⟩ := (shows_after hcs).mp h
  exact (shows_reads hcs).mpr ⟨c, hc, halt⟩

end

theorem unique_eq_some : unique cs = some alt ↔ cs ≠ [] ∧ ∀ c ∈ cs, c.alt = alt := by
  cases cs with
  | nil => simp [unique]
  | cons c cs =>
    simp only [unique, List.all_eq_true, beq_iff_eq, ne_eq, List.cons_ne_nil, not_false_eq_true,
      true_and, List.forall_mem_cons]
    constructor
    · intro h
      split at h
      · rename_i hall
        cases h
        exact ⟨rfl, hall⟩
      · cases h
    · rintro ⟨rfl, hall⟩
      rw [if_pos hall]

/-! ## After a token -/

/-- The sights of a choice after a token. -/
def Next (φ : Nat → Sight → Prop) (k : Kind) (alt : Nat) (w : Sight) : Prop :=
  φ alt (.after k w) ∧ (k = .eof → w = .ended) ∨
    w = .ended ∧ φ alt .ended ∧ ∀ b, ¬ φ b (.after k .ended)

/-- No choice has come to an end, and only one can read the token. -/
structure Forced (φ : Nat → Sight → Prop) (k : Kind) (alt : Nat) : Prop where
  token : k ≠ .eof
  unfinished : ∀ b, ¬ φ b .ended
  reads : ∀ b, φ b (.reads k) ↔ b = alt

/-- How the network is followed after a token. -/
def afterToken (t : Tables) (k : Kind) : Scope :=
  { tables := t, unknown := false, level := 0, climbing := none, guards := false,
    atEnd := k = .eof }

/-- What is reached behind a token. After the end of the text only ends count. -/
def reached (t : Tables) (cs : List Config) (k : Kind) : List Config :=
  let found := ((afterToken t k).closure (move t false cs k)).toConfigs
  if k = .eof then found.filter (atStop t) else found

/-- A step with known callers, case by case. -/
theorem step_eq (t : Tables) (cs : List Config) (k : Kind) : step t false cs k =
    if (cs.filter (atStop t)).isEmpty && k ≠ .eof && (unique (move t false cs k)).isSome then
      move t false cs k
    else if (cs.filter (atStop t)).isEmpty || (reached t cs k).any (atStop t) then reached t cs k
    else ((cs.filter (atStop t)).foldl (fun (s : Configs) c => s.insertConfig false c)
      ((reached t cs k).foldl (fun (s : Configs) c => s.insertConfig false c) {})).toConfigs := by
  have hwaiting : (!false || decide (k = .eof)) = true := rfl
  unfold step
  rw [hwaiting, if_pos rfl]
  by_cases hearly : ((cs.filter (atStop t)).isEmpty && decide (k ≠ .eof) &&
      (unique (move t false cs k)).isSome) = true
  · simp only [if_pos hearly]
    simp only [Bool.and_eq_true, decide_eq_true_eq] at hearly
    rw [if_neg hearly.1.2, if_pos hearly.1.1]
  · simp only [if_neg hearly]
    change (if _ then reached t cs k
      else if (!(reached t cs k).any (atStop t)) = true then _ else reached t cs k) = _
    cases (cs.filter (atStop t)).isEmpty
    · cases (reached t cs k).any (atStop t) <;> rfl
    · rfl

section

variable (ht : t.Regular) (hcs : ∀ c ∈ cs, c.Settled t)

include hcs in
theorem settled_reached : ∀ c ∈ reached t cs k, c.Settled t := by
  have hmoved : ∀ c ∈ move t false cs k, c.dipped = false ∧ c.guard = none ∧ c.stack.Full :=
    forall_move (fun c hc _ _ _ _ => ⟨(hcs c hc).inside, (hcs c hc).unguarded, (hcs c hc).full⟩)
      fun c d hc hd _ => ⟨by simp [Config.merge, hc.1, hd.1], hc.2.1, hc.2.2.merge hd.2.2⟩
  have hfound := Scope.settled_closure (show (afterToken t k).unknown = false from rfl) hmoved
  rw [reached]
  split
  · exact fun c hc => hfound c (List.mem_filter.mp hc).1
  · exact hfound

include ht hcs

theorem shows_reached : Shows t false (reached t cs k) alt w ↔
    Shows t false cs alt (.after k w) ∧ (k = .eof → w = .ended) := by
  have hknown : (afterToken t k).Known := ⟨rfl, fun h => Bool.noConfusion h, ht.loops⟩
  have hfound : ∀ w, Shows t (decide (k = .eof))
      ((afterToken t k).closure (move t false cs k)).toConfigs alt w ↔
        Shows t false cs alt (.after k w) := by
    intro w
    rw [shows_after hcs]
    refine (Scope.shows_closure hknown ht.grounds fun c _ hguards => Bool.noConfusion hguards).trans ?_
    have hsights : ∀ c, (afterToken t k).Sights w (c, 0) ↔ c.Sees t (decide (k = .eof)) w :=
      fun c => Scope.sights_of_not_counts fun h => Bool.noConfusion h.1
    simp only [Scope.WorkShows, List.mem_map, exists_exists_and_eq_and, hsights]
  have hsettled := settled_reached hcs (k := k)
  rw [reached] at hsettled ⊢
  by_cases hk : k = .eof
  · simp only [hk, if_true, forall_const] at hsettled hfound ⊢
    rw [← hfound w]
    have hstop : ∀ c ∈ ((afterToken t .eof).closure (move t false cs .eof)).toConfigs,
        atStop t c = true → ∀ e w, c.Sees t e w ↔ w = .ended := by
      intro c hc hstop e w
      rcases (hsettled c (List.mem_filter.mpr ⟨hc, hstop⟩)).place with ⟨_, _, hedge⟩ | ⟨_, hroot⟩
      · rw [atStop, hedge] at hstop
        cases hstop
      · exact Config.sees_of_atStop hstop hroot
    constructor
    · rintro ⟨c, hc, halt, _, hs⟩
      obtain ⟨hc, hcstop⟩ := List.mem_filter.mp hc
      have hw := (hstop c hc hcstop _ _).mp hs
      exact ⟨⟨c, hc, halt, fun _ => hcstop, (hstop c hc hcstop _ _).mpr hw⟩, hw⟩
    · rintro ⟨⟨c, hc, halt, hcstop, hs⟩, hw⟩
      have hcstop := hcstop (by decide)
      exact ⟨c, List.mem_filter.mpr ⟨hc, hcstop⟩, halt, fun h => Bool.noConfusion h,
        (hstop c hc hcstop _ _).mpr hw⟩
  · simp only [hk, if_false, false_implies, and_true, decide_false] at hfound ⊢
    exact hfound w

omit ht in
/-- A choice is forced exactly if a step need not look beyond the token. -/
theorem forced_iff : Forced (Shows t false cs) k alt ↔
    ((cs.filter (atStop t)).isEmpty && k ≠ .eof) = true ∧
      unique (move t false cs k) = some alt := by
  simp only [Bool.and_eq_true, decide_eq_true_eq, List.isEmpty_iff, unique_eq_some]
  constructor
  · intro h
    obtain ⟨c, hc, _⟩ := (shows_reads hcs).mp ((h.reads alt).mpr rfl)
    refine ⟨⟨?_, h.token⟩, List.ne_nil_of_mem hc, fun d hd => ?_⟩
    · refine List.eq_nil_iff_forall_not_mem.mpr fun d hd => ?_
      exact h.unfinished d.alt ((shows_ended hcs).mpr ⟨d, hd, rfl⟩)
    · exact (h.reads d.alt).mp ((shows_reads hcs).mpr ⟨d, hd, rfl⟩)
  · rintro ⟨⟨hwaiting, hk⟩, hne, hall⟩
    refine ⟨hk, fun b hb => ?_, fun b => ?_⟩
    · obtain ⟨c, hc, _⟩ := (shows_ended hcs).mp hb
      rw [hwaiting] at hc
      cases hc
    · rw [shows_reads hcs]
      constructor
      · rintro ⟨d, hd, rfl⟩
        exact hall d hd
      · rintro rfl
        obtain ⟨c, hc⟩ := List.exists_mem_of_ne_nil _ hne
        exact ⟨c, hc, hall c hc⟩

omit ht in
/-- A step at which a choice is forced leaves this choice alone. -/
theorem unique_step (h : Forced (Shows t false cs) k alt) :
    unique (step t false cs k) = some alt := by
  obtain ⟨hwaiting, halt⟩ := (forced_iff hcs).mp h
  rw [step_eq, if_pos (by rw [hwaiting, halt]; rfl), halt]

/-- A step at which no choice is forced leaves a settled set, whose profile follows from that of the
set before. -/
theorem settled_step (h : ∀ alt, ¬ Forced (Shows t false cs) k alt) :
    (∀ c ∈ step t false cs k, c.Settled t) ∧
      ∀ alt w, Shows t false (step t false cs k) alt w ↔ Next (Shows t false cs) k alt w := by
  have hsettled := settled_reached hcs (k := k)
  have hshows : ∀ alt w, Shows t false (reached t cs k) alt w ↔ _ :=
    fun alt w => shows_reached ht hcs
  have hfree : ¬ ((cs.filter (atStop t)).isEmpty && k ≠ .eof &&
      (unique (move t false cs k)).isSome) = true := by
    rw [Bool.and_eq_true, Option.isSome_iff_exists]
    rintro ⟨hwaiting, alt, halt⟩
    exact h alt ((forced_iff hcs).mpr ⟨hwaiting, halt⟩)
  rw [step_eq, if_neg hfree]
  split
  · rename_i hcond
    refine ⟨hsettled, fun alt w => ?_⟩
    rw [hshows, Next, or_iff_left]
    rintro ⟨_, hended, hothers⟩
    rw [Bool.or_eq_true, List.isEmpty_iff, List.any_eq_true] at hcond
    rcases hcond with hwaiting | ⟨c, hc, hstop⟩
    · obtain ⟨c, hc, _⟩ := (shows_ended hcs).mp hended
      rw [hwaiting] at hc
      cases hc
    · have hended : Shows t false (reached t cs k) c.alt .ended :=
        (shows_ended hsettled).mpr ⟨c, List.mem_filter.mpr ⟨hc, hstop⟩, rfl⟩
      exact hothers c.alt ((hshows c.alt .ended).mp hended).1
  · rename_i hcond
    rw [Bool.or_eq_true, not_or, List.isEmpty_iff, Bool.not_eq_true, List.any_eq_false] at hcond
    have hwaiting : ∀ c ∈ cs.filter (atStop t), c.Settled t :=
      fun c hc => hcs c (List.mem_filter.mp hc).1
    have hmerge : ∀ c d : Config, c.Settled t → d.Settled t → c.key = d.key →
        (c.merge false d).Settled t := fun c d hc hd hkey => hc.merge hd hkey
    refine ⟨((Configs.each_empty.collect hsettled hmerge).collect hwaiting hmerge).of_mem,
      fun alt w => ?_⟩
    have hothers : ∀ b, ¬ Shows t false cs b (.after k .ended) := by
      intro b hb
      obtain ⟨c, hc, _⟩ := (shows_ended hsettled).mp ((hshows b .ended).mpr ⟨hb, fun _ => rfl⟩)
      obtain ⟨hc, hstop⟩ := List.mem_filter.mp hc
      exact hcond.2 c hc hstop
    have hreached : Configs.Keyed ((reached t cs k).foldl
        (fun (s : Configs) c => s.insertConfig false c) {}) :=
      Configs.each_empty.collect (fun _ _ => trivial) fun _ _ _ _ _ => trivial
    have hsplits := Configs.splits_shows (t := t) (e := false) alt w
    refine (Configs.meets_collect hsplits hreached).trans ?_
    rw [Configs.meets_collect hsplits Configs.each_empty, or_iff_right Configs.not_meets_empty]
    refine (or_congr (hshows alt w) (shows_stops hcs)).trans (or_congr_right ?_)
    exact and_congr_right fun _ => (and_iff_left hothers).symm

end

end Lookahead

end Callscope
