import Callscope.Proofs.Outline.Atomicity
import Callscope.Proofs.Outline.Change

/-!
# Open classes are restored

The stack of open classes is a counter and a table. What keeps the two together is that no depth beyond
the counter is taken: then a class that is opened comes in at a new depth, at the end of the table, and
the entry that the end of the class takes out is that one. This needs nothing of the names, so classes
of one name and left-over classes of an earlier walk do not get in the way.
-/

namespace Callscope

/-- Whether a visit enters a method declaration. -/
def Visit.entersMethod : Visit → Bool
  | enter u _ => u.rule? = some .methodDeclaration
  | _ => false

/-- Whether a visit is the end of a class. -/
def Visit.endsClass : Visit → Bool
  | exit u _ => u.declaresClass
  | _ => false

namespace Collector

variable {c c' d : Collector} {t u : Tree} {around : List Tree}

/-! ## One change -/

/-- No depth is taken twice, and none beyond the counter. -/
structure Stacked (c : Collector) : Prop where
  unique : c.opened.keys.Nodup
  bounded : ∀ d ∈ c.opened.keys, d ≤ c.depth

theorem Update.open_classes (h : Update c c') : c'.opened = c.opened ∧ c'.depth = c.depth := by
  cases h <;> exact ⟨rfl, rfl⟩

namespace Stacked

theorem congr (h : Stacked c) (ho : c'.opened = c.opened ∧ c'.depth = c.depth) : Stacked c' := by
  refine ⟨?_, ?_⟩
  · rw [ho.1]
    exact h.unique
  · rw [ho.1, ho.2]
    exact h.bounded

/-- The next depth is free. -/
theorem free (h : Stacked c) : c.depth + 1 ∉ c.opened.keys := by
  intro hk
  have hle := h.bounded _ hk
  omega

/-- A class that is opened comes in at the end of the table. -/
theorem opened_opening (h : Stacked c) (head : ClassHead) :
    (c.opening head).opened = c.opened ++ [(c.depth + 1, c.pool.length)] :=
  Table.put_of_not_mem h.free _

theorem opening (h : Stacked c) (head : ClassHead) : Stacked (c.opening head) := by
  have hkeys : (c.opening head).opened.keys = c.opened.keys ++ [c.depth + 1] := by
    rw [h.opened_opening, Table.keys, List.map_append]
    rfl
  have hdepth : (c.opening head).depth = c.depth + 1 := rfl
  refine ⟨?_, fun k hk => ?_⟩
  · rw [hkeys]
    refine List.nodup_append.mpr ⟨h.unique, by simp, fun a ha b hb => ?_⟩
    rw [List.mem_singleton.mp hb]
    exact fun hab => h.free (hab ▸ ha)
  · rw [hkeys, List.mem_append, List.mem_singleton] at hk
    rw [hdepth]
    rcases hk with hk | rfl
    · have hle := h.bounded k hk
      omega
    · exact Int.le_refl _

theorem closing (h : Stacked c) : Stacked c.closing := by
  have hkeys : c.closing.opened.keys = c.opened.keys.erase c.depth := Table.keys_erase _ _
  have hdepth : c.closing.depth = c.depth - 1 := rfl
  refine ⟨hkeys ▸ h.unique.erase _, fun k hk => ?_⟩
  rw [hkeys, h.unique.mem_erase_iff] at hk
  have hle := h.bounded k hk.2
  have hne := hk.1
  rw [hdepth]
  omega

theorem change (h : Stacked c) (hc : Change c c') : Stacked c' := by
  cases hc with
  | updated update => exact h.congr update.open_classes
  | opened head named => exact h.opening head
  | closed inner => exact h.closing

theorem follow (h : Stacked c) (vs : List Visit) : Stacked (c.follow vs).collector :=
  follow_keeps (P := Stacked) (fun hv hs => hs.change (change_of_outcome hv)) vs h

/-! ## Walks -/

/-- The end of a class takes out what its beginning has put in, if all between the two leaves the open
classes as they were. -/
theorem closing_opening (h : Stacked c) {head : ClassHead}
    (hd : d.opened = (c.opening head).opened ∧ d.depth = (c.opening head).depth) :
    d.closing.opened = c.opened ∧ d.closing.depth = c.depth := by
  have hdepth : d.depth = c.depth + 1 := hd.2
  refine ⟨?_, ?_⟩
  · rw [Collector.closing, hd.1, hdepth, h.opened_opening]
    exact Table.erase_append_singleton h.free _
  · show d.depth - 1 = c.depth
    omega

/-- A walk that passes leaves the open classes as they were. -/
theorem passes (h : Stacked c) (hp : Passes c (t.visits around) c') :
    c'.opened = c.opened ∧ c'.depth = c.depth := by
  refine passes_rec (R := fun c c' => Stacked c → c'.opened = c.opened ∧ c'.depth = c.depth)
    (fun _ _ => ⟨rfl, rfl⟩) ?_ ?_ t hp h
  · intro a b c hab hbc ha
    have hb := hab ha
    have hc := hbc (ha.congr hb)
    exact ⟨hc.1.trans hb.1, hc.2.trans hb.2⟩
  · intro t around c d e c' hd hin he h
    cases ht : t.declaresClass with
    | false =>
      have henter := (update_of_enter ht hd).open_classes
      have hinner := hin (h.congr henter)
      have hexit := (update_of_exit ht he).open_classes
      exact ⟨hexit.1.trans (hinner.1.trans henter.1), hexit.2.trans (hinner.2.trans henter.2)⟩
    | true =>
      rw [outcome_enterClass ht] at hd
      obtain ⟨head, _, hd⟩ := Noted.bind_eq_ok.mp hd
      cases hd
      rw [outcome_exitClass ht] at he
      obtain ⟨_, _, he⟩ := Noted.bind_eq_ok.mp he
      obtain ⟨_, _, he⟩ := Noted.bind_eq_ok.mp he
      cases he
      exact h.closing_opening (hin (h.opening head))

theorem passesAll (h : Stacked c) {ts : List Tree} (hp : Passes c (Tree.visitsAll around ts) c') :
    c'.opened = c.opened ∧ c'.depth = c.depth := by
  induction ts generalizing c with
  | nil =>
    rw [visitsAll_nil, passes_nil] at hp
    exact hp ▸ ⟨rfl, rfl⟩
  | cons t ts ih =>
    obtain ⟨d, ht, hts⟩ := passes_visitsAll_cons.mp hp
    have hd := h.passes ht
    have hc := ih (h.congr hd) hts
    exact ⟨hc.1.trans hd.1, hc.2.trans hd.2⟩

end Stacked

/-- A walk that enters a method declaration ends outside of any method, and another one in the method in
which it began. -/
theorem method_of_visits (t : Tree) : ∀ {around c c'}, Passes c (t.visits around) c' →
    c'.method = if (t.visits around).any Visit.entersMethod then none else c.method := by
  induction t using forest_induction (Q := fun ts =>
    ∀ {around c c'}, Passes c (Tree.visitsAll around ts) c' → c'.method =
      if (Tree.visitsAll around ts).any Visit.entersMethod then none else c.method) with
  | hleaf t ht =>
    intro around c c' hp
    rw [passes_leaf ht] at hp
    rw [visits_leaf ht, hp]
    rfl
  | hnode r first last labels children ih =>
    intro around c c' hp
    obtain ⟨d, e, hd, hchildren, he⟩ := passes_node.mp hp
    rw [method_of_exit he, ih hchildren, visits_node, List.any_cons, List.any_append]
    by_cases hr : (Tree.node r first last labels children).rule? = some .methodDeclaration
    · simp [Visit.entersMethod, hr]
    · rw [if_neg hr, method_of_enter hr hd]
      simp [Visit.entersMethod, hr]
  | @hnil around c c' hp =>
    rw [visitsAll_nil, passes_nil] at hp
    rw [visitsAll_nil, hp]
    rfl
  | @hcons t ts iht ihts around c c' hp =>
    obtain ⟨d, ht, hts⟩ := passes_visitsAll_cons.mp hp
    rw [ihts hts, iht ht, visitsAll_cons, List.any_append]
    cases (Tree.visitsAll around ts).any Visit.entersMethod <;> simp

/-! ## Matching visits -/

/-- A member of two lists one after the other is in one of them. -/
theorem split_append {α : Type} {xs ys before after : List α} {a : α}
    (h : xs ++ ys = before ++ a :: after) :
    (∃ rest, xs = before ++ a :: rest) ∨ ∃ more, before = xs ++ more ∧ ys = more ++ a :: after := by
  rcases List.append_eq_append_iff.mp h with ⟨more, hbefore, hys⟩ | ⟨rest, hxs, hafter⟩
  · exact .inr ⟨more, hbefore, hys⟩
  · cases rest with
    | nil => exact .inr ⟨[], by simpa using hxs.symm, by simpa using hafter.symm⟩
    | cons b rest =>
      obtain ⟨rfl, _⟩ := List.cons.inj hafter
      exact .inl ⟨rest, hxs⟩

/-- Before the exit of a node come the visits of its parts, and before those the node is entered. -/
theorem enter_before_exit {u : Tree} {above : List Tree} (t : Tree) : ∀ {around before after},
    t.visits around = before ++ .exit u above :: after →
      ∃ earlier, before = earlier ++ .enter u above :: Tree.visitsAll (u :: above) u.children := by
  induction t using forest_induction (Q := fun ts => ∀ {around before after},
    Tree.visitsAll around ts = before ++ .exit u above :: after →
      ∃ earlier, before = earlier ++ .enter u above :: Tree.visitsAll (u :: above) u.children) with
  | hleaf t ht =>
    intro around before after h
    have hmem : .exit u above ∈ [Visit.leaf t] := by
      rw [← visits_leaf ht around, h]
      simp
    cases List.mem_singleton.mp hmem
  | hnode r first last labels children ih =>
    intro around before after h
    rw [visits_node] at h
    rcases List.cons_eq_append_iff.mp h with ⟨_, hx⟩ | ⟨before, rfl, hx⟩
    · cases hx
    · rcases split_append hx with ⟨rest, hin⟩ | ⟨more, rfl, hlast⟩
      · obtain ⟨earlier, rfl⟩ := ih hin
        exact ⟨_ :: earlier, rfl⟩
      · -- The exit is that of the node itself.
        have hmore : more = [] := by
          cases more with
          | nil => rfl
          | cons v more =>
            have hlength := congrArg List.length hlast
            simp at hlength
        subst hmore
        cases hlast
        exact ⟨[], by simp [Tree.children]⟩
  | @hnil around before after h =>
    rw [visitsAll_nil] at h
    simp at h
  | @hcons t ts iht ihts around before after h =>
    rw [visitsAll_cons] at h
    rcases split_append h with ⟨rest, ht⟩ | ⟨more, rfl, hts⟩
    · exact iht ht
    · obtain ⟨earlier, rfl⟩ := ihts hts
      exact ⟨t.visits around ++ earlier, by simp⟩

/-- When a declaration ends, the class that is closed is the one that was opened when it was entered. -/
theorem Stacked.exit_closes (h : Stacked c) (ht : u.declaresClass = true)
    (hb : c.outcome (.enter u around) = .ok c')
    (hp : Passes c' (Tree.visitsAll (u :: around) u.children) d) :
    c'.opened = c.opened ++ [(c.depth + 1, c.pool.length)] ∧ d.innermost = .ok c.pool.length ∧
      ∃ e, d.outcome (.exit u around) = .ok e ∧ e.opened = c.opened ∧ e.depth = c.depth := by
  rw [outcome_enterClass ht] at hb
  obtain ⟨head, hhead, hb⟩ := Noted.bind_eq_ok.mp hb
  cases hb
  have hkept := (h.opening head).passesAll hp
  have hinner : d.innermost = .ok c.pool.length := by
    have hget : (c.opening head).opened.get? (c.opening head).depth = some c.pool.length := by
      show (c.opened.put (c.depth + 1) c.pool.length).get? (c.depth + 1) = some c.pool.length
      rw [Table.get?_put, if_pos rfl]
    rw [innermost, hkept.1, hkept.2, hget]
  obtain ⟨second, hsecond, _⟩ := Noted.bind_eq_ok.mp (result_classHead c u ▸ hhead)
  refine ⟨h.opened_opening head, hinner, d.closing, ?_, h.closing_opening hkept⟩
  rw [outcome_exitClass ht, hsecond, hinner]
  rfl

/-- A walk that ends without a fault leaves the same classes open at the same depths, whatever was open
when it began, and the same method unless it entered one. In every walk, also in one that a fault cuts
short later on, the end of a class closes the class that was made when the same declaration was
entered. -/
theorem walk_restores_open_classes (t : Tree) (c : Collector) (hunique : c.opened.keys.Nodup)
    (hdepths : ∀ d, d ∈ c.opened.keys ↔ 1 ≤ d ∧ d ≤ c.depth) :
    ((c.collect t).fault = none →
      (c.collect t).collector.depth = c.depth ∧ (c.collect t).collector.opened = c.opened ∧
      (c.collect t).collector.method =
        if t.walk.any Visit.entersMethod then none else c.method) ∧
    ∀ before u around after, t.walk = before ++ .exit u around :: after →
      u.declaresClass = true → (c.follow before).fault = none →
      ∃ earlier, before = earlier ++ .enter u around :: Tree.visitsAll (u :: around) u.children ∧
        let start := (c.follow earlier).collector
        let entered := (c.follow (earlier ++ [.enter u around])).collector
        let ended := (c.follow (before ++ [.exit u around])).collector
        entered.opened = start.opened ++ [(start.depth + 1, start.pool.length)] ∧
        (c.follow before).collector.innermost = .ok start.pool.length ∧
        (c.follow (before ++ [.exit u around])).fault = none ∧
        ended.opened = start.opened ∧ ended.depth = start.depth := by
  have hstacked : Stacked c := ⟨hunique, fun d hd => ((hdepths d).mp hd).2⟩
  refine ⟨fun hfault => ?_, fun before u around after hwalk ht hpass => ?_⟩
  · have hp : Passes c (t.visits []) (c.collect t).collector := ⟨hfault, rfl⟩
    obtain ⟨hopened, hdepth⟩ := hstacked.passes hp
    exact ⟨hdepth, hopened, method_of_visits t hp⟩
  · obtain ⟨earlier, rfl⟩ := enter_before_exit t hwalk
    have hbefore := passes_append.mp ⟨hpass, rfl⟩
    obtain ⟨start, hearlier, hrest⟩ := hbefore
    obtain ⟨entered, hentered, hinner⟩ := passes_cons.mp hrest
    have hstart : Stacked start := hearlier.2 ▸ hstacked.follow earlier
    obtain ⟨hopened, hinnermost, ended, hended, hrestored⟩ := hstart.exit_closes ht hentered hinner
    have henter : Passes c (earlier ++ [.enter u around]) entered :=
      passes_append.mpr ⟨start, hearlier, passes_cons.mpr ⟨entered, hentered, passes_nil.mpr rfl⟩⟩
    have hexit : Passes c (earlier ++ .enter u around :: Tree.visitsAll (u :: around) u.children ++
        [.exit u around]) ended :=
      passes_append.mpr ⟨_, ⟨hpass, rfl⟩, passes_cons.mpr ⟨ended, hended, passes_nil.mpr rfl⟩⟩
    refine ⟨earlier, rfl, ?_⟩
    simp only [hearlier.2, henter.2, hexit.2]
    exact ⟨hopened, hinnermost, hexit.1, hrestored⟩

open Callscope.Tree in
/-- A class that a broken-off walk has left open stays open through a walk over two classes of its name,
the second of them inside of the first, and the end of one of these closes what it has opened. -/
theorem walk_restores_open_classes_left_over :
    let c := (collect {} classAroundEnum).collector
    let t := unitOf [classOf "A" [methodOf "m" [] [calling "f"], classOf "A" []]]
    (c.opened = [(1, 0)] ∧ c.depth = 1 ∧ c.opened.keys.Nodup ∧
      ∀ d, d ∈ c.opened.keys ↔ 1 ≤ d ∧ d ≤ c.depth) ∧
    ((c.collect t).fault = none ∧ (c.collect t).collector.opened = [(1, 0)] ∧
      (c.collect t).collector.depth = 1 ∧ (c.collect t).collector.method = none) ∧
    ∃ before u around after earlier, t.walk = before ++ .exit u around :: after ∧
      u.declaresClass = true ∧ (c.follow before).fault = none ∧
      before = earlier ++ .enter u around :: visitsAll (u :: around) u.children ∧
      (c.follow before).collector.innermost = .ok (c.follow earlier).collector.pool.length := by
  intro c t
  have hopened : c.opened = [(1, 0)] := by decide +kernel
  have hdepth : c.depth = 1 := by decide +kernel
  have hunique : c.opened.keys.Nodup := by
    rw [hopened]
    decide
  have hdepths : ∀ d, d ∈ c.opened.keys ↔ 1 ≤ d ∧ d ≤ c.depth := by
    intro d
    have hkeys : c.opened.keys = [1] := by rw [hopened]; rfl
    rw [hkeys, hdepth, List.mem_singleton]
    omega
  have hfault : (c.collect t).fault = none := by decide +kernel
  have hmethod : t.walk.any Visit.entersMethod = true := by decide +kernel
  have hends : t.walk.any Visit.endsClass = true := by decide +kernel
  obtain ⟨hrestored, hclosed⟩ := walk_restores_open_classes t c hunique hdepths
  obtain ⟨hd, ho, hm⟩ := hrestored hfault
  refine ⟨⟨hopened, hdepth, hunique, hdepths⟩,
    ⟨hfault, ho.trans hopened, hd.trans hdepth, by rw [hm, if_pos hmethod]⟩, ?_⟩
  obtain ⟨v, hv, hclass⟩ := List.any_eq_true.mp hends
  obtain ⟨before, after, hwalk⟩ := List.append_of_mem hv
  cases v with
  | enter | leaf => cases hclass
  | exit u around =>
    obtain ⟨_, hbefore, _⟩ := passes_append.mp (hwalk ▸ (⟨hfault, rfl⟩ : Passes c t.walk _))
    obtain ⟨earlier, hearlier, _, hinnermost, _⟩ :=
      hclosed before u around after hwalk hclass hbefore.1
    exact ⟨before, u, around, after, earlier, hwalk, hclass, hbefore.1, hearlier, hinnermost⟩

end Collector

end Callscope
