import Mathlib.Data.Finset.Card
import Callscope.Proofs.Parse.Outlook

/-!
# Every turn gets on

`reach` counts what is left of the text and, at the current token, the sites at which no rule has been
given up yet. No turn makes it grow. What a turn can do without making it smaller is bounded: either the
tasks of the frames take fewer steps than before, or the parser is on its way down to the current token,
which some task was unfolded for. In the second case each turn brings it nearer to that token, as long as
`reach` stays the same.
-/

namespace Callscope

namespace Task

section

variable (first : Rule → Look) (p : Pace)

/-- The steps for a task of which nothing is read. -/
def idle : Task → Nat
  | item i => Item.idle first p i
  | again _ => 1

def idleAll : List Task → Nat
  | [] => 0
  | task :: todo => idle first p task + idleAll todo

/-- The steps down to the first token of a task, as for items. -/
def descent (after : Nat) : Task → Nat
  | item i => Item.descent first p after i
  | again (.loop _ body) | again (.loopOnce _ body) =>
    max (Item.idleAll first p body + Item.descentAll first p 0 body) after + 1
  | again _ => after + 1

def descentAll : List Task → Nat
  | [] => 0
  | task :: todo => descent first p (if (look first task).ends then descentAll todo else 0) task

end

variable {first : Rule → Look} {t : Tables} {p : Pace} {task : Task} {todo new : List Task}

theorem idleAll_append (as bs : List Task) :
    idleAll first p (as ++ bs) = idleAll first p as + idleAll first p bs := by
  induction as with
  | nil => simp [idleAll]
  | cons task as ih => rw [List.cons_append, idleAll, idleAll, ih, Nat.add_assoc]

theorem idleAll_items (is : List Item) :
    idleAll first p (is.map item) = Item.idleAll first p is := by
  induction is with
  | nil => rfl
  | cons i is ih => rw [List.map_cons, idleAll, Item.idleAll, ih, idle]

theorem descentAll_items_append (is : List Item) (todo : List Task) :
    descentAll first p (is.map item ++ todo) =
      Item.descentAll first p (descentAll first p todo) is := by
  induction is with
  | nil => rfl
  | cons i is ih =>
    rw [List.map_cons, List.cons_append, descentAll, Item.descentAll, ih, descent, look]

theorem descentAll_items (is : List Item) :
    descentAll first p (is.map item) = Item.descentAll first p 0 is := by
  rw [← List.append_nil (is.map item), descentAll_items_append, descentAll]

theorem idle_pos (first : Rule → Look) (p : Pace) (task : Task) : 1 ≤ idle first p task := by
  cases task with
  | again i => exact Nat.le_refl 1
  | item i => cases i <;> simp only [idle, Item.idle] <;> omega

theorem Ends.look_ends (h : task.Ends) : (look first task).ends = true := by
  match task, h with
  | item (.loop ..), _ | item (.climb ..), _ => rfl
  | again i, _ => cases i <;> rfl

theorem Ends.descent (h : task.Ends) (first : Rule → Look) (p : Pace) (after : Nat) :
    after + 1 ≤ descent first p after task := by
  match task, h with
  | item (.loop ..), _ => exact Nat.succ_le_succ (Nat.le_max_right ..)
  | item (.climb ..), _ => exact Nat.le_refl _
  | again (.loop ..), _ | again (.loopOnce ..), _ => exact Nat.succ_le_succ (Nat.le_max_right ..)
  | again (.terminal ..), _ | again (.terminalOf ..), _ | again (.call ..), _
  | again (.branch ..), _ | again (.climb ..), _ => exact Nat.le_refl _

/-- A task becomes something that takes fewer steps if nothing is read, or something that begins with a
token. -/
theorem Unfolds.settles_or_begins (h : task.Unfolds new) {after : Look}
    (hlaid : task.subject.Laid t p after) :
    idleAll t.first p new < idle t.first p task ∨ ∃ is tail, new = is.map item ++ tail ∧
      Item.begins t.first p is = true ∧ idleAll t.first p tail ≤ idle t.first p task := by
  cases h with
  | skip ends => exact .inl (idle_pos _ _ task)
  | @alt site alts a mem =>
    rcases (Item.Laid.branch hlaid).begins a mem with hends | hbegins
    · refine .inl ?_
      rw [idleAll_items, idle, Item.idle]
      exact Nat.lt_succ_of_le (Item.idleAll_le_idleAlts mem hends)
    · exact .inr ⟨a, [], by simp, hbegins, Nat.zero_le _⟩
  | @round task body repeats =>
    exact .inr ⟨body, _, rfl, (laid_body hlaid repeats).2, idle_pos _ _ task⟩
  | @operator task site ops op climbs ends mem =>
    rw [climbs] at hlaid
    have hbegins := ((Item.Laid.climb hlaid).operator op mem).begins
    exact .inr ⟨op.2, _, rfl, hbegins, idle_pos _ _ task⟩

/-- A loop of one or more begins with its first round. -/
theorem Unfolds.eq_round {site : Nat} {body : List Item}
    (h : (item (.loopOnce site body)).Unfolds new) :
    new = body.map item ++ [again (.loopOnce site body)] := by
  generalize htask : item (.loopOnce site body) = task at h
  cases h with
  | skip ends =>
    rw [← htask] at ends
    exact ends.elim
  | alt mem => cases htask
  | round repeats =>
    cases htask
    cases repeats
    rfl
  | operator climbs ends mem =>
    rw [← htask] at climbs
    cases climbs

/-- The first round of a loop of one or more takes no more steps than the loop was to take. -/
theorem idleAll_round (first : Rule → Look) (p : Pace) (site : Nat) (body : List Item) :
    idleAll first p (body.map item ++ [again (.loopOnce site body)]) <
      idle first p (item (.loopOnce site body)) := by
  rw [idleAll_append, idleAll_items, idle, Item.idle]
  exact Nat.lt_succ_self _

/-- What a task becomes can be empty only if the task can. -/
theorem Unfolds.ends (h : task.Unfolds new) {after : Look} (hlaid : task.subject.Laid t p after)
    (hends : (lookAll t.first new).ends = true) : (look t.first task).ends = true := by
  cases h with
  | skip ends => exact ends.look_ends
  | alt mem =>
    rw [lookAll_items] at hends
    exact (Look.ofItems_below_ofAlts mem).2 hends
  | round repeats =>
    have hsolid := (Item.begins_iff.mp (laid_body hlaid repeats).2).1
    rw [lookAll_items_append, Look.andThen_of_not_ends hsolid, hsolid] at hends
    cases hends
  | operator climbs ends mem => exact ends.look_ends

/-- On the way down to a token, the steps saved are more than those that a task adds. Operators are not
met on the way, since what they follow can always end. -/
theorem Unfolds.nearer (h : task.Unfolds new) (hlaid : task.subject.Laid t p (lookAll t.first todo))
    (hneeded : (lookAll t.first (task :: todo)).ends = false) :
    idleAll t.first p new + descentAll t.first p (new ++ todo) <
      idle t.first p task + descentAll t.first p (task :: todo) := by
  rw [descentAll]
  cases h with
  | skip ends =>
    have hpos := idle_pos t.first p task
    have hdescent := ends.descent t.first p (descentAll t.first p todo)
    rw [if_pos ends.look_ends, List.nil_append, idleAll]
    omega
  | @alt site alts a mem =>
    have hle : Item.idleAll t.first p a + Item.descentAll t.first p (descentAll t.first p todo) a ≤
        Item.descentAlts t.first p
          (if (Look.ofAlts t.first alts).ends then descentAll t.first p todo else 0) alts := by
      split
      · exact Item.le_descentAlts mem _
      · rename_i hends
        have hsolid : (Look.ofItems t.first a).ends = false :=
          Bool.eq_false_iff.mpr fun ha => hends ((Look.ofItems_below_ofAlts mem).2 ha)
        rw [Item.descentAll_of_not_ends hsolid]
        exact Item.le_descentAlts mem 0
    rw [idleAll_items, descentAll_items_append, idle, Item.idle, descent, Item.descent, look,
      Look.ofItem]
    omega
  | @round task body repeats =>
    have hsolid := (Item.begins_iff.mp (laid_body hlaid repeats).2).1
    rw [List.append_assoc, idleAll_append, idleAll_items, descentAll_items_append,
      Item.descentAll_of_not_ends hsolid]
    obtain ⟨s, (rfl | rfl) | (rfl | rfl)⟩ := body_cases repeats <;>
      simp only [idleAll, idle, Item.idle, descent, Item.descent] <;> omega
  | operator climbs ends mem =>
    rw [climbs] at hlaid
    rw [lookAll, Look.ends_andThen, ends.look_ends, (Item.Laid.climb hlaid).ends] at hneeded
    cases hneeded

end Task

namespace Outlook

/-! ## Measures -/

/-- The sites at which a rule can still be given up at the current token without passing it. -/
def pending (t : Tables) (o : Outlook) : Nat :=
  if o.rest = [] then 0
  else if o.gaveUpAt = some o.current.index then
    (Finset.range t.looks.size \ o.gaveUpSites.toFinset).card
  else t.looks.size

/-- What is left of the text, and of the sites at the current token. -/
def reach (t : Tables) (o : Outlook) : Nat :=
  o.rest.length * (t.looks.size + 1) + o.pending t

/-- The steps for all tasks and the ends of all rules, if nothing more is read. -/
def cost (t : Tables) (p : Pace) (o : Outlook) : Nat :=
  Task.idleAll t.first p o.todo + 1 +
    (o.callers.map fun todo => Task.idleAll t.first p todo + 1).sum

/-- The parser is on its way down to the current token, which is not the end of the text. -/
structure Promised (t : Tables) (o : Outlook) : Prop where
  speaks : (Task.lookAll t.first o.todo).kinds.contains o.current.kind = true
  needed : (Task.lookAll t.first o.todo).ends = false
  more : o.rest ≠ []

variable {t : Tables} {p : Pace} {o o' : Outlook}

theorem pending_le (t : Tables) (o : Outlook) : o.pending t ≤ t.looks.size := by
  unfold pending
  split
  · exact Nat.zero_le _
  · split
    · exact (Finset.card_le_card Finset.sdiff_subset).trans_eq (Finset.card_range _)
    · exact Nat.le_refl _

theorem reach_lt_of_shorter (h : o'.rest.length < o.rest.length) : o'.reach t < o.reach t := by
  have hpending := pending_le t o'
  calc o'.reach t
      < o'.rest.length * (t.looks.size + 1) + (t.looks.size + 1) :=
        Nat.add_lt_add_left (Nat.lt_succ_of_le hpending) _
    _ = (o'.rest.length + 1) * (t.looks.size + 1) := (Nat.succ_mul ..).symm
    _ ≤ o.rest.length * (t.looks.size + 1) := Nat.mul_le_mul_right _ h
    _ ≤ o.reach t := Nat.le_add_right ..

/-- Giving a rule up at a new site leaves fewer sites at the current token. -/
theorem reach_giveUp {site : Nat} (hmore : o.rest ≠ []) (hplace : site < t.looks.size)
    (hfresh : o.rest ≠ [] → o.gaveUpAt = some o.current.index → site ∉ o.gaveUpSites) :
    reach t { o with
      todo := [], gaveUpAt := some o.current.index, gaveUpSites := site :: o.gaveUpSites } <
      o.reach t := by
  have hmem : site ∈ Finset.range t.looks.size := Finset.mem_range.mpr hplace
  have hnot : site ∉ Finset.range t.looks.size \ (site :: o.gaveUpSites).toFinset := by simp
  refine Nat.add_lt_add_left ?_ _
  rw [pending, if_neg hmore, if_pos rfl, pending, if_neg hmore]
  split
  · rename_i hat
    have hsite := hfresh hmore hat
    refine Finset.card_lt_card ⟨fun x hx => ?_, fun hsub => hnot (hsub ?_)⟩
    · simp only [Finset.mem_sdiff, List.mem_toFinset, List.mem_cons, not_or] at hx ⊢
      exact ⟨hx.1, hx.2.2⟩
    · simpa [hsite] using hmem
  · refine (Finset.card_lt_card ⟨Finset.sdiff_subset, fun hsub => hnot (hsub hmem)⟩).trans_eq ?_
    exact Finset.card_range _

/-- Only the tokens and where rules were given up count for the reach. -/
theorem reach_congr (hcurrent : o'.current = o.current) (hrest : o'.rest = o.rest)
    (hat : o'.gaveUpAt = o.gaveUpAt) (hsites : o'.gaveUpSites = o.gaveUpSites) :
    o'.reach t = o.reach t := by
  simp only [reach, pending, hcurrent, hrest, hat, hsites]

theorem reach_of_rest_nil (h : o.rest = []) : o.reach t = 0 := by
  simp [reach, pending, h]

theorem cost_of_todo (t : Tables) (p : Pace) (o o' : Outlook) {todo : List Task}
    (hcallers : o'.callers = o.callers) (htodo : o'.todo = todo) :
    o'.cost t p + Task.idleAll t.first p o.todo = o.cost t p + Task.idleAll t.first p todo := by
  simp only [cost, hcallers, htodo]
  omega

/-! ## Turns -/

theorem cost_read {task : Task} {todo : List Task} (next : o.todo = task :: todo)
    (hlaid : task.subject.Laid t p (Task.lookAll t.first todo)) (callers : o'.callers = o.callers)
    (left : o'.todo = [] ∨ o'.todo = todo ∨ ∃ new, task.Unfolds new ∧ o'.todo = new ++ todo) :
    o'.cost t p ≤ o.cost t p + p.cap := by
  have hpos := Task.idle_pos t.first p task
  rcases left with heq | heq | ⟨new, unfolds, heq⟩
  · have hcost := cost_of_todo t p o o' callers heq
    rw [Task.idleAll] at hcost
    omega
  · have hcost := cost_of_todo t p o o' callers heq
    rw [next, Task.idleAll] at hcost
    omega
  · have hcost := cost_of_todo t p o o' callers heq
    rw [next, Task.idleAll, Task.idleAll_append] at hcost
    rcases unfolds.settles_or_begins hlaid with hlt | ⟨is, tail, rfl, hbegins, htail⟩
    · omega
    · have hcap := (Item.begins_iff.mp hbegins).2.2
      rw [Task.idleAll_append, Task.idleAll_items] at hcost
      omega

/-- What a turn does from any state: it settles something, passes a token or gives up at a new site, or
starts on the way down to the current token. -/
theorem Turn.advances (hpaced : t.Paced p) (h : o.Turn t o') (hplan : o.Planned t p)
    (hend : o.rest = [] → o.current.kind = .eof) :
    o'.reach t ≤ o.reach t ∧ o'.cost t p < o.cost t p ∨
    o'.reach t < o.reach t ∧ o'.cost t p ≤ o.cost t p + p.cap ∨
    o'.Promised t ∧ o'.reach t ≤ o.reach t ∧
      o'.cost t p + Task.descentAll t.first p o'.todo ≤ o.cost t p + p.cap := by
  have hfirst := hplan o.todo List.mem_cons_self
  cases h with
  | leave done outer =>
    refine .inl ⟨Nat.le_of_eq (reach_congr rfl rfl rfl rfl), ?_⟩
    simp only [cost, done, outer, Task.idleAll, List.map_cons, List.sum_cons]
    omega
  | @enter site rule level label todo next =>
    have hidle := (hpaced.idle rule).1
    refine .inl ⟨Nat.le_of_eq (reach_congr rfl rfl rfl rfl), ?_⟩
    simp only [cost, next, Task.idleAll_items, Task.idleAll, Task.idle, Item.idle, List.map_cons,
      List.sum_cons]
    omega
  | @unfold task new todo next unfolds apt =>
    rw [next] at hfirst
    have hreach : reach t { o with todo := new ++ todo } ≤ o.reach t :=
      Nat.le_of_eq (reach_congr rfl rfl rfl rfl)
    have hcost := cost_of_todo t p o { o with todo := new ++ todo } rfl rfl
    rw [next, Task.idleAll, Task.idleAll_append] at hcost
    rcases unfolds.settles_or_begins hfirst.1 with hlt | ⟨is, tail, rfl, hbegins, htail⟩
    · exact .inl ⟨hreach, by omega⟩
    · obtain ⟨hsolid, heof, hcap⟩ := Item.begins_iff.mp hbegins
      have hlook : Task.lookAll t.first (is.map .item ++ tail ++ todo) =
          Look.ofItems t.first is := by
        rw [List.append_assoc, Task.lookAll_items_append, Look.andThen_of_not_ends hsolid]
      rcases apt with ⟨site, body, rfl⟩ | hadmits | ⟨hnil, _⟩
      · have hlt := Task.idleAll_round t.first p site body
        rw [← unfolds.eq_round] at hlt
        exact .inl ⟨hreach, by omega⟩
      · rw [hlook] at hadmits
        have hk : (Look.ofItems t.first is).kinds.contains o.current.kind = true :=
          hadmits.elim id fun he => absurd (he.symm.trans hsolid) (by decide)
        refine .inr (.inr ⟨⟨?_, ?_, fun hrest => ?_⟩, hreach, ?_⟩)
        · rw [hlook]
          exact hk
        · rw [hlook]
          exact hsolid
        · rw [hend hrest, heof] at hk
          cases hk
        · rw [List.append_assoc, Task.descentAll_items_append, Item.descentAll_of_not_ends hsolid]
          rw [Task.idleAll_append, Task.idleAll_items] at hcost
          rw [List.append_assoc] at hcost
          omega
      · have his : is = [] := by simpa using (List.append_eq_nil_iff.mp hnil).1
        rw [his, Look.ofItems] at hsolid
        cases hsolid
  | @missing i todo next needed absent =>
    have hpos := Task.idle_pos t.first p (.item i)
    have hcost := cost_of_todo t p o { o with todo } rfl (Eq.refl todo)
    rw [next, Task.idleAll] at hcost
    exact .inl ⟨Nat.le_of_eq (reach_congr rfl rfl rfl rfl), by omega⟩
  | @fit task todo next last =>
    have hpos := Task.idle_pos t.first p task
    have hcost := cost_of_todo t p o { o with todo, gaveUpAt := none, gaveUpSites := [] } rfl
      (Eq.refl todo)
    rw [next, Task.idleAll] at hcost
    rw [reach_of_rest_nil (o := { o with todo, gaveUpAt := none, gaveUpSites := [] }) last]
    exact .inl ⟨Nat.zero_le _, by omega⟩
  | @giveUp task todo site next place fresh =>
    have hpos := Task.idle_pos t.first p task
    have hcost := cost_of_todo t p o { o with
      todo := [], gaveUpAt := some o.current.index, gaveUpSites := site :: o.gaveUpSites } rfl rfl
    rw [next, Task.idleAll, Task.idleAll] at hcost
    refine .inl ⟨?_, by omega⟩
    by_cases hrest : o.rest = []
    · rw [reach_of_rest_nil (o := { o with
        todo := [], gaveUpAt := some o.current.index, gaveUpSites := site :: o.gaveUpSites }) hrest]
      exact Nat.zero_le _
    · exact Nat.le_of_lt (reach_giveUp hrest place fresh)
  | @read task todo o' next shorter callers left =>
    rw [next] at hfirst
    exact .inr (.inl ⟨reach_lt_of_shorter shorter, cost_read next hfirst.1 callers left⟩)

/-- What a turn does on the way down: it comes nearer, passes a token or gives up at a new site. -/
theorem Turn.descends (hpaced : t.Paced p) (h : o.Turn t o') (hplan : o.Planned t p)
    (hpromised : o.Promised t) :
    o'.reach t < o.reach t ∧ o'.cost t p ≤ o.cost t p + p.cap ∨
    o'.Promised t ∧ o'.reach t ≤ o.reach t ∧
      o'.cost t p + Task.descentAll t.first p o'.todo <
        o.cost t p + Task.descentAll t.first p o.todo := by
  obtain ⟨hspeaks, hneeded, hmore⟩ := hpromised
  have hfirst := hplan o.todo List.mem_cons_self
  cases h with
  | leave done outer =>
    rw [done] at hneeded
    cases hneeded
  | @enter site rule level label todo next =>
    have hidle := (hpaced.idle rule).1
    have hdescent := hpaced.descent rule
    rw [next] at hfirst hspeaks hneeded
    have hsteady := hfirst.1.steady
    simp only [Task.subject, Item.steady, Bool.or_eq_true, Bool.not_eq_true'] at hsteady
    -- A rule that can be empty stands only where the text may go on without it.
    have hsolid : (t.first rule).ends = false := by
      refine hsteady.elim id fun hends => ?_
      rw [Task.lookAll, Look.ends_andThen, hends, Bool.and_true] at hneeded
      exact hneeded
    have hlook : Task.lookAll t.first ((t.rule rule).items.map .item) = t.first rule := by
      rw [Task.lookAll_items, hpaced.first]
    refine .inr ⟨⟨?_, ?_, hmore⟩, Nat.le_of_eq (reach_congr rfl rfl rfl rfl), ?_⟩
    · rw [Task.lookAll, Task.look, Look.ofItem, Look.andThen_of_not_ends hsolid] at hspeaks
      rw [hlook]
      exact hspeaks
    · rw [hlook]
      exact hsolid
    · simp only [cost, next, Task.descentAll_items, Task.idleAll_items, Task.idleAll, Task.idle,
        Item.idle, Task.descentAll, Task.descent, Item.descent, List.map_cons, List.sum_cons]
      omega
  | @unfold task new todo next unfolds apt =>
    rw [next] at hfirst hspeaks hneeded
    have hcost := cost_of_todo t p o { o with todo := new ++ todo } rfl rfl
    rw [next, Task.idleAll, Task.idleAll_append] at hcost
    have hnearer := unfolds.nearer hfirst.1 hneeded
    have hneeded' : (Task.lookAll t.first (new ++ todo)).ends = false := by
      refine Bool.eq_false_iff.mpr fun hends => ?_
      rw [Task.lookAll_append, Look.ends_andThen, Bool.and_eq_true] at hends
      rw [Task.lookAll, Look.ends_andThen, unfolds.ends hfirst.1 hends.1, hends.2] at hneeded
      cases hneeded
    have hspeaks' : (Task.lookAll t.first (new ++ todo)).kinds.contains o.current.kind = true := by
      rcases apt with ⟨site, body, rfl⟩ | hadmits | ⟨_, hsilent⟩
      · have hsolid := (Item.begins_iff.mp (Task.laid_body hfirst.1 rfl).2).1
        rw [unfolds.eq_round, List.append_assoc, Task.lookAll_items_append,
          Look.andThen_of_not_ends hsolid]
        rw [Task.lookAll, Task.look, Look.ofItem, Look.andThen_of_not_ends hsolid] at hspeaks
        exact hspeaks
      · exact hadmits.elim id fun he => absurd (he.symm.trans hneeded') (by decide)
      · rw [hsilent] at hspeaks
        cases hspeaks
    refine .inr ⟨⟨hspeaks', hneeded', hmore⟩, Nat.le_of_eq (reach_congr rfl rfl rfl rfl), ?_⟩
    rw [next]
    dsimp only
    omega
  | @missing i todo next needed absent =>
    rw [next, Task.lookAll, Task.look, Look.andThen_of_not_ends needed, absent] at hspeaks
    cases hspeaks
  | fit next last => exact absurd last hmore
  | @giveUp task todo site next place fresh =>
    have hcost := cost_of_todo t p o { o with
      todo := [], gaveUpAt := some o.current.index, gaveUpSites := site :: o.gaveUpSites } rfl rfl
    rw [Task.idleAll] at hcost
    exact .inl ⟨reach_giveUp hmore place fresh, by omega⟩
  | @read task todo o' next shorter callers left =>
    rw [next] at hfirst
    exact .inl ⟨reach_lt_of_shorter shorter, cost_read next hfirst.1 callers left⟩

end Outlook

end Callscope
