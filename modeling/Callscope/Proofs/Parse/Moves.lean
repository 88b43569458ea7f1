import Callscope.Parse.Machine

/-!
# Steps without a report

A report is never taken back, so a run that ends without one made none on the way. What a step does in
such a run is much less than what it can do: a token fits, a rule is begun or ended, or a decision is
taken. `Moves` lists these steps, and `step_moves` shows that every other step reports something.
-/

namespace Callscope

namespace Task

/-- The item that a task is about. -/
def subject : Task → Item
  | item i | again i => i

/-- What is repeated by a loop. -/
def body? : Task → Option (List Item)
  | item (.loop _ body) | again (.loop _ body) => some body
  | item (.loopOnce _ body) | again (.loopOnce _ body) => some body
  | _ => none

/-- The task can be ended with nothing more read. -/
def Ends : Task → Prop
  | item (.loop ..) | item (.climb ..) | again _ => True
  | item _ => False

end Task

namespace Machine

variable {a : Lookahead.Automata} {m m' : Machine}

/-! ## Reports -/

/-- Something has been reported. -/
def Flagged (m : Machine) : Prop := m.reports ≠ []

/-- Recovery is always from something reported. -/
def Honest (m : Machine) : Prop := m.recovering = true → m.Flagged

theorem Flagged.honest (h : m.Flagged) : m.Honest := fun _ => h

@[simp] theorem reports_setTodo (m : Machine) (todo : List Task) :
    (m.setTodo todo).reports = m.reports := rfl

@[simp] theorem reports_fitted (m : Machine) : m.fitted.reports = m.reports := rfl

@[simp] theorem reports_addLeaf (m : Machine) (t : Tree) : (m.addLeaf t).reports = m.reports := rfl

@[simp] theorem reports_setLabel (m : Machine) (l : Option Label) (text : String) :
    (m.setLabel l text).reports = m.reports := by
  cases l <;> rfl

@[simp] theorem reports_advance (m : Machine) : m.advance.reports = m.reports := by
  unfold advance
  split <;> rfl

@[simp] theorem reports_take (m : Machine) : m.take.reports = m.reports := by
  rw [take, reports_advance, reports_addLeaf]

@[simp] theorem recovering_setLabel (m : Machine) (l : Option Label) (text : String) :
    (m.setLabel l text).recovering = m.recovering := by
  cases l <;> rfl

@[simp] theorem recovering_take (m : Machine) : m.take.recovering = m.recovering := by
  rw [take, advance]
  split <;> rfl

@[simp] theorem reports_askFor (m : Machine) (p : Problem) :
    (m.askFor p).reports = m.reports := by
  unfold askFor
  split
  · split <;> rfl
  · rfl

@[simp] theorem reports_skipUntil (s : KindSet) (ts : List Token) (m : Machine) :
    (skipUntil s ts m).reports = m.reports := by
  induction ts generalizing m with
  | nil => rfl
  | cons t ts ih =>
    rw [skipUntil]
    split
    · rfl
    · rw [ih, reports_take]

/-! ## What reports something -/

theorem Honest.report (h : m.Honest) (t : Token) (p : Problem) : (m.report t p).Flagged := by
  unfold Machine.report
  split
  · rename_i hr
    exact h hr
  · exact List.cons_ne_nil _ _

theorem Honest.giveUp (h : m.Honest) (site : Nat) (t : Token) (p : Problem) :
    (m.giveUp a site t p).Flagged := by
  have hreport := h.report t p
  simp only [Flagged, Machine.giveUp, skipTo, reports_skipUntil] at hreport ⊢
  split
  · rw [reports_take]
    exact hreport
  · exact hreport

theorem Honest.dropExtra (h : m.Honest) {site : Nat} (hd : m.dropExtra a site = some m') :
    m'.Flagged := by
  have hdropped : ∀ n : Machine, n.Honest → ∀ p, (n.report n.current p).take.fitted.Flagged := by
    intro n hn p
    rw [Flagged, reports_fitted, reports_take]
    exact hn.report _ _
  simp only [Machine.dropExtra] at hd
  split at hd
  · split at hd
    · exact Option.some.inj hd ▸ hdropped m h _
    · cases hd
  · split at hd
    · exact Option.some.inj hd ▸ hdropped (m.ask _) h _
    · cases hd

theorem Honest.supplyMissing (h : m.Honest) {site : Nat} {k : Kind}
    (hs : m.supplyMissing a site = some (m', k)) : m'.Flagged := by
  simp only [Machine.supplyMissing] at hs
  split at hs
  · cases hs
    exact h.report _ _
  · cases hs

theorem Honest.syncEntry (h : m.Honest) {site : Nat} (hs : m.syncEntry a site = .ok m') :
    m'.Flagged ∨ m' = m := by
  simp only [Machine.syncEntry] at hs
  split at hs
  · cases hs
    exact .inr rfl
  · split at hs
    · rename_i hd
      cases hs
      exact .inl (h.dropExtra hd)
    · cases hs

theorem Honest.syncAgain (h : m.Honest) (site : Nat) :
    (m.syncAgain a site).Flagged ∨ m.syncAgain a site = m := by
  simp only [Machine.syncAgain]
  split
  · exact .inr rfl
  · refine .inl ?_
    rw [Flagged, skipTo, reports_skipUntil]
    exact h.report _ _

theorem ask_zero (m : Machine) : m.ask 0 = m := by
  rw [ask, Nat.max_zero]

theorem ask_ask (m : Machine) (j k : Nat) : (m.ask j).ask k = m.ask (max j k) := by
  simp only [ask, Nat.max_assoc]

/-- The end of a rule hands its phrase to the caller. -/
theorem exists_of_leave (h : m.leave = .inl m') : ∃ caller callers labels,
    m.callers = caller :: callers ∧
      m' = { m with frame := { caller with read := m.close :: caller.read, labels }, callers } := by
  unfold leave at h
  split at h
  · cases h
  · rename_i caller callers hcallers
    cases h
    split
    · exact ⟨caller, callers, caller.labels, hcallers, rfl⟩
    · exact ⟨caller, callers, _, hcallers, rfl⟩

/-- A decision changes nothing but which tokens have been asked for. -/
theorem decideAt_ok {site : Nat} {otherwise : Option Nat} {i : Nat}
    (h : m.decideAt a site otherwise = .ok (m', i)) : ∃ k, m' = m.ask k := by
  unfold decideAt at h
  split at h
  · cases h
    exact ⟨0, (ask_zero m).symm⟩
  · split at h
    · split at h
      · cases h
        exact ⟨0, (ask_zero m).symm⟩
      · cases h
    · dsimp only at h
      split at h
      · cases h
        exact ⟨_, rfl⟩
      · cases h

/-! ## Steps that report nothing -/

/-- What a step does when it reports nothing. -/
inductive Moves (a : Lookahead.Automata) (m : Machine) : Machine → Prop
  | leave {m' : Machine} (done : m.frame.todo = []) (left : m.leave = .inl m') : Moves a m m'
  | terminal {site : Nat} {label : Option Label} {todo : List Task}
      (next : m.frame.todo = .item (.terminal site m.current.kind label) :: todo) :
      Moves a m ((m.setTodo todo).fitted.take.setLabel label m.current.text)
  | terminalOf {site : Nat} {kinds : List Kind} {label : Option Label} {todo : List Task}
      (next : m.frame.todo = .item (.terminalOf site kinds label) :: todo)
      (fits : m.current.kind ∈ kinds) :
      Moves a m ((m.setTodo todo).setLabel label m.current.text).fitted.take
  | call {site : Nat} {rule : Rule} {level : Nat} {label : Option Label} {todo : List Task}
      (next : m.frame.todo = .item (.call site rule level label) :: todo) :
      Moves a m ((m.setTodo todo).enter a site rule level label)
  | branch {site i : Nat} {alts : List (List Item)} {todo : List Task} {m' : Machine}
      (next : m.frame.todo = .item (.branch site alts) :: todo)
      (decided : (m.setTodo todo).decideAt a site
        (if (alts.getLastD [default]).isEmpty then some (alts.length - 1) else none) = .ok (m', i)) :
      Moves a m (m'.setTodo ((alts.getD i []).map .item ++ todo))
  | round {task : Task} {body : List Item} {todo : List Task}
      (next : m.frame.todo = task :: todo) (repeats : task.body? = some body) (k : Nat) :
      Moves a m ((m.ask k).setTodo (body.map .item ++ .again task.subject :: todo))
  | pass {task : Task} {todo : List Task} (next : m.frame.todo = task :: todo)
      (ends : task.Ends) (k : Nat)
      (declined : ∀ site ops, task.subject = .climb site ops → ∃ m₁ i,
        (m.setTodo todo).decideAt a site none = .ok (m₁, i) ∧ i ≠ 0) :
      Moves a m ((m.ask k).setTodo todo)
  | operator {task : Task} {site k : Nat} {ops : List (Nat × List Item)} {op : Nat × List Item}
      {todo : List Task} (next : m.frame.todo = task :: todo)
      (climbs : task.subject = .climb site ops)
      (taken : ∃ m₁, (m.setTodo todo).decideAt a site none = .ok (m₁, 0))
      (chosen : ops = [op] ∨ ∃ (j : Nat) (m₂ : Machine) (i : Nat),
        ((m.setTodo todo).ask j).decideAt a (site + 2) none = .ok (m₂, i) ∧ op = ops.getD i default)
      (reaches : m.frame.level ≤ op.1) :
      Moves a m ((m.ask k).wrap.setTodo (op.2.map .item ++ .again task.subject :: todo))

theorem Moves.reports (h : Moves a m m') : m'.reports = m.reports := by
  cases h with
  | leave done left =>
    obtain ⟨caller, callers, labels, _, rfl⟩ := exists_of_leave left
    rfl
  | terminal next => simp
  | terminalOf next fits => simp
  | call next => rfl
  | branch next decided =>
    obtain ⟨k, rfl⟩ := decideAt_ok decided
    rfl
  | round | pass | operator => rfl

theorem Moves.honest (h : Moves a m m') (hm : m.Honest) : m'.Honest := by
  intro hr
  rw [Flagged, h.reports]
  refine hm ?_
  cases h with
  | leave done left =>
    obtain ⟨caller, callers, labels, _, rfl⟩ := exists_of_leave left
    exact hr
  | terminal next => simp [fitted] at hr
  | terminalOf next fits => simp [fitted] at hr
  | call next => exact hr
  | branch next decided =>
    obtain ⟨k, rfl⟩ := decideAt_ok decided
    exact hr
  | round | pass | operator => exact hr

/-- The rules that have been begun and not ended and their levels, innermost first. -/
def begun (m : Machine) : List (Rule × Nat) :=
  (m.frame :: m.callers).map fun f => (f.rule, f.level)

@[simp] theorem begun_setLabel (m : Machine) (l : Option Label) (text : String) :
    (m.setLabel l text).begun = m.begun := by
  cases l <;> rfl

@[simp] theorem begun_take (m : Machine) : m.take.begun = m.begun := by
  rw [take, advance]
  split <;> rfl

/-- The outermost rule stays the same. -/
theorem Moves.outermost (h : Moves a m m') : m'.begun.getLast? = m.begun.getLast? := by
  cases h with
  | leave done left =>
    obtain ⟨caller, callers, labels, hcallers, rfl⟩ := exists_of_leave left
    rw [begun, begun, hcallers, List.map_cons, List.map_cons, List.map_cons, List.getLast?_cons_cons]
  | terminal next =>
    rw [begun_setLabel, begun_take]
    rfl
  | terminalOf next fits =>
    rw [begun_take]
    exact congrArg List.getLast? (begun_setLabel _ _ _)
  | call next => exact List.getLast?_cons_cons
  | branch next decided =>
    obtain ⟨k, rfl⟩ := decideAt_ok decided
    rfl
  | round | pass | operator => rfl

/-! ## Every other step reports something -/

theorem Honest.stepTerminal (h : m.Honest) (site : Nat) (kind : Kind) (label : Option Label) :
    (m.stepTerminal a site kind label).Flagged ∨ m.current.kind = kind ∧
      m.stepTerminal a site kind label = m.fitted.take.setLabel label m.current.text := by
  unfold Machine.stepTerminal
  split
  · rename_i hkind
    exact .inr ⟨hkind, rfl⟩
  · refine .inl ?_
    split
    · rename_i hd
      rw [Flagged, reports_setLabel, reports_take]
      exact h.dropExtra hd
    · split
      · rename_i hs
        rw [Flagged, reports_setLabel, reports_addLeaf]
        exact h.supplyMissing hs
      · exact h.giveUp _ _ _

theorem Honest.stepTerminalOf (h : m.Honest) (site : Nat) (kinds : List Kind)
    (label : Option Label) :
    (m.stepTerminalOf a site kinds label).Flagged ∨ m.current.kind ∈ kinds ∧
      m.stepTerminalOf a site kinds label = (m.setLabel label m.current.text).fitted.take := by
  have hcurrent : (m.setLabel label m.current.text).current = m.current := by cases label <;> rfl
  have hlabelled : (m.setLabel label m.current.text).Honest := by
    intro hr
    rw [Flagged, reports_setLabel]
    exact h (by rwa [recovering_setLabel] at hr)
  simp only [Machine.stepTerminalOf, hcurrent]
  split
  · rename_i hkind
    exact .inr ⟨by simpa using hkind, rfl⟩
  · refine .inl ?_
    split
    · rename_i hd
      rw [Flagged, reports_setLabel, reports_take]
      exact hlabelled.dropExtra hd
    · split
      · rename_i hs
        rw [Flagged, reports_setLabel]
        exact hlabelled.supplyMissing hs
      · exact hlabelled.giveUp _ _ _

/-- One more round of a loop, or its end. -/
theorem Honest.stepRepeat (h : m.Honest) (here site : Nat) (loop : Item) (body : List Item)
    (todo : List Task) :
    (m.stepRepeat a here site loop body todo).Flagged ∨ ∃ k,
      m.stepRepeat a here site loop body todo =
          (m.ask k).setTodo (body.map .item ++ .again loop :: todo) ∨
        m.stepRepeat a here site loop body todo = (m.ask k).setTodo todo := by
  unfold Machine.stepRepeat
  split
  · exact .inl (h.giveUp _ _ _)
  · rename_i hd
    obtain ⟨k, rfl⟩ := decideAt_ok hd
    exact .inr ⟨k, .inl rfl⟩
  · rename_i hd
    obtain ⟨k, rfl⟩ := decideAt_ok hd
    exact .inr ⟨k, .inr rfl⟩

theorem Flagged.stepRepeat (h : m.Flagged) (here site : Nat) (loop : Item) (body : List Item)
    (todo : List Task) : (m.stepRepeat a here site loop body todo).Flagged := by
  rcases h.honest.stepRepeat (a := a) here site loop body todo with hf | ⟨k, heq | heq⟩
  · exact hf
  · rw [heq]
    exact h
  · rw [heq]
    exact h

/-- An operator is taken only if it binds strongly enough. -/
theorem Honest.stepOperator (h : m.Honest) (loop : Item) (op : Nat × List Item)
    (todo : List Task) :
    (m.stepOperator a loop op todo).Flagged ∨ m.frame.level ≤ op.1 ∧
      m.stepOperator a loop op todo =
        m.wrap.setTodo (op.2.map .item ++ .again loop :: todo) := by
  unfold Machine.stepOperator
  dsimp only
  split
  · rename_i hlevel
    exact .inr ⟨hlevel, rfl⟩
  · exact .inl (Honest.giveUp (m := m.wrap) h _ _ _)

theorem Flagged.stepOperator (h : m.Flagged) (loop : Item) (op : Nat × List Item)
    (todo : List Task) : (m.stepOperator a loop op todo).Flagged := by
  rcases h.honest.stepOperator (a := a) loop op todo with hf | ⟨_, heq⟩
  · exact hf
  · rw [heq]
    exact h

/-- One more operator, or the end of the rule. -/
theorem Honest.stepClimb (h : m.Honest) (here site : Nat) (ops : List (Nat × List Item))
    (todo : List Task) :
    (m.stepClimb a here site ops todo).Flagged ∨ ∃ m₁ i k, m.decideAt a site none = .ok (m₁, i) ∧
      (i ≠ 0 ∧ m.stepClimb a here site ops todo = (m.ask k).setTodo todo ∨
        i = 0 ∧ ∃ op, (ops = [op] ∨ ∃ (j : Nat) (m₂ : Machine) (i : Nat),
            (m.ask j).decideAt a (site + 2) none = .ok (m₂, i) ∧ op = ops.getD i default) ∧
          m.frame.level ≤ op.1 ∧ m.stepClimb a here site ops todo =
            (m.ask k).wrap.setTodo (op.2.map .item ++ .again (.climb site ops) :: todo)) := by
  unfold Machine.stepClimb
  split
  · exact .inl (h.giveUp _ _ _)
  · rename_i hd
    obtain ⟨k, rfl⟩ := decideAt_ok hd
    have hasked : (m.ask k).Honest := h
    split
    · rename_i op
      rcases hasked.stepOperator (a := a) (.climb site [op]) op todo with hf | ⟨hlevel, heq⟩
      · exact .inl hf
      · exact .inr ⟨_, 0, k, hd, .inr ⟨rfl, op, .inl rfl, hlevel, heq⟩⟩
    · split
      · exact .inl (hasked.giveUp _ _ _)
      · rename_i m₁ hsync
        split
        · rcases hasked.syncEntry hsync with hf | rfl
          · exact .inl (hf.honest.giveUp _ _ _)
          · exact .inl (hasked.giveUp _ _ _)
        · rename_i m₂ i hd'
          obtain ⟨j, rfl⟩ := decideAt_ok hd'
          rcases hasked.syncEntry hsync with hf | rfl
          · exact .inl (Flagged.stepOperator (m := m₁.ask j) hf _ _ _)
          · rw [ask_ask] at hd' ⊢
            have hagain : (m.ask (max k j)).Honest := h
            rcases hagain.stepOperator (a := a) (.climb site ops) (ops.getD i default) todo with
              hf | ⟨hlevel, heq⟩
            · exact .inl hf
            · exact .inr ⟨_, 0, _, hd, .inr ⟨rfl, _, .inr ⟨k, _, i, hd', rfl⟩, hlevel, heq⟩⟩
  · rename_i i hzero hd
    obtain ⟨k, rfl⟩ := decideAt_ok hd
    exact .inr ⟨_, i, k, hd, .inl ⟨hzero, rfl⟩⟩

theorem Flagged.stepClimb (h : m.Flagged) (here site : Nat) (ops : List (Nat × List Item))
    (todo : List Task) : (m.stepClimb a here site ops todo).Flagged := by
  rcases h.honest.stepClimb (a := a) here site ops todo with
    hf | ⟨_, _, k, _, ⟨_, heq⟩ | ⟨_, op, _, _, heq⟩⟩
  · exact hf
  · rw [heq]
    exact h
  · rw [heq]
    exact h

theorem Honest.stepBranch (h : m.Honest) (site : Nat) (alts : List (List Item))
    (todo : List Task) :
    (m.stepBranch a site alts todo).Flagged ∨ ∃ m' i, m.decideAt a site
        (if (alts.getLastD [default]).isEmpty then some (alts.length - 1) else none) = .ok (m', i) ∧
      m.stepBranch a site alts todo = m'.setTodo ((alts.getD i []).map .item ++ todo) := by
  unfold Machine.stepBranch
  split
  · exact .inl (h.giveUp _ _ _)
  · rename_i m₁ hsync
    dsimp only
    split
    · rcases h.syncEntry hsync with hf | rfl
      · exact .inl (hf.honest.giveUp _ _ _)
      · exact .inl (h.giveUp _ _ _)
    · rename_i m₂ i hd
      rcases h.syncEntry hsync with hf | rfl
      · obtain ⟨k, rfl⟩ := decideAt_ok hd
        exact .inl hf
      · exact .inr ⟨m₂, i, hd, rfl⟩

/-- A loop before its first round. -/
theorem moves_loop (hm : m.Honest) {site : Nat} {body : List Item} {todo : List Task}
    (next : m.frame.todo = .item (.loop site body) :: todo) :
    (m.stepTask a (.item (.loop site body)) todo).Flagged ∨
      Moves a m (m.stepTask a (.item (.loop site body)) todo) := by
  have hset : (m.setTodo todo).Honest := hm
  simp only [stepTask]
  split
  · exact .inl (hset.giveUp _ _ _)
  · rename_i m₁ hsync
    rcases hset.syncEntry hsync with hf | rfl
    · exact .inl (hf.stepRepeat _ _ _ _ _)
    · rcases hset.stepRepeat (a := a) site site (.loop site body) body todo with
        hf | ⟨k, heq | heq⟩
      · exact .inl hf
      · exact .inr (heq ▸ .round next rfl k)
      · exact .inr (heq ▸ .pass next trivial k fun _ _ hclimb => Item.noConfusion hclimb)

/-- A loop after one of its rounds. -/
theorem moves_again (hm : m.Honest) {loop : Item} {body : List Item} {todo : List Task}
    (next : m.frame.todo = .again loop :: todo)
    (repeats : (Task.again loop).body? = some body) (here site : Nat) :
    (((m.setTodo todo).syncAgain a here).stepRepeat a here site loop body todo).Flagged ∨
      Moves a m (((m.setTodo todo).syncAgain a here).stepRepeat a here site loop body todo) := by
  have hset : (m.setTodo todo).Honest := hm
  rcases hset.syncAgain (a := a) here with hf | hsync
  · exact .inl (hf.stepRepeat _ _ _ _ _)
  · rw [hsync]
    rcases hset.stepRepeat (a := a) here site loop body todo with hf | ⟨k, heq | heq⟩
    · exact .inl hf
    · exact .inr (heq ▸ .round next repeats k)
    · refine .inr (heq ▸ .pass next trivial k fun _ _ hclimb => ?_)
      rw [show loop = _ from hclimb] at repeats
      cases repeats

theorem moves_climb (hm : m.Honest) {task : Task} {site here : Nat}
    {ops : List (Nat × List Item)} {todo : List Task} (next : m.frame.todo = task :: todo)
    (climbs : task.subject = .climb site ops) (ends : task.Ends) :
    ((m.setTodo todo).stepClimb a here site ops todo).Flagged ∨
      Moves a m ((m.setTodo todo).stepClimb a here site ops todo) := by
  have hset : (m.setTodo todo).Honest := hm
  rcases hset.stepClimb (a := a) here site ops todo with
    hf | ⟨m₁, i, k, decided, ⟨hne, heq⟩ | ⟨rfl, op, chosen, reaches, heq⟩⟩
  · exact .inl hf
  · refine .inr (heq ▸ .pass next ends k fun site' ops' hclimb => ?_)
    cases climbs.symm.trans hclimb
    exact ⟨m₁, i, decided, hne⟩
  · refine .inr (heq ▸ ?_)
    rw [← climbs]
    exact .operator next climbs ⟨m₁, decided⟩ chosen reaches

/-- A task is done as `Moves` says, or something is reported. -/
theorem stepTask_moves (hm : m.Honest) {task : Task} {todo : List Task}
    (next : m.frame.todo = task :: todo) :
    (m.stepTask a task todo).Flagged ∨ Moves a m (m.stepTask a task todo) := by
  have hset : (m.setTodo todo).Honest := hm
  cases task with
  | item i =>
    cases i with
    | terminal site kind label =>
      simp only [stepTask]
      rcases hset.stepTerminal (a := a) site kind label with hf | ⟨rfl, heq⟩
      · exact .inl hf
      · exact .inr (heq ▸ .terminal next)
    | terminalOf site kinds label =>
      simp only [stepTask]
      rcases hset.stepTerminalOf (a := a) site kinds label with hf | ⟨hkind, heq⟩
      · exact .inl hf
      · exact .inr (heq ▸ .terminalOf next hkind)
    | call site rule level label => exact .inr (.call next)
    | branch site alts =>
      simp only [stepTask]
      rcases hset.stepBranch (a := a) site alts todo with hf | ⟨m', i, hd, heq⟩
      · exact .inl hf
      · exact .inr (heq ▸ .branch next hd)
    | loop site body => exact moves_loop hm next
    | loopOnce site body =>
      simp only [stepTask]
      split
      · exact .inl (hset.giveUp _ _ _)
      · rename_i m₁ hsync
        rcases hset.syncEntry hsync with hf | rfl
        · exact .inl hf
        · have hround := Moves.round (a := a) next rfl 0
          rw [ask_zero] at hround
          exact .inr hround
    | climb site ops =>
      simp only [stepTask]
      split
      · exact .inl (hset.giveUp _ _ _)
      · rename_i m₁ hsync
        rcases hset.syncEntry hsync with hf | rfl
        · exact .inl (hf.stepClimb _ _ _ _)
        · exact moves_climb hm next rfl trivial
  | again i =>
    cases i with
    | loop site body => exact moves_again hm next rfl (site + 1) site
    | loopOnce site body => exact moves_again hm next rfl (site + 1) (site + 1)
    | climb site ops =>
      simp only [stepTask]
      rcases hset.syncAgain (a := a) (site + 1) with hf | hsync
      · exact .inl (hf.stepClimb _ _ _ _)
      · rw [hsync]
        exact moves_climb hm next rfl trivial
    | terminal | terminalOf | call | branch =>
      have hpass := Moves.pass (a := a) next trivial 0 fun _ _ hclimb => Item.noConfusion hclimb
      rw [ask_zero] at hpass
      exact .inr hpass

theorem step_moves (hm : m.Honest) (h : m.step a = .inl m') : m'.Flagged ∨ Moves a m m' := by
  unfold step at h
  split at h
  · rename_i hdone
    exact .inr (.leave hdone h)
  · rename_i next
    cases h
    exact stepTask_moves hm next

/-! ## Runs that report nothing -/

theorem Flagged.step (h : m.Flagged) (hs : m.step a = .inl m') : m'.Flagged := by
  rcases step_moves h.honest hs with hf | hmoves
  · exact hf
  · rw [Flagged, hmoves.reports]
    exact h

theorem Flagged.run (h : m.Flagged) {fuel : Nat} {tree : Tree}
    (hr : run a fuel m = some (m', tree)) : m'.Flagged := by
  induction fuel generalizing m with
  | zero => cases hr
  | succ fuel ih =>
    rw [Machine.run] at hr
    split at hr
    · rename_i m₁ hs
      exact ih (h.step hs) hr
    · cases hr
      exact h

theorem step_inr {tree : Tree} (h : m.step a = .inr tree) :
    m.frame.todo = [] ∧ m.callers = [] ∧ tree = m.close := by
  unfold step at h
  split at h
  · rename_i hdone
    unfold leave at h
    split at h
    · rename_i houter
      cases h
      exact ⟨hdone, houter, rfl⟩
    · cases h
  · cases h

/-- What every step without a report keeps holds at the end of a run without a report. The run ends
with the outermost rule, of which nothing is left to read. -/
theorem run_moves {P : Machine → Prop}
    (hmove : ∀ {m m'}, m.recovering = false → Moves a m m' → P m → P m')
    {fuel : Nat} {tree : Tree} (h : run a fuel m = some (m', tree)) (hclean : m'.reports = [])
    (hm : m.Honest) (hp : P m) :
    P m' ∧ m'.frame.todo = [] ∧ m'.callers = [] ∧ tree = m'.close := by
  induction fuel generalizing m with
  | zero => cases h
  | succ fuel ih =>
    have hquiet : ¬ m.Flagged := fun hf => hf.run h hclean
    rw [run] at h
    split at h
    · rename_i m₁ hs
      rcases step_moves hm hs with hf | hmoves
      · exact absurd hclean (hf.run h)
      · have hrecovering : m.recovering = false := by
          cases hr : m.recovering with
          | false => rfl
          | true => exact absurd (hm hr) hquiet
        exact ih h (hmoves.honest hm) (hmove hrecovering hmoves hp)
    · rename_i hs
      cases h
      exact ⟨hp, step_inr hs⟩

end Machine

end Callscope
