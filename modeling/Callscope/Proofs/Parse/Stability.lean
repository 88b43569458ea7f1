import Callscope.Proofs.Parse.Moves

/-!
# What every action keeps

A step is made of few actions, whether the text has errors or not: a token is taken, a missing one is
supplied, a rule is begun or ended, or what has been read becomes an operand. All else a step does leaves
the tokens alone and what has been read of them. So what these actions keep holds after every step and
after every run.
-/

namespace Callscope

namespace Machine

/-- What holds of a machine whatever it does with its tokens. -/
structure Stable (a : Lookahead.Automata) (P : Machine → Prop) : Prop where
  congr : ∀ {m m' : Machine}, P m → m'.current = m.current → m'.rest = m.rest →
    m'.frame.read = m.frame.read → m'.callers = m.callers → P m'
  take : ∀ {m : Machine}, P m → P m.take
  addMissing : ∀ {m : Machine} (k : Kind), P m → P (m.addLeaf (.missing k))
  wrap : ∀ {m : Machine}, P m → P m.wrap
  enter : ∀ {m : Machine} (site : Nat) (rule : Rule) (level : Nat) (label : Option Label),
    P m → P (m.enter a site rule level label)
  leave : ∀ {m m' : Machine}, P m → m.leave = .inl m' → P m'

namespace Stable

variable {a : Lookahead.Automata} {P : Machine → Prop} {m m' : Machine}

/-! ## Errors -/

theorem setTodo (hP : Stable a P) (h : P m) (todo : List Task) : P (m.setTodo todo) :=
  hP.congr h rfl rfl rfl rfl

theorem ask (hP : Stable a P) (h : P m) (k : Nat) : P (m.ask k) := hP.congr h rfl rfl rfl rfl

theorem fitted (hP : Stable a P) (h : P m) : P m.fitted := hP.congr h rfl rfl rfl rfl

theorem setLabel (hP : Stable a P) (h : P m) (l : Option Label) (text : String) :
    P (m.setLabel l text) := by
  cases l with
  | none => exact h
  | some l => exact hP.congr h rfl rfl rfl rfl

theorem report (hP : Stable a P) (h : P m) (t : Token) (p : Problem) : P (m.report t p) := by
  have hasked : P (m.askFor p) := by
    unfold askFor
    split
    · split
      · exact h
      · exact hP.ask h _
    · exact h
  unfold Machine.report
  split
  · exact h
  · exact hP.congr hasked rfl rfl rfl rfl

theorem skipUntil (hP : Stable a P) (h : P m) (s : KindSet) (ts : List Token) :
    P (skipUntil s ts m) := by
  induction ts generalizing m with
  | nil => exact h
  | cons t ts ih =>
    rw [Machine.skipUntil]
    split
    · exact h
    · exact ih (hP.take h)

theorem giveUp (hP : Stable a P) (h : P m) (site : Nat) (t : Token) (p : Problem) :
    P (m.giveUp a site t p) := by
  have hreport := hP.report h t p
  have hforced : ∀ {n : Machine} {c : Bool}, P n → P (if c then n.take else n) := by
    intro n c hn
    split
    · exact hP.take hn
    · exact hn
  refine hP.setTodo (hP.skipUntil ?_ _ _) []
  exact hP.congr (hforced hreport) rfl rfl rfl rfl

theorem dropExtra (hP : Stable a P) (h : P m) {site : Nat} (hd : m.dropExtra a site = some m') :
    P m' := by
  have hdropped : ∀ {n : Machine} (p : Problem), P n → P (n.report n.current p).take.fitted :=
    fun p hn => hP.fitted (hP.take (hP.report hn _ p))
  simp only [Machine.dropExtra] at hd
  split at hd
  · split at hd
    · exact Option.some.inj hd ▸ hdropped _ h
    · cases hd
  · split at hd
    · exact Option.some.inj hd ▸ hdropped _ (hP.ask h _)
    · cases hd

theorem supplyMissing (hP : Stable a P) (h : P m) {site : Nat} {k : Kind}
    (hs : m.supplyMissing a site = some (m', k)) : P m' := by
  simp only [Machine.supplyMissing] at hs
  split at hs
  · cases hs
    exact hP.report h _ _
  · cases hs

theorem syncEntry (hP : Stable a P) (h : P m) {site : Nat} (hs : m.syncEntry a site = .ok m') :
    P m' := by
  simp only [Machine.syncEntry] at hs
  split at hs
  · cases hs
    exact h
  · split at hs
    · rename_i hd
      cases hs
      exact hP.dropExtra h hd
    · cases hs

theorem syncAgain (hP : Stable a P) (h : P m) (site : Nat) : P (m.syncAgain a site) := by
  simp only [Machine.syncAgain]
  split
  · exact h
  · exact hP.skipUntil (hP.report h _ _) _ _

theorem decideAt (hP : Stable a P) (h : P m) {site i : Nat} {otherwise : Option Nat}
    (hd : m.decideAt a site otherwise = .ok (m', i)) : P m' := by
  obtain ⟨k, rfl⟩ := decideAt_ok hd
  exact hP.ask h k

/-! ## Tasks -/

theorem stepTerminal (hP : Stable a P) (h : P m) (site : Nat) (kind : Kind)
    (label : Option Label) : P (m.stepTerminal a site kind label) := by
  unfold Machine.stepTerminal
  split
  · exact hP.setLabel (hP.take (hP.fitted h)) _ _
  · split
    · rename_i hd
      exact hP.setLabel (hP.take (hP.dropExtra h hd)) _ _
    · split
      · rename_i hs
        exact hP.setLabel (hP.addMissing _ (hP.supplyMissing h hs)) _ _
      · exact hP.giveUp h _ _ _

theorem stepTerminalOf (hP : Stable a P) (h : P m) (site : Nat) (kinds : List Kind)
    (label : Option Label) : P (m.stepTerminalOf a site kinds label) := by
  have hlabelled := hP.setLabel h label m.current.text
  simp only [Machine.stepTerminalOf]
  split
  · exact hP.take (hP.fitted hlabelled)
  · split
    · rename_i hd
      exact hP.setLabel (hP.take (hP.dropExtra hlabelled hd)) _ _
    · split
      · rename_i hs
        exact hP.setLabel (hP.supplyMissing hlabelled hs) _ _
      · exact hP.giveUp hlabelled _ _ _

theorem stepBranch (hP : Stable a P) (h : P m) (site : Nat) (alts : List (List Item))
    (todo : List Task) : P (m.stepBranch a site alts todo) := by
  unfold Machine.stepBranch
  split
  · exact hP.giveUp h _ _ _
  · rename_i hsync
    have hsynced := hP.syncEntry h hsync
    dsimp only
    split
    · exact hP.giveUp hsynced _ _ _
    · rename_i hd
      exact hP.setTodo (hP.decideAt hsynced hd) _

theorem stepRepeat (hP : Stable a P) (h : P m) (here site : Nat) (loop : Item)
    (body : List Item) (todo : List Task) : P (m.stepRepeat a here site loop body todo) := by
  unfold Machine.stepRepeat
  split
  · exact hP.giveUp h _ _ _
  · rename_i hd
    exact hP.setTodo (hP.decideAt h hd) _
  · rename_i hd
    exact hP.setTodo (hP.decideAt h hd) _

theorem stepOperator (hP : Stable a P) (h : P m) (loop : Item) (op : Nat × List Item)
    (todo : List Task) : P (m.stepOperator a loop op todo) := by
  unfold Machine.stepOperator
  dsimp only
  split
  · exact hP.setTodo (hP.wrap h) _
  · exact hP.giveUp (hP.wrap h) _ _ _

theorem stepClimb (hP : Stable a P) (h : P m) (here site : Nat) (ops : List (Nat × List Item))
    (todo : List Task) : P (m.stepClimb a here site ops todo) := by
  unfold Machine.stepClimb
  split
  · exact hP.giveUp h _ _ _
  · rename_i hd
    have hdecided := hP.decideAt h hd
    split
    · exact hP.stepOperator hdecided _ _ _
    · split
      · exact hP.giveUp hdecided _ _ _
      · rename_i hsync
        have hsynced := hP.syncEntry hdecided hsync
        split
        · exact hP.giveUp hsynced _ _ _
        · rename_i hd'
          exact hP.stepOperator (hP.decideAt hsynced hd') _ _ _
  · rename_i hd
    exact hP.setTodo (hP.decideAt h hd) _

theorem stepTask (hP : Stable a P) (h : P m) (task : Task) (todo : List Task) :
    P (m.stepTask a task todo) := by
  have hset := hP.setTodo h todo
  cases task with
  | item i =>
    cases i with
    | terminal site kind label => exact hP.stepTerminal hset _ _ _
    | terminalOf site kinds label => exact hP.stepTerminalOf hset _ _ _
    | call site rule level label => exact hP.enter _ _ _ _ hset
    | branch site alts => exact hP.stepBranch hset _ _ _
    | loop site body =>
      simp only [Machine.stepTask]
      split
      · exact hP.giveUp hset _ _ _
      · rename_i hsync
        exact hP.stepRepeat (hP.syncEntry hset hsync) _ _ _ _ _
    | loopOnce site body =>
      simp only [Machine.stepTask]
      split
      · exact hP.giveUp hset _ _ _
      · rename_i hsync
        exact hP.setTodo (hP.syncEntry hset hsync) _
    | climb site ops =>
      simp only [Machine.stepTask]
      split
      · exact hP.giveUp hset _ _ _
      · rename_i hsync
        exact hP.stepClimb (hP.syncEntry hset hsync) _ _ _ _
  | again i =>
    cases i with
    | loop site body => exact hP.stepRepeat (hP.syncAgain hset _) _ _ _ _ _
    | loopOnce site body => exact hP.stepRepeat (hP.syncAgain hset _) _ _ _ _ _
    | climb site ops => exact hP.stepClimb (hP.syncAgain hset _) _ _ _ _
    | terminal | terminalOf | call | branch => exact hset

/-! ## Steps and runs -/

theorem step (hP : Stable a P) (h : P m) (hs : m.step a = .inl m') : P m' := by
  unfold Machine.step at hs
  split at hs
  · exact hP.leave h hs
  · cases hs
    exact hP.stepTask h _ _

theorem run (hP : Stable a P) (h : P m) {fuel : Nat} {tree : Tree}
    (hr : run a fuel m = some (m', tree)) :
    P m' ∧ m'.callers = [] ∧ tree = m'.close := by
  induction fuel generalizing m with
  | zero => cases hr
  | succ fuel ih =>
    rw [Machine.run] at hr
    split at hr
    · rename_i hs
      exact ih (hP.step h hs) hr
    · rename_i hs
      cases hr
      exact ⟨h, (step_inr hs).2⟩

end Stable

end Machine

end Callscope
