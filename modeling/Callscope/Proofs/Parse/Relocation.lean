import Callscope.Parse.Java
import Callscope.Proofs.Token.Relocation

/-!
# Parsing tokens at other places

The parser looks at the kinds of tokens, copies their texts, and compares indices only to tell whether it
is still at the same token. So each of its parts commutes with a relocation of all tokens, and so do one
step and a whole run. The trees of two texts with the same visible tokens differ in places alone.
-/

namespace Callscope

variable (f : Relocation)

/-! ## Reading ahead -/

namespace Lookahead

def Outcome.relocate : Outcome → Outcome
  | .choose alt => .choose alt
  | .fail t => .fail (t.relocate f)

theorem withCallers_relocate (t : Tables) (level : Nat) (cs : List Config) (last : Token)
    (ts : List Token) :
    withCallers t level cs (last.relocate f) (ts.map (Token.relocate f)) =
      Prod.map (Outcome.relocate f) (Token.relocate f) (withCallers t level cs last ts) := by
  induction ts generalizing cs last with
  | nil => rfl
  | cons tk ts ih =>
    simp only [List.map_cons, withCallers, Token.kind_relocate]
    by_cases h : (step t false cs tk.kind).isEmpty = true
    · rw [if_pos h, if_pos h]
      cases fallback t level cs <;> rfl
    · rw [if_neg h, if_neg h]
      cases resolve (step t false cs tk.kind) with
      | some alt => rfl
      | none => exact ih _ tk

theorem withoutCallers_relocate (t : Tables) (level : Nat) (first : Token) (a : Automaton)
    (last : Token) (ts : List Token) :
    withoutCallers t level (first.relocate f) a (last.relocate f) (ts.map (Token.relocate f)) =
      Prod.map (Option.map (Outcome.relocate f)) (Token.relocate f)
        (withoutCallers t level first a last ts) := by
  induction ts generalizing a last with
  | nil => rfl
  | cons tk ts ih =>
    simp only [List.map_cons, withoutCallers, Token.kind_relocate]
    split
    · split <;> rfl
    · split
      · split <;> rfl
      · split
        · split <;> rfl
        · rfl
      · exact ih _ tk

theorem furthest_relocate (s t : Token) :
    furthest (s.relocate f) (t.relocate f) = (furthest s t).relocate f := by
  simp only [furthest, Token.index_relocate, f.index_lt_iff]
  split <;> rfl

theorem choose_relocate (a : Automata) (d : Decision) (site level : Nat) (stack : Stack)
    (current : Token) (ahead : List Token) :
    choose a d site level stack (current.relocate f) (ahead.map (Token.relocate f)) =
      Prod.map (Outcome.relocate f) (Token.relocate f)
        (choose a d site level stack current ahead) := by
  simp only [choose, withoutCallers_relocate, withCallers_relocate]
  rcases withoutCallers a.tables level current (a.tree site level) current ahead with ⟨o, last⟩
  cases o with
  | some o => rfl
  | none => exact congrArg (Prod.mk _) (furthest_relocate f _ _)

end Lookahead

/-! ## Trees, reports and machines -/

namespace Tree

mutual

/-- The tree with all its tokens changed. -/
def mapTokens (g : Token → Token) : Tree → Tree
  | token t => token (g t)
  | skipped t => skipped (g t)
  | missing k => missing k
  | node r first last labels children =>
    node r (g first) (last.map g) labels (mapTokensAll g children)

def mapTokensAll (g : Token → Token) : List Tree → List Tree
  | [] => []
  | t :: ts => t.mapTokens g :: mapTokensAll g ts

end

section MapTokens

variable {g : Token → Token}

theorem mapTokensAll_eq_map (ts : List Tree) : mapTokensAll g ts = ts.map (mapTokens g) := by
  induction ts with
  | nil => rw [mapTokensAll, List.map_nil]
  | cons t ts ih => rw [mapTokensAll, ih, List.map_cons]

theorem mapTokens_node (r : Rule) (first : Token) (last : Option Token)
    (labels : List (Label × String)) (children : List Tree) :
    (node r first last labels children).mapTokens g =
      node r (g first) (last.map g) labels (children.map (mapTokens g)) := by
  rw [mapTokens, mapTokensAll_eq_map]

mutual

/-- The text is that of the tokens. -/
theorem text_mapTokens (hg : ∀ t, (g t).text = t.text) (t : Tree) :
    (t.mapTokens g).text = t.text := by
  cases t with
  | token t => rw [mapTokens, text, text, hg]
  | skipped t => rw [mapTokens, text, text, hg]
  | missing k => rw [mapTokens]
  | node r first last labels children =>
    rw [mapTokens, text, text]
    exact textAll_mapTokensAll hg children

theorem textAll_mapTokensAll (hg : ∀ t, (g t).text = t.text) (ts : List Tree) :
    textAll (mapTokensAll g ts) = textAll ts := by
  cases ts with
  | nil => rw [mapTokensAll]
  | cons t ts =>
    rw [mapTokensAll, textAll, textAll, text_mapTokens hg t, textAll_mapTokensAll hg ts]

end

mutual

theorem mapTokens_mapTokens (h : Token → Token) (t : Tree) :
    (t.mapTokens g).mapTokens h = t.mapTokens (h ∘ g) := by
  cases t with
  | token t => simp only [mapTokens, Function.comp_apply]
  | skipped t => simp only [mapTokens, Function.comp_apply]
  | missing k => simp only [mapTokens]
  | node r first last labels children =>
    simp only [mapTokens, Function.comp_apply, Option.map_map, mapTokensAll_mapTokensAll h children]

theorem mapTokensAll_mapTokensAll (h : Token → Token) (ts : List Tree) :
    mapTokensAll h (mapTokensAll g ts) = mapTokensAll (h ∘ g) ts := by
  cases ts with
  | nil => simp only [mapTokensAll]
  | cons t ts =>
    simp only [mapTokensAll, mapTokens_mapTokens h t, mapTokensAll_mapTokensAll h ts]

end

end MapTokens

/-- The tree with all its tokens moved. -/
def relocate (t : Tree) : Tree := t.mapTokens (Token.relocate f)

theorem relocate_token (t : Token) : (token t).relocate f = token (t.relocate f) := by
  rw [relocate, mapTokens]

theorem relocate_skipped (t : Token) : (skipped t).relocate f = skipped (t.relocate f) := by
  rw [relocate, mapTokens]

theorem relocate_missing (k : Kind) : (missing k).relocate f = missing k := by
  rw [relocate, mapTokens]

@[simp] theorem text_relocate (t : Tree) : (t.relocate f).text = t.text :=
  text_mapTokens (Token.text_relocate f) t

end Tree

def Problem.relocate : Problem → Problem
  | .noAlternative first => .noAlternative (first.relocate f)
  | p => p

def Diagnostic.relocate (d : Diagnostic) : Diagnostic :=
  ⟨d.token.relocate f, d.problem.relocate f, f.index d.seen⟩

def Frame.relocate (x : Frame) : Frame :=
  { x with first := x.first.relocate f, read := x.read.map (Tree.relocate f) }

namespace Machine

/-- The machine with all its tokens moved. -/
def relocate (m : Machine) : Machine :=
  { m with
    current := m.current.relocate f
    rest := m.rest.map (Token.relocate f)
    last := m.last.map (Token.relocate f)
    frame := m.frame.relocate f
    callers := m.callers.map (Frame.relocate f)
    gaveUpAt := m.gaveUpAt.map f.index
    reports := m.reports.map (Diagnostic.relocate f)
    seen := f.index m.seen }

/-- What was tried, with all tokens moved. -/
def relocateTried {α : Type} (g : α → α) : Attempt α → Attempt α
  | .ok x => .ok (g x)
  | .error (t, p) => .error (t.relocate f, p.relocate f)

variable {f} (a : Lookahead.Automata) (m : Machine)

@[simp] theorem current_relocate : (m.relocate f).current = m.current.relocate f := by
  cases m; rfl

@[simp] theorem recovering_relocate : (m.relocate f).recovering = m.recovering := by
  cases m; rfl

/-! ## What may come next -/

theorem afterCalls_relocate : (m.relocate f).afterCalls a = m.afterCalls a := by
  simp only [afterCalls, relocate, ← List.map_cons, List.filterMap_map]
  rfl

@[simp] theorem expected_relocate (site : Nat) :
    (m.relocate f).expected a site = m.expected a site := by
  rw [expected, expected, afterCalls_relocate]

@[simp] theorem recoverySet_relocate : (m.relocate f).recoverySet a = m.recoverySet a := by
  rw [recoverySet, recoverySet, afterCalls_relocate]

/-! ## Tokens -/

theorem ask_relocate (i : Nat) : (m.relocate f).ask (f.index i) = (m.ask i).relocate f := by
  simp only [ask, relocate, f.index_max]

theorem addLeaf_relocate (t : Tree) :
    (m.relocate f).addLeaf (t.relocate f) = (m.addLeaf t).relocate f := rfl

theorem advance_relocate : (m.relocate f).advance = m.advance.relocate f := by
  unfold advance
  cases h : m.rest with
  | nil => simp [relocate, h]
  | cons t rest => simp [relocate, h, f.index_max]

theorem take_relocate : (m.relocate f).take = m.take.relocate f := by
  have hleaf : (if m.recovering then Tree.skipped (m.relocate f).current
      else .token (m.relocate f).current) =
      Tree.relocate f (if m.recovering then .skipped m.current else .token m.current) := by
    split
    · rw [Tree.relocate_skipped, current_relocate]
    · rw [Tree.relocate_token, current_relocate]
  rw [take, take, recovering_relocate, hleaf, addLeaf_relocate, advance_relocate]

theorem fitted_relocate : (m.relocate f).fitted = m.fitted.relocate f := rfl

theorem skipUntil_relocate (s : KindSet) (ts : List Token) :
    skipUntil s (ts.map (Token.relocate f)) (m.relocate f) = (skipUntil s ts m).relocate f := by
  induction ts generalizing m with
  | nil => rfl
  | cons t ts ih =>
    simp only [List.map_cons, skipUntil, current_relocate, Token.kind_relocate]
    by_cases h : (m.current.kind == .eof || s.contains m.current.kind) = true
    · rw [if_pos h, if_pos h]
    · rw [if_neg h, if_neg h, take_relocate, ih]

theorem skipTo_relocate (s : KindSet) : (m.relocate f).skipTo s = (m.skipTo s).relocate f :=
  skipUntil_relocate m s (m.current :: m.rest)

theorem askFor_relocate (p : Problem) :
    (m.relocate f).askFor (p.relocate f) = (m.askFor p).relocate f := by
  cases p with
  | noAlternative first =>
    have hlast : ((m.relocate f).rest.getLast?.getD (m.relocate f).current).index =
        f.index (m.rest.getLast?.getD m.current).index := by
      simp only [relocate, List.getLast?_map]
      cases m.rest.getLast? <;> rfl
    simp only [Problem.relocate, askFor, Token.kind_relocate, hlast, ask_relocate]
    split <;> rfl
  | mismatched | extraneous | missing | looseOperator => rfl

theorem report_relocate (t : Token) (p : Problem) :
    (m.relocate f).report (t.relocate f) (p.relocate f) = (m.report t p).relocate f := by
  simp only [report, recovering_relocate, askFor_relocate]
  split <;> rfl

/-! ## Errors -/

/-- Whether the machine is still where it gave up is not a matter of places. -/
theorem gaveUpHere_relocate :
    ((m.relocate f).gaveUpAt == some (m.relocate f).current.index) =
      (m.gaveUpAt == some m.current.index) := by
  rw [Bool.eq_iff_iff, beq_iff_eq, beq_iff_eq]
  exact (Option.map_injective f.increasing.injective).eq_iff (a := m.gaveUpAt)
    (b := some m.current.index)

theorem giveUp_relocate (site : Nat) (t : Token) (p : Problem) :
    (m.relocate f).giveUp a site (t.relocate f) (p.relocate f) =
      (m.giveUp a site t p).relocate f := by
  -- Giving up at a site is noted by an index, which is moved like those of the tokens.
  have hnote : ∀ n : Machine, ({ n.relocate f with
      gaveUpAt := some (n.relocate f).current.index
      gaveUpSites := site :: (n.relocate f).gaveUpSites } : Machine) =
      relocate f { n with
        gaveUpAt := some n.current.index, gaveUpSites := site :: n.gaveUpSites } := fun _ => rfl
  have hsites : ∀ n : Machine, (n.relocate f).gaveUpSites = n.gaveUpSites := fun _ => rfl
  have hagain : ∀ n : Machine,
      (if (n.relocate f).gaveUpAt == some (n.relocate f).current.index &&
          (n.relocate f).gaveUpSites.contains site then (n.relocate f).take else n.relocate f) =
        relocate f (if n.gaveUpAt == some n.current.index && n.gaveUpSites.contains site then n.take
          else n) := by
    intro n
    rw [gaveUpHere_relocate, hsites, take_relocate]
    split <;> rfl
  simp only [giveUp, report_relocate, hagain, hnote, recoverySet_relocate, skipTo_relocate]
  rfl

/-- The machine with the next token asked for. -/
def peek (m : Machine) : Machine :=
  match m.rest with
  | [] => m
  | t :: _ => m.ask t.index

theorem dropExtra_eq (site : Nat) : m.dropExtra a site =
    if (m.peek.expected a site).contains (m.peek.rest.head?.getD m.peek.current).kind then
      some (m.peek.report m.peek.current (.extraneous (m.peek.expected a site))).take.fitted
    else none := rfl

theorem peek_relocate : (m.relocate f).peek = m.peek.relocate f := by
  unfold peek
  cases h : m.rest with
  | nil => simp [relocate, h]
  | cons t rest =>
    have hrest : (m.relocate f).rest = t.relocate f :: rest.map (Token.relocate f) := by
      simp [relocate, h]
    simp only [hrest, Token.index_relocate, ask_relocate]

theorem kind_next_relocate : ((m.relocate f).rest.head?.getD (m.relocate f).current).kind =
    (m.rest.head?.getD m.current).kind := by
  cases h : m.rest <;> simp [relocate, h]

theorem dropExtra_relocate (site : Nat) :
    (m.relocate f).dropExtra a site = (m.dropExtra a site).map (relocate f) := by
  rw [dropExtra_eq, dropExtra_eq, peek_relocate, kind_next_relocate, expected_relocate]
  split
  · rw [Option.map_some, ← fitted_relocate, ← take_relocate, ← report_relocate]
    rfl
  · rfl

theorem supplyMissing_relocate (site : Nat) :
    (m.relocate f).supplyMissing a site =
      (m.supplyMissing a site).map (Prod.map (relocate f) id) := by
  simp only [supplyMissing, expected_relocate, current_relocate, Token.kind_relocate]
  split
  · have hreport : (m.relocate f).report (m.current.relocate f) (.missing (m.expected a site)) =
        (m.report m.current (.missing (m.expected a site))).relocate f :=
      report_relocate m m.current (.missing (m.expected a site))
    rw [hreport]
    rfl
  · rfl

theorem syncEntry_relocate (site : Nat) :
    (m.relocate f).syncEntry a site = relocateTried f (relocate f) (m.syncEntry a site) := by
  simp only [syncEntry, recovering_relocate, current_relocate, Token.kind_relocate,
    dropExtra_relocate, expected_relocate]
  split
  · rfl
  · cases m.dropExtra a site <;> rfl

theorem syncAgain_relocate (site : Nat) :
    (m.relocate f).syncAgain a site = (m.syncAgain a site).relocate f := by
  simp only [syncAgain, recovering_relocate, current_relocate, Token.kind_relocate,
    expected_relocate]
  split
  · rfl
  · have hreport : (m.relocate f).report (m.current.relocate f) (.extraneous (m.expected a site)) =
        (m.report m.current (.extraneous (m.expected a site))).relocate f :=
      report_relocate m m.current (.extraneous (m.expected a site))
    rw [hreport, recoverySet_relocate, skipTo_relocate]

/-! ## Decisions -/

theorem decideAt_relocate (site : Nat) (otherwise : Option Nat) :
    (m.relocate f).decideAt a site otherwise =
      relocateTried f (Prod.map (relocate f) id) (m.decideAt a site otherwise) := by
  unfold decideAt
  cases a.tables.decision? site with
  | none => rfl
  | some d =>
    have hahead : (m.current.relocate f) :: (m.relocate f).rest =
        (m.current :: m.rest).map (Token.relocate f) := rfl
    have hlevel : (m.relocate f).frame.level = m.frame.level := rfl
    have hstack : (m.relocate f).frame.stack = m.frame.stack := rfl
    simp only [current_relocate, Token.kind_relocate, hahead, hlevel, hstack,
      Lookahead.choose_relocate]
    split
    · split <;> rfl
    · rcases Lookahead.choose a d site m.frame.level m.frame.stack m.current
        (m.current :: m.rest) with ⟨o, furthest⟩
      simp only [Prod.map, Token.index_relocate, ask_relocate]
      cases o <;> rfl

/-! ## Steps -/

theorem setTodo_relocate (todo : List Task) :
    (m.relocate f).setTodo todo = (m.setTodo todo).relocate f := rfl

theorem setLabel_relocate (label : Option Label) (text : String) :
    (m.relocate f).setLabel label text = (m.setLabel label text).relocate f := by
  cases label <;> rfl

theorem close_relocate : (m.relocate f).close = m.close.relocate f := by
  simp only [close, Tree.relocate, Tree.mapTokens_node, List.map_reverse]
  rfl

theorem wrap_relocate : (m.relocate f).wrap = m.wrap.relocate f := by
  simp only [wrap, close_relocate]
  rfl

theorem leave_relocate :
    (m.relocate f).leave = Sum.map (relocate f) (Tree.relocate f) m.leave := by
  unfold leave
  cases h : m.callers with
  | nil => simp [relocate, h, ← close_relocate]
  | cons caller callers =>
    have hcallers : (m.relocate f).callers =
        caller.relocate f :: callers.map (Frame.relocate f) := by simp [relocate, h]
    have hlabel : (m.relocate f).frame.label = m.frame.label := rfl
    simp only [hcallers, hlabel, close_relocate, Tree.text_relocate]
    cases m.frame.label <;> rfl

theorem stepTerminal_relocate (site : Nat) (kind : Kind) (label : Option Label) :
    (m.relocate f).stepTerminal a site kind label =
      (m.stepTerminal a site kind label).relocate f := by
  simp only [stepTerminal, current_relocate, Token.kind_relocate, Token.text_relocate,
    dropExtra_relocate, supplyMissing_relocate, expected_relocate]
  split
  · rw [fitted_relocate, take_relocate, setLabel_relocate]
  · cases m.dropExtra a site with
    | some m' =>
      simp only [Option.map_some, take_relocate, setLabel_relocate, current_relocate,
        Token.text_relocate]
    | none =>
      simp only [Option.map_none]
      cases m.supplyMissing a site with
      | some x =>
        simp only [Option.map_some, Prod.map, id]
        rw [← Tree.relocate_missing f, addLeaf_relocate, setLabel_relocate, Tree.relocate_missing]
      | none => exact giveUp_relocate a m site m.current (.mismatched (m.expected a site))

theorem stepTerminalOf_relocate (site : Nat) (kinds : List Kind) (label : Option Label) :
    (m.relocate f).stepTerminalOf a site kinds label =
      (m.stepTerminalOf a site kinds label).relocate f := by
  simp only [stepTerminalOf, setLabel_relocate, current_relocate, Token.kind_relocate,
    Token.text_relocate, dropExtra_relocate, supplyMissing_relocate, expected_relocate]
  generalize m.setLabel label m.current.text = n
  split
  · rw [fitted_relocate, take_relocate]
  · cases n.dropExtra a site with
    | some n' =>
      simp only [Option.map_some, take_relocate, setLabel_relocate, current_relocate,
        Token.text_relocate]
    | none =>
      simp only [Option.map_none]
      cases n.supplyMissing a site with
      | some x => simp only [Option.map_some, Prod.map, id, setLabel_relocate]
      | none => exact giveUp_relocate a n site n.current (.mismatched (n.expected a site))

theorem stepBranch_relocate (site : Nat) (alts : List (List Item)) (todo : List Task) :
    (m.relocate f).stepBranch a site alts todo = (m.stepBranch a site alts todo).relocate f := by
  simp only [stepBranch, syncEntry_relocate]
  cases m.syncEntry a site with
  | error e => exact giveUp_relocate a m site e.1 e.2
  | ok n =>
    simp only [relocateTried, decideAt_relocate]
    cases n.decideAt a site _ with
    | error e => exact giveUp_relocate a n site e.1 e.2
    | ok x => exact setTodo_relocate x.1 _

theorem stepRepeat_relocate (here site : Nat) (loop : Item) (body : List Item)
    (todo : List Task) : (m.relocate f).stepRepeat a here site loop body todo =
      (m.stepRepeat a here site loop body todo).relocate f := by
  simp only [stepRepeat, decideAt_relocate]
  cases m.decideAt a site (some 1) with
  | error e => exact giveUp_relocate a m here e.1 e.2
  | ok x =>
    obtain ⟨n, i⟩ := x
    cases i <;> exact setTodo_relocate n _

theorem stepOperator_relocate (loop : Item) (op : Nat × List Item) (todo : List Task) :
    (m.relocate f).stepOperator a loop op todo = (m.stepOperator a loop op todo).relocate f := by
  have hlevel : (m.wrap.relocate f).frame.level = m.wrap.frame.level := rfl
  simp only [stepOperator, wrap_relocate, hlevel]
  split
  · rw [setTodo_relocate]
  · exact giveUp_relocate a m.wrap _ m.wrap.current (.looseOperator m.wrap.frame.rule op.1)

theorem stepClimb_relocate (here site : Nat) (ops : List (Nat × List Item)) (todo : List Task) :
    (m.relocate f).stepClimb a here site ops todo =
      (m.stepClimb a here site ops todo).relocate f := by
  simp only [stepClimb, decideAt_relocate]
  cases m.decideAt a site none with
  | error e => exact giveUp_relocate a m here e.1 e.2
  | ok x =>
    obtain ⟨n, i⟩ := x
    cases i with
    | succ i => exact setTodo_relocate n todo
    | zero =>
      simp only [relocateTried, Prod.map, id]
      split
      · exact stepOperator_relocate a n _ _ todo
      · rw [syncEntry_relocate]
        cases n.syncEntry a (site + 2) with
        | error e => exact giveUp_relocate a n (site + 2) e.1 e.2
        | ok n' =>
          simp only [relocateTried, decideAt_relocate]
          cases n'.decideAt a (site + 2) none with
          | error e => exact giveUp_relocate a n' (site + 2) e.1 e.2
          | ok y => exact stepOperator_relocate a y.1 _ _ todo

theorem stepTask_relocate (task : Task) (todo : List Task) :
    (m.relocate f).stepTask a task todo = (m.stepTask a task todo).relocate f := by
  simp only [stepTask, setTodo_relocate]
  generalize m.setTodo todo = n
  cases task with
  | item i =>
    cases i with
    | terminal site kind label => exact stepTerminal_relocate a n site kind label
    | terminalOf site kinds label => exact stepTerminalOf_relocate a n site kinds label
    | call site rule level label => rfl
    | branch site alts => exact stepBranch_relocate a n site alts todo
    | loop site body =>
      simp only [syncEntry_relocate]
      cases n.syncEntry a site with
      | error e => exact giveUp_relocate a n site e.1 e.2
      | ok n' => exact stepRepeat_relocate a n' site site _ body todo
    | loopOnce site body =>
      simp only [syncEntry_relocate]
      cases n.syncEntry a site with
      | error e => exact giveUp_relocate a n site e.1 e.2
      | ok n' => exact setTodo_relocate n' _
    | climb site ops =>
      simp only [syncEntry_relocate]
      cases n.syncEntry a site with
      | error e => exact giveUp_relocate a n site e.1 e.2
      | ok n' => exact stepClimb_relocate a n' site site ops todo
  | again i =>
    cases i with
    | loop site body => simp only [syncAgain_relocate, stepRepeat_relocate]
    | loopOnce site body => simp only [syncAgain_relocate, stepRepeat_relocate]
    | climb site ops => simp only [syncAgain_relocate, stepClimb_relocate]
    | terminal | terminalOf | call | branch => rfl

/-- One step is the same wherever the tokens are. -/
theorem step_relocate :
    (m.relocate f).step a = Sum.map (relocate f) (Tree.relocate f) (m.step a) := by
  have htodo : (m.relocate f).frame.todo = m.frame.todo := rfl
  simp only [step, htodo]
  cases m.frame.todo with
  | nil => exact leave_relocate m
  | cons task todo => exact congrArg Sum.inl (stepTask_relocate a m task todo)

theorem start_relocate (rule : Rule) (level : Nat) (current : Token) (rest : List Token) :
    start a rule level (current.relocate f) (rest.map (Token.relocate f)) =
      (start a rule level current rest).relocate f := rfl

/-- A whole run is the same wherever the tokens are. -/
theorem run_relocate (fuel : Nat) :
    run a fuel (m.relocate f) = (run a fuel m).map (Prod.map (relocate f) (Tree.relocate f)) := by
  induction fuel generalizing m with
  | zero => rfl
  | succ fuel ih =>
    simp only [run, step_relocate]
    cases m.step a with
    | inl n => exact ih n
    | inr tree => rfl

end Machine

/-! ## Texts with the same tokens -/

namespace Parse

/-- The tree of some tokens; none if there are none or it takes too many steps. -/
def treeOf? (rule : Rule) (level : Nat) : List Token → Option Tree
  | [] => none
  | current :: rest =>
    (Machine.run Java.automata (fuel rest.length)
      (Machine.start Java.automata rule level current rest)).map Prod.snd

theorem tree_ofLexed? (lexed : Lexed) (rule : Rule) (level : Nat) :
    (ofLexed? lexed rule level).map Parse.tree = treeOf? rule level lexed.visible := by
  unfold ofLexed?
  cases lexed.visible with
  | nil => rfl
  | cons current rest =>
    simp only [treeOf?, Option.map_map]
    rfl

theorem treeOf?_relocate (f : Relocation) (rule : Rule) (level : Nat) (ts : List Token) :
    treeOf? rule level (ts.map (Token.relocate f)) =
      (treeOf? rule level ts).map (Tree.relocate f) := by
  cases ts with
  | nil => rfl
  | cons current rest =>
    simp only [List.map_cons, treeOf?, List.length_map, Machine.start_relocate,
      Machine.run_relocate, Option.map_map]
    rfl

/-- The tree of a text is that of the contents of its visible tokens, each at its rank, with the tokens
moved to where they are in the text. -/
theorem tree_ofText? (text : String) (rule : Rule) (level : Nat) :
    ∃ f : Relocation, (ofText? text rule level).map Parse.tree =
      (treeOf? rule level (Token.ranked ((Lexed.ofText text).visible.map Token.content))).map
        (Tree.relocate f) := by
  refine ⟨.ofTokens _ (Lexed.visible_increasing text), ?_⟩
  rw [← treeOf?_relocate, Relocation.map_ranked]
  exact tree_ofLexed? _ rule level

end Parse

end Callscope
