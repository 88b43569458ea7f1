import Callscope.Parse.Java
import Callscope.Proofs.Grammar.Sites
import Callscope.Proofs.Lookahead.Range
import Callscope.Proofs.Parse.Moves
import Callscope.Proofs.Token.Spelling

/-!
# Trees of a text without errors

A tree is derived from a grammar if the children of every node are a form of its rule and its leaves are
proper tokens. A frame of the machine is ready if, whatever the tasks left to it may spell, its rule gets
one of its forms. Every step without a report keeps all frames ready, so a text that is read without a
report has a derived tree.
-/

namespace Callscope

namespace Tree

/-- All leaves are ends of the text. -/
def OnlyEnd (t : Tree) : Prop := ∀ l ∈ t.leaves, l.kind? = some .eof

/-- The tree follows the grammar. A node that has taken no token before its end covers none of the
text. -/
inductive Derived (g : Grammar) : Tree → Prop
  | token {t : Token} (proper : t.Proper) : Derived g (.token t)
  | node {r : Rule} {first : Token} {last : Option Token} {labels : List (Label × String)}
      {children : List Tree} (form : Item.Forms r (g r) (children.map Symbol.of))
      (parts : ∀ t ∈ children, Derived g t) (ended : last = none → ∀ t ∈ children, t.OnlyEnd) :
      Derived g (.node r first last labels children)

theorem leavesAll_eq (ts : List Tree) : leavesAll ts = ts.flatMap leaves := by
  induction ts with
  | nil => rfl
  | cons t ts ih => rw [leavesAll, ih, List.flatMap_cons]

theorem mem_leavesAll {l : Tree} {ts : List Tree} : l ∈ leavesAll ts ↔ ∃ t ∈ ts, l ∈ t.leaves := by
  rw [leavesAll_eq, List.mem_flatMap]

theorem onlyEnd_node {r : Rule} {first : Token} {last : Option Token}
    {labels : List (Label × String)} {children : List Tree}
    (h : ∀ t ∈ children, t.OnlyEnd) : (node r first last labels children).OnlyEnd := by
  intro l hl
  rw [leaves, mem_leavesAll] at hl
  obtain ⟨t, ht, hl⟩ := hl
  exact h t ht l hl

end Tree

/-! ## Decisions -/

namespace Machine

theorem choiceOf_lt {k : Kind} {heads : List KindSet} {i : Nat}
    (h : choiceOf k heads = some i) : i < heads.length := by
  induction heads generalizing i with
  | nil => cases h
  | cons s ss ih =>
    rw [choiceOf] at h
    split at h
    · cases h
      exact Nat.succ_pos _
    · obtain ⟨j, hj, rfl⟩ := Option.map_eq_some_iff.mp h
      exact Nat.succ_lt_succ (ih hj)

/-- A decision is for one of the choices that the site offers. -/
theorem decideAt_lt {t : Tables} {m m' : Machine} {site n i : Nat} {otherwise : Option Nat}
    (hoffers : t.Offers site n) (hn : 0 < n) (hother : ∀ j, otherwise = some j → j < n)
    (h : m.decideAt (.ofTables t) site otherwise = .ok (m', i)) : i < n := by
  have htables : (Lookahead.Automata.ofTables t).tables = t := rfl
  rw [decideAt, htables] at h
  split at h
  · cases h
    exact hn
  · rename_i d hd
    obtain ⟨hnexts, hheads⟩ := hoffers d hd
    split at h
    · split at h
      · rename_i j hj
        cases h
        rcases Option.or_eq_some_iff.mp hj with hj | ⟨_, hj⟩
        · exact hheads ▸ choiceOf_lt hj
        · exact hother i hj
      · cases h
    · dsimp only at h
      split at h
      · rename_i alt halt
        cases h
        have hwithin := Lookahead.within_choose hd halt
        omega
      · cases h

end Machine

/-! ## Tasks -/

namespace Task

/-- The words of a task. After a round of a loop there may be more of them. -/
def Spells : Task → List Symbol → Prop
  | item i, w => i.Spells w
  | again (.loop s body), w | again (.loopOnce s body), w => (Item.loop s body).Spells w
  | again _, w => w = []

open Item

variable {task : Task} {body : List Item}

/-- A task that is repeated is a loop, before or after a round. -/
theorem body_cases (h : task.body? = some body) : ∃ s,
    (task = item (.loop s body) ∨ task = again (.loop s body)) ∨
      task = item (.loopOnce s body) ∨ task = again (.loopOnce s body) := by
  unfold body? at h
  split at h
  · cases h
    exact ⟨_, .inl (.inl rfl)⟩
  · cases h
    exact ⟨_, .inl (.inr rfl)⟩
  · cases h
    exact ⟨_, .inr (.inl rfl)⟩
  · cases h
    exact ⟨_, .inr (.inr rfl)⟩
  · cases h

theorem subject_of_body (h : task.body? = some body) :
    ∃ s, task.subject = .loop s body ∨ task.subject = .loopOnce s body := by
  obtain ⟨s, (rfl | rfl) | (rfl | rfl)⟩ := body_cases h
  · exact ⟨s, .inl rfl⟩
  · exact ⟨s, .inl rfl⟩
  · exact ⟨s, .inr rfl⟩
  · exact ⟨s, .inr rfl⟩

/-- A round of a loop and what the loop spells after it. -/
theorem spells_round {u v : List Symbol} (h : task.body? = some body) (hu : SpellsAll body u)
    (hv : (again task.subject).Spells v) : task.Spells (u ++ v) := by
  obtain ⟨s, (rfl | rfl) | (rfl | rfl)⟩ := body_cases h
  · exact spells_loop_cons (s := s) hu hv
  · exact spells_loop_cons (s := s) hu hv
  · exact spells_loopOnce_cons (s := s) hu hv
  · exact spells_loop_cons (s := s) hu hv

theorem spells_of_ends (h : task.Ends) : task.Spells [] := by
  cases task with
  | item i =>
    cases i with
    | loop s body => exact spells_loop_nil (s := s)
    | climb s ops => rw [Task.Spells, Item.Spells]
    | terminal | terminalOf | call | branch | loopOnce => exact h.elim
  | again i =>
    cases i with
    | loop s body => exact spells_loop_nil (s := s)
    | loopOnce s body => exact spells_loop_nil (s := s)
    | terminal | terminalOf | call | branch | climb => rfl

variable {g : Grammar} {r : Rule}

/-- Whatever a frame of the rule reads for its tasks after it has read `u`, it ends with a form of the
rule. Operators stand at the end, and each gives a form together with the phrase before it. -/
inductive Ready (g : Grammar) (r : Rule) : List Task → List Symbol → Prop
  | done {u : List Symbol} (form : Forms r (g r) u) : Ready g r [] u
  | next {task : Task} {rest : List Task} {u : List Symbol}
      (wired : Wired (.ofGrammar g) task.subject) (isPlain : plain task.subject = true)
      (after : ∀ w, task.Spells w → Ready g r rest (u ++ w)) : Ready g r (task :: rest) u
  | climb {task : Task} {s : Nat} {ops : List (Nat × List Item)} {u : List Symbol}
      (climbs : task.subject = .climb s ops) (wired : Wired (.ofGrammar g) (.climb s ops))
      (form : Forms r (g r) u)
      (operators : ∀ op ∈ ops, plainAll op.2 = true ∧
        ∀ v, SpellsAll op.2 v → Forms r (g r) (.phrase r :: v)) : Ready g r [task] u

theorem ready_items {is : List Item} {rest : List Task} {u : List Symbol}
    (hp : plainAll is = true) (hw : WiredAll (.ofGrammar g) is)
    (h : ∀ w, SpellsAll is w → Ready g r rest (u ++ w)) :
    Ready g r (is.map .item ++ rest) u := by
  induction is generalizing u with
  | nil =>
    have hrest := h [] (spellsAll_nil.mpr rfl)
    rwa [List.append_nil] at hrest
  | cons i is ih =>
    simp only [plainAll, Bool.and_eq_true] at hp
    rw [WiredAll] at hw
    refine .next hw.1 hp.1 fun w hspells => ih hp.2 hw.2 fun v hv => ?_
    rw [List.append_assoc]
    exact h (w ++ v) (spellsAll_cons.mpr ⟨w, v, rfl, hspells, hv⟩)

theorem ready_begin {items : List Item} (hwired : WiredAll (.ofGrammar g) items)
    (hproper : Proper items) (hforms : ∀ w, Forms r items w → Forms r (g r) w) :
    Ready g r (items.map .item) [] := by
  rcases hproper with hp | ⟨init, s, ops, rfl, hinit, hops⟩
  · have hready := ready_items (u := []) hp hwired fun w hw => .done (hforms w (.inl hw))
    rwa [List.append_nil] at hready
  · obtain ⟨hwinit, hwclimb⟩ := wiredAll_append.mp hwired
    rw [WiredAll] at hwclimb
    rw [List.map_append]
    refine ready_items hinit hwinit fun w hw => ?_
    have hform : Forms r (g r) w := by
      refine hforms w (.inl (spellsAll_append.mpr ⟨w, [], (List.append_nil w).symm, hw, ?_⟩))
      exact spellsAll_cons.mpr ⟨[], [], rfl, by rw [Item.Spells], spellsAll_nil.mpr rfl⟩
    refine .climb rfl hwclimb.1 hform fun op hop => ⟨?_, fun v hv => ?_⟩
    · exact ((plainOps_iff.mp hops).2 op hop).2
    · exact hforms _ (.inr ⟨op, by rw [trailing_concat]; exact hop, v, rfl, hv⟩)

/-- A rule is ready to begin. -/
theorem ready_rule (hg : ∀ r, Proper (g r)) (r : Rule) :
    Ready g r (((Tables.ofGrammar g).rule r).items.map .item) [] := by
  obtain ⟨n, hitems, hwired⟩ := Tables.rule_ofGrammar hg r
  rw [hitems]
  exact ready_begin hwired (proper_numberAll (hg r)) fun w => forms_numberAll (hg r)

end Task

/-! ## The machine -/

namespace Machine

open Callscope.Task

variable {g : Grammar} {m m' : Machine}

/-- What has been read, first first. -/
def symbols (read : List Tree) : List Symbol := read.reverse.map Symbol.of

theorem symbols_cons (t : Tree) (read : List Tree) :
    symbols (t :: read) = symbols read ++ [Symbol.of t] := by
  simp [symbols]

/-- The frames are ready to go on with a phrase of the rule. -/
def Waits (g : Grammar) : Rule → List Frame → Prop
  | _, [] => True
  | inner, f :: fs => Ready g f.rule f.todo (symbols f.read ++ [.phrase inner]) ∧ Waits g f.rule fs

/-- All frames are ready: the innermost one as it is, the others with a phrase of the one inside. -/
def Poised (g : Grammar) (m : Machine) : Prop :=
  Ready g m.frame.rule m.frame.todo (symbols m.frame.read) ∧ Waits g m.frame.rule m.callers

/-- What has been read and what is still to come are in order. -/
structure Grown (g : Grammar) (m : Machine) : Prop where
  proper : ∀ t ∈ m.current :: m.rest, t.Proper
  ends : ∃ init e, m.current :: m.rest = init ++ [e] ∧ e.kind = .eof
  read : ∀ f ∈ m.frame :: m.callers, ∀ t ∈ f.read,
    t.Derived g ∧ (m.last = none → t.OnlyEnd)

/-! ### Fields -/

theorem frame_take (h : m.recovering = false) :
    m.take.frame = { m.frame with read := .token m.current :: m.frame.read } := by
  rw [take, h, advance]
  split <;> rfl

@[simp] theorem callers_take : m.take.callers = m.callers := by
  rw [take, advance]
  split <;> rfl

theorem take_of_rest_nil (h : m.rest = []) :
    m.take.current = m.current ∧ m.take.rest = m.rest ∧ m.take.last = m.last := by
  simp [take, advance, h, addLeaf]

theorem take_of_rest_cons {t : Token} {rest : List Token} (h : m.rest = t :: rest) :
    m.take.current = t ∧ m.take.rest = rest ∧ m.take.last = some m.current := by
  simp [take, advance, h, addLeaf]

/-! ### What has been read -/

theorem Grown.setTodo (h : Grown g m) (todo : List Task) : Grown g (m.setTodo todo) := by
  refine ⟨h.proper, h.ends, fun f hf => ?_⟩
  rcases List.mem_cons.mp hf with rfl | hf
  · exact h.read m.frame List.mem_cons_self
  · exact h.read f (List.mem_cons_of_mem _ hf)

theorem Grown.ask (h : Grown g m) (k : Nat) : Grown g (m.ask k) := ⟨h.proper, h.ends, h.read⟩

theorem Grown.fitted (h : Grown g m) : Grown g m.fitted := ⟨h.proper, h.ends, h.read⟩

theorem Grown.setLabel (h : Grown g m) (l : Option Label) (text : String) :
    Grown g (m.setLabel l text) := by
  cases l with
  | none => exact h
  | some l =>
    refine ⟨h.proper, h.ends, fun f hf => ?_⟩
    rcases List.mem_cons.mp hf with rfl | hf
    · exact h.read m.frame List.mem_cons_self
    · exact h.read f (List.mem_cons_of_mem _ hf)

/-- A token is never the last of the text unless it is its end. -/
theorem eof_of_rest_nil {init : List Token} {e : Token} (hsplit : m.current :: m.rest = init ++ [e])
    (heof : e.kind = .eof) (hrest : m.rest = []) : m.current.kind = .eof := by
  rw [hrest] at hsplit
  cases init with
  | nil =>
    cases hsplit
    exact heof
  | cons x xs => simp at hsplit

/-- What has been read once a token is taken. -/
theorem mem_read_take (hr : m.recovering = false) {f : Frame} {t : Tree}
    (hf : f ∈ m.take.frame :: m.take.callers) (ht : t ∈ f.read) :
    t = .token m.current ∨ ∃ f' ∈ m.frame :: m.callers, t ∈ f'.read := by
  rw [frame_take hr, callers_take] at hf
  rcases List.mem_cons.mp hf with rfl | hf
  · rcases List.mem_cons.mp ht with rfl | ht
    · exact .inl rfl
    · exact .inr ⟨m.frame, List.mem_cons_self, ht⟩
  · exact .inr ⟨f, List.mem_cons_of_mem _ hf, ht⟩

theorem onlyEnd_token {t : Token} (h : t.kind = .eof) : (Tree.token t).OnlyEnd := by
  intro l hl
  have hl' : l = .token t := by simpa [Tree.leaves] using hl
  rw [hl', Tree.kind?, h]

/-- Taking the end of the text leaves no token behind, and taking another token leaves that one. -/
theorem Grown.take (h : Grown g m) (hr : m.recovering = false) : Grown g m.take := by
  have hproper := h.proper m.current List.mem_cons_self
  obtain ⟨init, e, hsplit, heof⟩ := h.ends
  cases hrest : m.rest with
  | nil =>
    obtain ⟨hcurrent, hnil, hlast⟩ := take_of_rest_nil hrest
    refine ⟨by rw [hcurrent, hnil]; exact h.proper, by rw [hcurrent, hnil]; exact h.ends, ?_⟩
    intro f hf t ht
    rw [hlast]
    rcases mem_read_take hr hf ht with rfl | ⟨f', hf', ht'⟩
    · exact ⟨.token hproper, fun _ => onlyEnd_token (eof_of_rest_nil hsplit heof hrest)⟩
    · exact h.read f' hf' t ht'
  | cons t rest =>
    obtain ⟨hcurrent, htail, hlast⟩ := take_of_rest_cons hrest
    have hproper' := h.proper
    rw [hrest] at hsplit hproper'
    refine ⟨?_, ?_, ?_⟩
    · rw [hcurrent, htail]
      exact fun t' ht' => hproper' t' (List.mem_cons_of_mem _ ht')
    · rw [hcurrent, htail]
      cases init with
      | nil => simp at hsplit
      | cons x xs => exact ⟨xs, e, (List.cons.inj hsplit).2, heof⟩
    · intro f hf t' ht'
      rw [hlast]
      rcases mem_read_take hr hf ht' with rfl | ⟨f', hf', hold⟩
      · exact ⟨.token hproper, fun hnone => by cases hnone⟩
      · exact ⟨(h.read f' hf' t' hold).1, fun hnone => by cases hnone⟩

theorem Grown.close (h : Grown g m)
    (hform : Item.Forms m.frame.rule (g m.frame.rule) (symbols m.frame.read)) :
    m.close.Derived g ∧ (m.last = none → m.close.OnlyEnd) := by
  have hread := h.read m.frame List.mem_cons_self
  have hended : m.last = none → ∀ t ∈ m.frame.read.reverse, t.OnlyEnd :=
    fun hlast t ht => (hread t (List.mem_reverse.mp ht)).2 hlast
  refine ⟨.node hform (fun t ht => (hread t (List.mem_reverse.mp ht)).1) hended, fun hlast => ?_⟩
  exact Tree.onlyEnd_node (hended hlast)

theorem Grown.wrap (h : Grown g m)
    (hform : Item.Forms m.frame.rule (g m.frame.rule) (symbols m.frame.read)) :
    Grown g m.wrap := by
  refine ⟨h.proper, h.ends, fun f hf t ht => ?_⟩
  rcases List.mem_cons.mp hf with rfl | hf
  · rw [List.mem_singleton.mp ht]
    exact h.close hform
  · exact h.read f (List.mem_cons_of_mem _ hf) t ht

theorem Grown.enter (h : Grown g m) {a : Lookahead.Automata} (site : Nat) (rule : Rule)
    (level : Nat) (label : Option Label) : Grown g (m.enter a site rule level label) := by
  refine ⟨h.proper, h.ends, fun f hf t ht => ?_⟩
  rcases List.mem_cons.mp hf with rfl | hf
  · cases ht
  · exact h.read f hf t ht

theorem Grown.leave (h : Grown g m)
    (hform : Item.Forms m.frame.rule (g m.frame.rule) (symbols m.frame.read))
    {caller : Frame} {callers : List Frame} (hcallers : m.callers = caller :: callers)
    (labels : List (Label × String)) :
    Grown g { m with frame := { caller with read := m.close :: caller.read, labels }, callers } := by
  have hcaller : ∀ f ∈ caller :: callers, f ∈ m.frame :: m.callers :=
    fun f hf => List.mem_cons_of_mem _ (hcallers ▸ hf)
  refine ⟨h.proper, h.ends, fun f hf t ht => ?_⟩
  rcases List.mem_cons.mp hf with rfl | hf
  · rcases List.mem_cons.mp ht with rfl | ht
    · exact h.close hform
    · exact h.read caller (hcaller caller List.mem_cons_self) t ht
  · exact h.read f (hcaller f (List.mem_cons_of_mem _ hf)) t ht

/-! ### What is left to do -/

/-- A task that is not an operator's leaves the others ready for what it spells. -/
theorem ready_after {r : Rule} {task : Task} {todo : List Task} {u w : List Symbol}
    (h : Ready g r (task :: todo) u) (hplain : ∀ s ops, task.subject ≠ .climb s ops)
    (hspells : task.Spells w) : Ready g r todo (u ++ w) := by
  cases h with
  | next wired isPlain after => exact after w hspells
  | climb climbs => exact absurd climbs (hplain _ _)

/-- The tasks of the next round of a loop are ready if the loop is. -/
theorem ready_round {r : Rule} {task : Task} {body : List Item} {todo : List Task}
    {u : List Symbol} (h : Ready g r (task :: todo) u) (hbody : task.body? = some body) :
    Ready g r (body.map .item ++ .again task.subject :: todo) u := by
  obtain ⟨s, hsubject⟩ := subject_of_body hbody
  cases h with
  | next wired isPlain after =>
    have hinside : Item.plainAll body = true ∧ Item.WiredAll (.ofGrammar g) body := by
      rcases hsubject with hs | hs
      · rw [hs, Item.plain] at isPlain
        rw [hs, Item.Wired] at wired
        exact ⟨isPlain, wired⟩
      · rw [hs, Item.plain] at isPlain
        rw [hs, Item.Wired] at wired
        exact ⟨isPlain, wired⟩
    refine ready_items hinside.1 hinside.2 fun w hw => .next wired isPlain fun v hv => ?_
    rw [List.append_assoc]
    exact after _ (spells_round hbody hw hv)
  | climb climbs => rcases hsubject with hs | hs <;> rw [hs] at climbs <;> cases climbs

/-- A task that can be ended leaves the others ready. -/
theorem ready_pass {r : Rule} {task : Task} {todo : List Task} {u : List Symbol}
    (h : Ready g r (task :: todo) u) (hends : task.Ends) : Ready g r todo u := by
  cases h with
  | next wired isPlain after =>
    have hready := after [] (spells_of_ends hends)
    rwa [List.append_nil] at hready
  | climb climbs wired form operators => exact .done form

/-- The phrase read so far is the left operand of an operator. -/
theorem ready_operator {r : Rule} {task : Task} {site : Nat} {ops : List (Nat × List Item)}
    {op : Nat × List Item} {todo : List Task} {u : List Symbol}
    (h : Ready g r (task :: todo) u) (hclimb : task.subject = .climb site ops) (hop : op ∈ ops) :
    Item.Forms r (g r) u ∧
      Ready g r (op.2.map .item ++ .again task.subject :: todo) [.phrase r] := by
  cases h with
  | next wired isPlain after => simp [hclimb, Item.plain] at isPlain
  | climb climbs wired form operators =>
    cases hclimb.symm.trans climbs
    have hinside : Item.WiredAll (.ofGrammar g) op.2 := by
      rw [Item.Wired] at wired
      exact wired.2.2.mem hop
    refine ⟨form, ready_items (operators op hop).1 hinside fun v hv => ?_⟩
    exact .climb climbs wired ((operators op hop).2 v hv) operators

/-! ### Steps and runs -/

/-- What the steps of a run without a report keep. -/
structure Deriving (g : Grammar) (m : Machine) : Prop where
  poised : Poised g m
  grown : Grown g m

theorem Deriving.setTodo (h : Deriving g m) {todo : List Task} (k : Nat)
    (hready : Ready g m.frame.rule todo (symbols m.frame.read)) :
    Deriving g ((m.ask k).setTodo todo) :=
  ⟨⟨hready, h.poised.2⟩, (h.grown.ask k).setTodo todo⟩

theorem Deriving.setLabel (h : Deriving g m) (l : Option Label) (text : String) :
    Deriving g (m.setLabel l text) := by
  refine ⟨?_, h.grown.setLabel l text⟩
  cases l with
  | none => exact h.poised
  | some l => exact h.poised

/-- The innermost rule is ended: its phrase is what the caller waited for. -/
theorem Deriving.leave (h : Deriving g m) (hdone : m.frame.todo = []) (hleft : m.leave = .inl m') :
    Deriving g m' := by
  obtain ⟨⟨hready, hwaits⟩, hgrown⟩ := h
  rw [hdone] at hready
  cases hready with | done hform => ?_
  obtain ⟨caller, callers, labels, hcallers, rfl⟩ := exists_of_leave hleft
  rw [hcallers, Waits] at hwaits
  have hsymbols : symbols (m.close :: caller.read) =
      symbols caller.read ++ [.phrase m.frame.rule] := symbols_cons _ _
  exact ⟨⟨by rw [hsymbols]; exact hwaits.1, hwaits.2⟩, hgrown.leave hform hcallers labels⟩

theorem poised_enter (t : Tables) (site : Nat) (rule : Rule) (level : Nat) (label : Option Label)
    (hrule : Ready g rule ((t.rule rule).items.map .item) [])
    (hcaller : Ready g m.frame.rule m.frame.todo (symbols m.frame.read ++ [.phrase rule]))
    (hwaits : Waits g m.frame.rule m.callers) :
    Poised g (m.enter (.ofTables t) site rule level label) :=
  ⟨hrule, hcaller, hwaits⟩

theorem poised_start (t : Tables) (rule : Rule) (level : Nat) (current : Token) (rest : List Token)
    (hrule : Ready g rule ((t.rule rule).items.map .item) []) :
    Poised g (start (.ofTables t) rule level current rest) :=
  ⟨hrule, trivial⟩

/-- A token that fits is read. -/
theorem Grown.taken (h : Grown g m) (hwaits : Waits g m.frame.rule m.callers)
    (hr : m.recovering = false)
    (hready : Ready g m.frame.rule m.frame.todo
      (symbols m.frame.read ++ [.token m.current.kind])) : Deriving g m.take := by
  refine ⟨?_, h.take hr⟩
  rw [Poised, frame_take hr, callers_take, symbols_cons]
  exact ⟨hready, hwaits⟩

theorem getD_mem {α : Type} {l : List α} {i : Nat} (h : i < l.length) (d : α) : l.getD i d ∈ l := by
  rw [List.getD_eq_getElem?_getD, List.getElem?_eq_getElem h]
  exact List.getElem_mem h

/-- The alternative that is decided for is one of the choice. -/
theorem alternative_mem {r : Rule} {site i : Nat} {alts : List (List Item)} {todo : List Task}
    {u : List Symbol} (h : Ready g r (.item (.branch site alts) :: todo) u)
    (decided : m.decideAt (.ofTables (.ofGrammar g)) site
      (if (alts.getLastD [default]).isEmpty then some (alts.length - 1) else none) = .ok (m', i)) :
    alts.getD i [] ∈ alts := by
  cases h with
  | climb climbs => cases climbs
  | next wired =>
    rw [subject, Item.Wired] at wired
    have hpos : 0 < alts.length := List.length_pos_iff.mpr wired.1
    refine getD_mem (decideAt_lt wired.2.1 hpos (fun j hj => ?_) decided) []
    split at hj
    · cases hj
      omega
    · cases hj

/-- The operator that is decided for is one of the loop. -/
theorem operator_mem {r : Rule} {task : Task} {site : Nat} {ops : List (Nat × List Item)}
    {op : Nat × List Item} {todo : List Task} {u : List Symbol} (h : Ready g r (task :: todo) u)
    (climbs : task.subject = .climb site ops)
    (chosen : ops = [op] ∨ ∃ (j : Nat) (m₂ : Machine) (i : Nat),
      (m.ask j).decideAt (.ofTables (.ofGrammar g)) (site + 2) none = .ok (m₂, i) ∧
        op = ops.getD i default) : op ∈ ops := by
  have hwired : Item.Wired (.ofGrammar g) task.subject := by
    cases h with
    | next wired => exact wired
    | climb climbs wired => exact climbs ▸ wired
  rw [climbs, Item.Wired] at hwired
  rcases chosen with rfl | ⟨j, m₂, i, decided, rfl⟩
  · exact List.mem_singleton.mpr rfl
  · have hpos : 0 < ops.length := List.length_pos_iff.mpr hwired.1
    exact getD_mem (decideAt_lt hwired.2.1 hpos (fun j hj => by cases hj) decided) default

/-- A step without a report keeps all frames ready. -/
theorem Deriving.moves (hg : ∀ r, Item.Proper (g r)) (h : Deriving g m)
    (hm : Moves (.ofTables (.ofGrammar g)) m m') : Deriving g m' := by
  obtain ⟨hready, hwaits⟩ := h.poised
  have hgrown := h.grown
  cases hm with
  | leave done left => exact h.leave done left
  | @terminal site label todo next =>
    rw [next] at hready
    have hafter := ready_after hready (w := [.token m.current.kind])
      (fun s ops => Item.noConfusion) (by rw [Task.Spells, Item.Spells])
    exact ((hgrown.setTodo todo).fitted.taken hwaits rfl hafter).setLabel _ _
  | @terminalOf site kinds label todo next fits =>
    rw [next] at hready
    have hafter := ready_after hready (w := [.token m.current.kind])
      (fun s ops => Item.noConfusion) (by rw [Task.Spells, Item.Spells]; exact ⟨_, fits, rfl⟩)
    refine ((hgrown.setTodo todo).setLabel label _).fitted.taken ?_ rfl ?_
    · cases label <;> exact hwaits
    · cases label <;> exact hafter
  | @call site rule level label todo next =>
    rw [next] at hready
    have hafter := ready_after hready (w := [.phrase rule])
      (fun s ops => Item.noConfusion) (by rw [Task.Spells, Item.Spells])
    exact ⟨poised_enter (.ofGrammar g) site rule level label (ready_rule hg rule) hafter hwaits,
      (hgrown.setTodo todo).enter site rule level label⟩
  | @branch site i alts todo m₁ next decided =>
    rw [next] at hready
    obtain ⟨k, rfl⟩ := decideAt_ok decided
    have hmem := alternative_mem hready decided
    refine h.setTodo k ?_
    cases hready with
    | climb climbs => cases climbs
    | next wired isPlain after =>
      rw [subject, Item.Wired] at wired
      rw [subject, Item.plain, Bool.and_eq_true] at isPlain
      refine ready_items (Item.plainAlts_iff.mp isPlain.2 _ hmem) (wired.2.2.mem hmem) fun w hw => ?_
      refine after w ?_
      rw [Task.Spells, Item.Spells]
      exact Item.spellsOne_iff.mpr ⟨_, hmem, hw⟩
  | @round task body todo next repeats k =>
    rw [next] at hready
    exact h.setTodo k (ready_round hready repeats)
  | @pass task todo next ends k declined =>
    rw [next] at hready
    exact h.setTodo k (ready_pass hready ends)
  | @operator task site k ops op todo next climbs taken chosen reaches =>
    rw [next] at hready
    have hmem := operator_mem hready climbs chosen
    obtain ⟨hform, hnext⟩ := ready_operator hready climbs hmem
    exact ⟨⟨hnext, hwaits⟩, ((hgrown.ask k).wrap hform).setTodo _⟩

theorem deriving_start (hg : ∀ r, Item.Proper (g r)) (rule : Rule) (level : Nat) {current : Token}
    {rest : List Token} (hproper : ∀ t ∈ current :: rest, t.Proper)
    (hends : ∃ init e, current :: rest = init ++ [e] ∧ e.kind = .eof) :
    Deriving g (start (.ofTables (.ofGrammar g)) rule level current rest) := by
  refine ⟨poised_start (.ofGrammar g) rule level current rest (ready_rule hg rule), hproper, hends,
    fun f hf t ht => ?_⟩
  rw [List.mem_singleton.mp hf] at ht
  cases ht

end Machine

/-! ## Texts -/

/-- What holds before the first step and is kept by every step without a report holds after the last one
if a text is read without a report. -/
theorem Parse.exists_of_reports_nil {text : String} {rule : Rule} {level : Nat} {p : Parse}
    {P : Machine → Prop} (h : Parse.ofText? text rule level = some p) (hclean : p.reports = [])
    (hstart : ∀ current rest, (Lexed.ofText text).visible = current :: rest →
      P (Machine.start Java.automata rule level current rest))
    (hmove : ∀ m m', Machine.Moves Java.automata m m' → P m → P m') :
    ∃ m, P m ∧ m.frame.todo = [] ∧ m.callers = [] ∧ p.tree = m.close := by
  rw [Parse.ofText?, Parse.ofLexed?] at h
  split at h
  · cases h
  · rename_i current rest hvisible
    obtain ⟨⟨m, tree⟩, hrun, rfl⟩ := Option.map_eq_some_iff.mp h
    exact ⟨m, Machine.run_moves (fun _ hmoves => hmove _ _ hmoves) hrun
      (List.reverse_eq_nil_iff.mp hclean) (fun hr => by cases hr) (hstart current rest hvisible)⟩

theorem Parse.deriving_start {text : String} (rule : Rule) (level : Nat) {current : Token}
    {rest : List Token} (hvisible : (Lexed.ofText text).visible = current :: rest) :
    Machine.Deriving Java.body (Machine.start Java.automata rule level current rest) := by
  obtain ⟨hproper, init, place, index, hends⟩ := Lexed.visible_ofText text
  rw [hvisible] at hproper hends
  exact Machine.deriving_start Java.proper_body rule level hproper ⟨init, _, hends, rfl⟩

/-- The tree of a text that is read as a phrase of a rule without a report is a phrase of that rule and
follows the grammar. -/
theorem Parse.derived_of_reports_nil {text : String} {rule : Rule} {level : Nat} {p : Parse}
    (h : Parse.ofText? text rule level = some p) (hclean : p.reports = []) :
    p.tree.Derived Java.body ∧ p.tree.rule? = some rule := by
  obtain ⟨m, ⟨hderiving, houter⟩, hdone, hcallers, htree⟩ := Parse.exists_of_reports_nil
    (P := fun m => Machine.Deriving Java.body m ∧ m.begun.getLast? = some (rule, level)) h hclean
    (fun current rest hvisible => ⟨deriving_start rule level hvisible, rfl⟩)
    (fun m m' hmoves hp => ⟨hp.1.moves Java.proper_body hmoves, hmoves.outermost.trans hp.2⟩)
  have hready := hderiving.poised.1
  rw [hdone] at hready
  cases hready with | done hform => ?_
  rw [Machine.begun, hcallers] at houter
  rw [htree]
  exact ⟨(hderiving.grown.close hform).1, congrArg (Option.map Prod.fst) houter⟩

end Callscope
