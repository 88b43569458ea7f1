import Callscope.Proofs.Parse.Derivation
import Callscope.Proofs.Parse.Ladder

/-!
# Phrases of a rule with operators

Whatever the parser reads for a rule with operators it reads at a level. `Graded` says how such a phrase
is put together: an operand, or a phrase at the same level that an operator extends. The level bounds the
operators, the operand at the end of an operator is a phrase at the level that the grammar gives it, and an
operator binds looser than the operand before it. The invariant of the parser says for each phrase of the
rule that is not complete which operand or operator it is in, and what is left of that.
-/

namespace Callscope

namespace Item

/-- The level at which the phrase of a rule at the end of some items is read. -/
def lastLevel? (r : Rule) (is : List Item) : Option Nat :=
  match is.getLast? with
  | some (.call _ r' q _) => if r' = r then some q else none
  | _ => none

theorem lastLevel?_eq_some {r : Rule} {is : List Item} {q : Nat} :
    lastLevel? r is = some q ↔ ∃ s l, is.getLast? = some (.call s r q l) := by
  unfold lastLevel?
  split
  · rename_i s r' q' l hlast
    rw [hlast]
    simp only [Option.some.injEq, call.injEq]
    constructor
    · intro h
      split at h
      · cases h
        exact ⟨s, l, rfl, ‹_›, rfl, rfl⟩
      · cases h
    · rintro ⟨s', l', rfl, rfl, rfl, rfl⟩
      rw [if_pos rfl]
  · rename_i hlast
    refine iff_of_false (by simp) ?_
    rintro ⟨s, l, h⟩
    exact hlast s r q l h

end Item

/-! ## Trees -/

namespace Tree

section

variable (t : Tables) (r : Rule) (alts : List (List Item)) (ops : List (Nat × List Item))

/-- The tree is a phrase of the rule that was read at a level. If it ends in the operand of an operator,
the level of that is known. -/
inductive Graded : Nat → Option Nat → Tree → Prop
  | operand {level : Nat} {alt : List Item} {inner : Option Nat} {first : Token} {last : Option Token}
      {labels : List (Label × String)} {children : List Tree} (among : alt ∈ alts)
      (spells : Item.SpellsAll alt (children.map Symbol.of))
      (ends : ∀ q c, Item.lastLevel? r alt = some q → children.getLast? = some c →
        Graded q inner c) :
      Graded level none (.node r first last labels children)
  | operator {level : Nat} {op : Nat × List Item} {bound inner : Option Nat} {lead : Tree}
      {first : Token} {last : Option Token} {labels : List (Label × String)} {children : List Tree}
      (among : op ∈ ops) (reaches : level ≤ op.1) (leading : Graded level bound lead)
      (looser : ∀ q, bound = some q → t.Looser ops op q)
      (spells : Item.SpellsAll op.2 (children.map Symbol.of))
      (ends : ∀ q c, Item.lastLevel? r op.2 = some q → children.getLast? = some c →
        Graded q inner c) :
      Graded level (Item.lastLevel? r op.2) (.node r first last labels (lead :: children))

/-- Every phrase of the rule in the tree was read at some level. -/
inductive Layered : Tree → Prop
  | token (tk : Token) : Layered (.token tk)
  | node {rule : Rule} {first : Token} {last : Option Token} {labels : List (Label × String)}
      {children : List Tree} (graded : rule = r → ∃ level bound,
        Graded t r alts ops level bound (.node rule first last labels children))
      (parts : ∀ c ∈ children, Layered c) : Layered (.node rule first last labels children)

end

variable {t : Tables} {r : Rule} {alts : List (List Item)} {ops : List (Nat × List Item)} {u c : Tree}

theorem Layered.of_mem (h : u.Layered t r alts ops) (hc : c ∈ u.children) :
    c.Layered t r alts ops := by
  cases h with
  | token => cases hc
  | node graded parts => exact parts c hc

theorem Layered.graded_of_rule (h : u.Layered t r alts ops) (hr : u.rule? = some r) :
    ∃ level bound, Graded t r alts ops level bound u := by
  cases h with
  | token => cases hr
  | node graded parts => exact graded (Option.some.inj hr)

end Tree

/-! ## Tasks -/

namespace Task

/-- The words of some tasks. -/
def SpellsAll : List Task → List Symbol → Prop
  | [], w => w = []
  | task :: ts, w => ∃ u v, w = u ++ v ∧ task.Spells u ∧ SpellsAll ts v

variable {ts us : List Task} {w : List Symbol}

theorem exists_of_spellsAll_append (h : SpellsAll (ts ++ us) w) :
    ∃ u v, w = u ++ v ∧ SpellsAll ts u ∧ SpellsAll us v := by
  induction ts generalizing w with
  | nil => exact ⟨[], w, rfl, rfl, h⟩
  | cons task ts ih =>
    obtain ⟨x, y, rfl, hx, hy⟩ := h
    obtain ⟨u, v, rfl, hu, hv⟩ := ih hy
    exact ⟨x ++ u, v, (List.append_assoc ..).symm, ⟨x, u, rfl, hx, hu⟩, hv⟩

theorem spellsAll_of_items {is : List Item} (h : SpellsAll (is.map .item) w) :
    Item.SpellsAll is w := by
  induction is generalizing w with
  | nil => exact Item.spellsAll_nil.mpr h
  | cons i is ih =>
    obtain ⟨u, v, rfl, hu, hv⟩ := h
    exact Item.spellsAll_cons.mpr ⟨u, v, rfl, hu, ih hv⟩

end Task

namespace Machine

open Callscope.Task Callscope.Tree

/-! ## Work on a phrase -/

section

variable (t : Tables) (r : Rule) (alts : List (List Item)) (L : Nat) (ops : List (Nat × List Item))

/-- What a phrase is in: an operand, or an operator after a phrase. -/
inductive Basis (level : Nat) : List Tree → List Item → Option Nat → Prop
  | operand {alt : List Item} (among : alt ∈ alts) : Basis level [] alt none
  | operator {op : Nat × List Item} {bound : Option Nat} {lead : Tree} (among : op ∈ ops)
      (reaches : level ≤ op.1) (leading : Graded t r alts ops level bound lead)
      (looser : ∀ q, bound = some q → t.Looser ops op q) :
      Basis level [lead] op.2 (Item.lastLevel? r op.2)

/-- A frame is in an operand or an operator: it has read the children and has the tasks left, and the next
symbols are being read by a call. If an operand comes last, that is either the last task or closed. -/
structure Going (f : Frame) (next : List Symbol) (closed : Nat → Nat → Prop) (lead : List Tree)
    (items : List Item) (bound : Option Nat) (children : List Tree) (tasks : List Task)
    (loop : Task) : Prop where
  basis : Basis t r alts ops f.level lead items bound
  read : f.read.reverse = lead ++ children
  todo : f.todo = tasks ++ [loop]
  climbs : loop.subject = .climb L ops
  words : ∀ w, SpellsAll tasks w →
    Item.SpellsAll items (children.map Symbol.of ++ next ++ w)
  tail : ∀ s q l, items.getLast? = some (.call s r q l) →
    tasks = [] ∧ closed s q ∨ tasks.getLast? = some (.item (.call s r q l))

/-- The operand that was read last is a phrase at a level, and its loop was left at the current token. -/
def Closed (m : Machine) (s q : Nat) : Prop :=
  ∃ c inner, m.frame.read.head? = some c ∧ Graded t r alts ops q inner c ∧
    Declines (.ofTables t) L q (m.frame.stack.push (t.returnSite s)) m.current m.rest

/-- How far the innermost phrase is, if it is one of the rule. -/
inductive Stage (m : Machine) : Prop
  | fresh (read : m.frame.read = []) (todo : m.frame.todo = (t.rule r).items.map .item) : Stage m
  | going {lead : List Tree} {items : List Item} {bound : Option Nat} {children : List Tree}
      {tasks : List Task} {loop : Task}
      (work : Going t r alts L ops m.frame [] (Closed t r alts L ops m) lead items bound children
        tasks loop) : Stage m
  | ended {bound : Option Nat} (todo : m.frame.todo = [])
      (graded : Graded t r alts ops m.frame.level bound m.close)
      (declined : Declines (.ofTables t) L m.frame.level m.frame.stack m.current m.rest) : Stage m

/-- A frame reads the operand that a site of the frame around it calls for at a level. -/
def Due (inner f : Frame) (s q : Nat) : Prop :=
  inner.rule = r ∧ inner.level = q ∧ inner.stack = f.stack.push (t.returnSite s)

/-- The frames of the rule around a frame wait for its phrase. -/
def Awaits : Frame → List Frame → Prop
  | _, [] => True
  | inner, f :: fs =>
    (f.rule = r → ∃ lead items bound children tasks loop, Going t r alts L ops f
      [.phrase inner.rule] (Due t r inner f) lead items bound children tasks loop) ∧ Awaits f fs

/-- What the steps of a run without a report keep. -/
structure Climbing (m : Machine) : Prop where
  full : ∀ f ∈ m.frame :: m.callers, f.stack.Full
  read : ∀ f ∈ m.frame :: m.callers, ∀ c ∈ f.read, c.Layered t r alts ops
  inner : m.frame.rule = r → Stage t r alts L ops m
  outer : Awaits t r alts L ops m.frame m.callers

/-- A task is done, and other tasks and some tokens are left of it. -/
structure Works (m : Machine) (task : Task) (todo new : List Task) (extra : List Tree)
    (m' : Machine) : Prop where
  next : m.frame.todo = task :: todo
  frame : ∃ labels, m'.frame =
    { m.frame with todo := new ++ todo, read := extra ++ m.frame.read, labels }
  callers : m'.callers = m.callers
  tokens : ∀ c ∈ extra, ∃ tk, c = .token tk
  spells : ∀ w, SpellsAll new w → task.Spells (symbols extra ++ w)
  noCall : ∀ s rule q l, task ≠ .item (.call s rule q l)
  noLoop : ∀ s ops, task.subject ≠ .climb s ops

end

variable {t : Tables} {r : Rule} {alts : List (List Item)} {L : Nat} {ops : List (Nat × List Item)}
  {m m' : Machine} {f : Frame} {next : List Symbol} {closed closed' : Nat → Nat → Prop}
  {lead : List Tree} {items : List Item} {bound : Option Nat} {children : List Tree}
  {tasks : List Task} {loop task : Task} {todo new : List Task} {extra : List Tree}

theorem Basis.close {level : Nat} {inner : Option Nat}
    (h : Basis t r alts ops level lead items bound)
    (hspells : Item.SpellsAll items (children.map Symbol.of))
    (hends : ∀ q c, Item.lastLevel? r items = some q → children.getLast? = some c →
      Graded t r alts ops q inner c) (first : Token) (last : Option Token)
    (labels : List (Label × String)) :
    Graded t r alts ops level bound (.node r first last labels (lead ++ children)) := by
  cases h with
  | operand among => exact .operand among hspells hends
  | operator among reaches leading looser =>
    exact .operator among reaches leading looser hspells hends

/-- With no task left, the phrase is one at the level of its frame. -/
theorem Going.graded (h : Going t r alts L ops m.frame [] (Closed t r alts L ops m) lead items bound
    children [] loop) (hrule : m.frame.rule = r) :
    Graded t r alts ops m.frame.level bound m.close := by
  have hspells := h.words [] rfl
  rw [List.append_nil, List.append_nil] at hspells
  have hends : ∃ inner, ∀ q c, Item.lastLevel? r items = some q → children.getLast? = some c →
      Graded t r alts ops q inner c := by
    cases hlast : Item.lastLevel? r items with
    | none => exact ⟨none, fun q c hq => by cases hq⟩
    | some q =>
      obtain ⟨s, l, hitem⟩ := Item.lastLevel?_eq_some.mp hlast
      rcases h.tail s q l hitem with ⟨_, c, inner, hc, hgraded, _⟩ | hnone
      · refine ⟨inner, fun q' c' hq hc' => ?_⟩
        cases hq
        rw [← List.getLast?_reverse, h.read, List.getLast?_append, hc'] at hc
        cases hc
        exact hgraded
      · cases hnone
  obtain ⟨inner, hends⟩ := hends
  rw [close, hrule, h.read]
  exact h.basis.close hspells hends _ _ _

/-- The first task is one of the operand or operator, unless it is the loop. -/
theorem Going.exists_tasks
    (h : Going t r alts L ops f next closed lead items bound children tasks loop)
    (hnext : f.todo = task :: todo) (hloop : ∀ s ops, task.subject ≠ .climb s ops) :
    ∃ rest, tasks = task :: rest ∧ todo = rest ++ [loop] := by
  have htodo := h.todo
  rw [hnext] at htodo
  cases tasks with
  | nil =>
    cases htodo
    exact absurd h.climbs (hloop L ops)
  | cons first rest =>
    cases htodo
    exact ⟨rest, rfl, rfl⟩

/-- If an operand comes last, it still does so once another task is done. -/
theorem Going.last_of_cons
    (h : Going t r alts L ops f next closed lead items bound children (task :: tasks) loop) {s q : Nat}
    {l : Option Label} (hlast : items.getLast? = some (.call s r q l))
    (hne : task ≠ .item (.call s r q l)) : tasks.getLast? = some (.item (.call s r q l)) := by
  rcases h.tail s q l hlast with ⟨hnil, _⟩ | hlast
  · cases hnil
  · cases tasks with
    | nil => exact absurd (Option.some.inj hlast) hne
    | cons first rest => rwa [List.getLast?_cons_cons] at hlast

theorem Going.work (h : Going t r alts L ops m.frame [] closed lead items bound children tasks loop)
    (hw : m.Works task todo new extra m') (closed' : Nat → Nat → Prop) : ∃ children tasks,
    Going t r alts L ops m'.frame [] closed' lead items bound children tasks loop := by
  obtain ⟨rest, rfl, rfl⟩ := h.exists_tasks hw.next hw.noLoop
  obtain ⟨labels, hframe⟩ := hw.frame
  refine ⟨children ++ extra.reverse, new ++ rest, ?_⟩
  rw [hframe]
  refine ⟨h.basis, ?_, (List.append_assoc ..).symm, h.climbs, fun w hspells => ?_, fun s q l hlast => ?_⟩
  · rw [List.reverse_append, h.read, List.append_assoc]
  · obtain ⟨u, v, rfl, hu, hv⟩ := exists_of_spellsAll_append hspells
    have hwords := h.words _ ⟨_, v, rfl, hw.spells u hu, hv⟩
    simpa [symbols] using hwords
  · right
    rw [List.getLast?_append, h.last_of_cons hlast (hw.noCall s r q l)]
    rfl

/-- An operand or operator is begun. -/
theorem stage_begin (hbasis : Basis t r alts ops m.frame.level lead items bound)
    (hread : m.frame.read.reverse = lead) (htodo : m.frame.todo = items.map .item ++ [loop])
    (hloop : loop.subject = .climb L ops) : Stage t r alts L ops m := by
  have hsplit : m.frame.read.reverse = lead ++ [] := by rw [hread, List.append_nil]
  have hlast : ∀ s q l, items.getLast? = some (.call s r q l) →
      (items.map Task.item).getLast? = some (.item (.call s r q l)) := by
    intro s q l hlast
    rw [List.getLast?_map, hlast]
    rfl
  exact .going ⟨hbasis, hsplit, htodo, hloop, fun w hw => spellsAll_of_items hw,
    fun s q l h => .inr (hlast s q l h)⟩

/-- A call is made. If it is that of the operand at the end, only the loop is left. -/
theorem Going.call {s q : Nat} {rule : Rule} {l : Option Label}
    (h : Going t r alts L ops f [] closed lead items bound children tasks loop)
    (hnext : f.todo = .item (.call s rule q l) :: todo) (closed' : Nat → Nat → Prop)
    (hclosed : rule = r → closed' s q) : ∃ tasks,
    Going t r alts L ops { f with todo } [.phrase rule] closed' lead items bound children tasks loop := by
  obtain ⟨rest, rfl, rfl⟩ := h.exists_tasks hnext fun s ops => Item.noConfusion
  refine ⟨rest, h.basis, h.read, rfl, h.climbs, fun w hw => ?_, fun s' q' l' hlast => ?_⟩
  · have hwords := h.words _ ⟨[.phrase rule], w, rfl, by rw [Task.Spells, Item.Spells], hw⟩
    simpa using hwords
  · by_cases hsame : Task.item (.call s rule q l) = .item (.call s' r q' l')
    · cases hsame
      rcases h.tail s q l hlast with ⟨hnil, _⟩ | htail
      · cases hnil
      · cases rest with
        | nil => exact .inl ⟨rfl, hclosed rfl⟩
        | cons first rest =>
          rw [List.getLast?_cons_cons] at htail
          exact .inr htail
    · exact .inr (h.last_of_cons hlast hsame)

/-- A call has ended. -/
theorem Going.return {c : Tree} (h : Going t r alts L ops f [Symbol.of c] closed lead items bound
    children tasks loop) (labels : List (Label × String)) (hclosed : ∀ s q, closed s q → closed' s q) :
    Going t r alts L ops { f with read := c :: f.read, labels } [] closed' lead items bound
      (children ++ [c]) tasks loop := by
  refine ⟨h.basis, ?_, h.todo, h.climbs, fun w hw => ?_, fun s q l hlast => ?_⟩
  · rw [List.reverse_cons, h.read, List.append_assoc]
  · simpa using h.words w hw
  · exact (h.tail s q l hlast).imp_left fun htail => ⟨htail.1, hclosed s q htail.2⟩

theorem Awaits.of_frame {inner inner' : Frame} {fs : List Frame}
    (h : Awaits t r alts L ops inner fs) (hrule : inner'.rule = inner.rule)
    (hlevel : inner'.level = inner.level) (hstack : inner'.stack = inner.stack) :
    Awaits t r alts L ops inner' fs := by
  cases fs with
  | nil => trivial
  | cons f fs =>
    have hdue : Due t r inner' f = Due t r inner f := by
      funext s q
      rw [Due, Due, hrule, hlevel, hstack]
    rw [Awaits, hrule, hdue]
    exact h

/-! ## Steps -/

/-- A phrase that is complete is layered if its parts are. -/
theorem layered_close (hread : ∀ c ∈ m.frame.read, c.Layered t r alts ops)
    (hgraded : m.frame.rule = r → ∃ level bound, Graded t r alts ops level bound m.close) :
    m.close.Layered t r alts ops :=
  .node hgraded fun c hc => hread c (List.mem_reverse.mp hc)

theorem Climbing.work (h : Climbing t r alts L ops m) (hw : m.Works task todo new extra m')
    (hfresh : m.frame.rule = r → m.frame.read = [] → m.frame.todo = (t.rule r).items.map .item →
      Stage t r alts L ops m') : Climbing t r alts L ops m' := by
  obtain ⟨labels, hframe⟩ := hw.frame
  refine ⟨fun f hf => ?_, fun f hf c hc => ?_, fun hrule => ?_, ?_⟩
  · rw [hw.callers, hframe] at hf
    rcases List.mem_cons.mp hf with rfl | hf
    · exact h.full m.frame List.mem_cons_self
    · exact h.full f (List.mem_cons_of_mem _ hf)
  · rw [hw.callers, hframe] at hf
    rcases List.mem_cons.mp hf with rfl | hf
    · rcases List.mem_append.mp hc with hc | hc
      · obtain ⟨tk, rfl⟩ := hw.tokens c hc
        exact .token tk
      · exact h.read m.frame List.mem_cons_self c hc
    · exact h.read f (List.mem_cons_of_mem _ hf) c hc
  · rw [hframe] at hrule
    cases h.inner hrule with
    | fresh read todo => exact hfresh hrule read todo
    | going work =>
      obtain ⟨children, tasks, hwork⟩ := work.work hw (Closed t r alts L ops m')
      exact .going hwork
    | ended todo => cases hw.next.symm.trans todo
  · rw [hw.callers, hframe]
    exact h.outer.of_frame rfl rfl rfl

theorem Climbing.enter (h : Climbing t r alts L ops m) (hl : t.Ladder r alts L ops) {site level : Nat}
    {rule : Rule} {label : Option Label}
    (hnext : m.frame.todo = .item (.call site rule level label) :: todo) :
    Climbing t r alts L ops ((m.setTodo todo).enter (.ofTables t) site rule level label) := by
  have hfull := h.full m.frame List.mem_cons_self
  refine ⟨fun f hf => ?_, fun f hf c hc => ?_, fun hrule => .fresh rfl ?_, fun hrule => ?_, ?_⟩
  · rcases List.mem_cons.mp hf with rfl | hf
    · exact hfull.push _
    · rcases List.mem_cons.mp hf with rfl | hf
      · exact hfull
      · exact h.full f (List.mem_cons_of_mem _ hf)
  · rcases List.mem_cons.mp hf with rfl | hf
    · cases hc
    · rcases List.mem_cons.mp hf with rfl | hf
      · exact h.read m.frame List.mem_cons_self c hc
      · exact h.read f (List.mem_cons_of_mem _ hf) c hc
  · rw [← show rule = r from hrule]
    rfl
  · cases h.inner hrule with
    | fresh read todo =>
      obtain ⟨s, hitems⟩ := hl.items
      rw [todo, hitems] at hnext
      cases hnext
    | going work =>
      obtain ⟨tasks, hwork⟩ := work.call hnext (Due t r ((m.setTodo todo).enter (.ofTables t)
        site rule level label).frame m.frame) fun hrule => ⟨hrule, rfl, rfl⟩
      exact ⟨_, _, _, _, _, _, hwork⟩
    | ended todo => cases hnext.symm.trans todo
  · exact h.outer.of_frame rfl rfl rfl

theorem Climbing.exists_graded (h : Climbing t r alts L ops m) (hl : t.Ladder r alts L ops)
    (hdone : m.frame.todo = []) (hrule : m.frame.rule = r) : ∃ bound,
    Graded t r alts ops m.frame.level bound m.close ∧
      Declines (.ofTables t) L m.frame.level m.frame.stack m.current m.rest := by
  cases h.inner hrule with
  | fresh read todo =>
    obtain ⟨s, hitems⟩ := hl.items
    rw [todo, hitems] at hdone
    cases hdone
  | going work =>
    rw [work.todo] at hdone
    exact absurd hdone (List.append_ne_nil_of_right_ne_nil _ (List.cons_ne_nil _ _))
  | ended todo graded declined => exact ⟨_, graded, declined⟩

theorem Climbing.leave (h : Climbing t r alts L ops m) (hl : t.Ladder r alts L ops)
    (hdone : m.frame.todo = []) (hleft : m.leave = .inl m') : Climbing t r alts L ops m' := by
  obtain ⟨caller, callers, labels, hcallers, rfl⟩ := exists_of_leave hleft
  have hmem : ∀ f ∈ caller :: callers, f ∈ m.frame :: m.callers :=
    fun f hf => List.mem_cons_of_mem _ (hcallers ▸ hf)
  have hlayered := layered_close (h.read m.frame List.mem_cons_self) fun hrule =>
    have ⟨bound, hgraded, _⟩ := h.exists_graded hl hdone hrule
    ⟨_, bound, hgraded⟩
  have houter := h.outer
  rw [hcallers, Awaits] at houter
  refine ⟨fun f hf => ?_, fun f hf c hc => ?_, fun hrule => ?_, houter.2.of_frame rfl rfl rfl⟩
  · rcases List.mem_cons.mp hf with rfl | hf
    · exact h.full caller (hmem caller List.mem_cons_self)
    · exact h.full f (hmem f (List.mem_cons_of_mem _ hf))
  · rcases List.mem_cons.mp hf with rfl | hf
    · rcases List.mem_cons.mp hc with rfl | hc
      · exact hlayered
      · exact h.read caller (hmem caller List.mem_cons_self) c hc
    · exact h.read f (hmem f (List.mem_cons_of_mem _ hf)) c hc
  · obtain ⟨lead, items, bound, children, tasks, loop, work⟩ := houter.1 hrule
    refine .going (work.return labels (c := m.close) fun s q ⟨hinner, hlevel, hstack⟩ => ?_)
    obtain ⟨bound, hgraded, hdeclined⟩ := h.exists_graded hl hdone hinner
    rw [hlevel] at hgraded
    rw [hlevel, hstack] at hdeclined
    exact ⟨m.close, bound, rfl, hgraded, hdeclined⟩

/-- The loop comes last: nothing is left of the operand or operator before it. -/
theorem Going.tasks_eq_nil
    (h : Going t r alts L ops f next closed lead items bound children tasks loop)
    (hnext : f.todo = [task]) : tasks = [] ∧ loop = task := by
  have htodo := h.todo
  rw [hnext] at htodo
  cases tasks with
  | nil =>
    cases htodo
    exact ⟨rfl, rfl⟩
  | cons first rest => simp at htodo

theorem Stage.exists_going (h : Stage t r alts L ops m) (hl : t.Ladder r alts L ops) {site : Nat}
    {ops' : List (Nat × List Item)} (hnext : m.frame.todo = [task])
    (hclimbs : task.subject = .climb site ops') :
    (site = L ∧ ops' = ops) ∧ ∃ lead items bound children, Going t r alts L ops m.frame []
      (Closed t r alts L ops m) lead items bound children [] task := by
  cases h with
  | fresh read todo =>
    obtain ⟨s, hitems⟩ := hl.items
    rw [todo, hitems] at hnext
    simp at hnext
  | going work =>
    obtain ⟨rfl, rfl⟩ := work.tasks_eq_nil hnext
    cases hclimbs.symm.trans work.climbs
    exact ⟨⟨rfl, rfl⟩, _, _, _, _, work⟩
  | ended todo => cases hnext.symm.trans todo

theorem Climbing.pass (h : Climbing t r alts L ops m) (hl : t.Ladder r alts L ops)
    {site : Nat} {ops' : List (Nat × List Item)} (hnext : m.frame.todo = [task])
    (hclimbs : task.subject = .climb site ops') (k : Nat)
    (hdeclined : ∃ m₁ i, (m.setTodo []).decideAt (.ofTables t) site none = .ok (m₁, i) ∧ i ≠ 0) :
    Climbing t r alts L ops ((m.ask k).setTodo []) := by
  refine ⟨fun f hf => ?_, fun f hf => ?_, fun hrule => ?_, h.outer.of_frame rfl rfl rfl⟩
  · rcases List.mem_cons.mp hf with rfl | hf
    · exact h.full m.frame List.mem_cons_self
    · exact h.full f (List.mem_cons_of_mem _ hf)
  · rcases List.mem_cons.mp hf with rfl | hf
    · exact h.read m.frame List.mem_cons_self
    · exact h.read f (List.mem_cons_of_mem _ hf)
  · obtain ⟨⟨rfl, rfl⟩, lead, items, bound, children, work⟩ :=
      (h.inner hrule).exists_going hl hnext hclimbs
    obtain ⟨m₁, i, hdecided, hi⟩ := hdeclined
    exact .ended rfl (work.graded hrule) ⟨m.setTodo [], m₁, i, ⟨rfl, rfl⟩, ⟨rfl, rfl⟩, hdecided, hi⟩

theorem Basis.exists_operator {level q : Nat}
    (h : Basis t r alts ops level lead items (some q)) : ∃ inner ∈ ops, level ≤ inner.1 ∧
      items = inner.2 ∧ ∃ s l, items.getLast? = some (.call s r q l) := by
  generalize hbound : some q = bound at h
  cases h with
  | operand => cases hbound
  | operator among reaches =>
    exact ⟨_, among, reaches, rfl, Item.lastLevel?_eq_some.mp hbound.symm⟩

/-- Operators come last in a rule. -/
theorem ready_loop {g : Grammar} {rule : Rule} {site : Nat} {u : List Symbol}
    (h : Ready g rule (task :: todo) u) (hclimbs : task.subject = .climb site ops) : todo = [] := by
  cases h with
  | next wired isPlain after => simp [hclimbs, Item.plain] at isPlain
  | climb => rfl

theorem exists_frame_setLabel (m : Machine) (label : Option Label) (text : String) :
    ∃ labels, (m.setLabel label text).frame = { m.frame with labels } := by
  cases label with
  | none => exact ⟨m.frame.labels, rfl⟩
  | some l => exact ⟨_, rfl⟩

@[simp] theorem callers_setLabel (m : Machine) (label : Option Label) (text : String) :
    (m.setLabel label text).callers = m.callers := by
  cases label <;> rfl

/-- A task is replaced by others. -/
theorem works_setTodo (hnext : m.frame.todo = task :: todo)
    (hspells : ∀ w, SpellsAll new w → task.Spells w)
    (hcall : ∀ s rule q l, task ≠ .item (.call s rule q l))
    (hloop : ∀ s ops, task.subject ≠ .climb s ops) (k : Nat) :
    m.Works task todo new [] ((m.ask k).setTodo (new ++ todo)) :=
  ⟨hnext, ⟨m.frame.labels, rfl⟩, rfl, by simp, hspells, hcall, hloop⟩

/-- A token is read. -/
theorem works_token {item : Item} (hnext : m.frame.todo = .item item :: todo)
    (hspells : item.Spells [.token m.current.kind]) (hcall : ∀ s rule q l, item ≠ .call s rule q l)
    (hloop : ∀ s ops, item ≠ .climb s ops) (hframe : ∃ labels, m'.frame =
      { m.frame with todo, read := .token m.current :: m.frame.read, labels })
    (hcallers : m'.callers = m.callers) :
    m.Works (.item item) todo [] [.token m.current] m' := by
  refine ⟨hnext, hframe, hcallers, fun c hc => ⟨_, List.mem_singleton.mp hc⟩, ?_,
    fun s rule q l heq => hcall s rule q l (Task.item.inj heq), hloop⟩
  rintro w rfl
  exact hspells

section

variable {g : Grammar} {p : Pace} (hg : ∀ r, Item.Proper (g r)) (hpaced : (Tables.ofGrammar g).Paced p)
  (hregular : (Tables.ofGrammar g).Regular) (hl : (Tables.ofGrammar g).Ladder r alts L ops)

include hg hpaced hregular hl

/-- The loop takes an operator: what has been read is a phrase at the level of the frame. -/
theorem Climbing.operator (h : Climbing (.ofGrammar g) r alts L ops m) {site : Nat}
    {ops' : List (Nat × List Item)} {op : Nat × List Item} (hnext : m.frame.todo = [task])
    (hclimbs : task.subject = .climb site ops') (hmem : op ∈ ops')
    (taken : ∃ m₁, (m.setTodo []).decideAt (.ofTables (.ofGrammar g)) site none = .ok (m₁, 0))
    (chosen : ops' = [op] ∨ ∃ (j : Nat) (m₂ : Machine) (i : Nat), ((m.setTodo []).ask j).decideAt
      (.ofTables (.ofGrammar g)) (site + 2) none = .ok (m₂, i) ∧ op = ops'.getD i default)
    (reaches : m.frame.level ≤ op.1) (k : Nat) : Climbing (.ofGrammar g) r alts L ops
      ((m.ask k).wrap.setTodo (op.2.map .item ++ [.again task.subject])) := by
  have hread := h.read m.frame List.mem_cons_self
  refine ⟨fun f hf => ?_, fun f hf c hc => ?_, fun hrule => ?_, h.outer.of_frame rfl rfl rfl⟩
  · rcases List.mem_cons.mp hf with rfl | hf
    · exact h.full m.frame List.mem_cons_self
    · exact h.full f (List.mem_cons_of_mem _ hf)
  · rcases List.mem_cons.mp hf with rfl | hf
    · rw [List.mem_singleton.mp hc]
      refine layered_close (m := m.ask k) hread fun hrule => ?_
      obtain ⟨_, lead, items, bound, children, work⟩ := (h.inner hrule).exists_going hl hnext hclimbs
      exact ⟨_, bound, work.graded hrule⟩
    · exact h.read f (List.mem_cons_of_mem _ hf) c hc
  · obtain ⟨⟨rfl, rfl⟩, lead, items, bound, children, work⟩ :=
      (h.inner hrule).exists_going hl hnext hclimbs
    have hlooser : ∀ q, bound = some q → (Tables.ofGrammar g).Looser ops' op q := by
      rintro q rfl
      obtain ⟨inner, hinner, hlevel, rfl, s, l, hlast⟩ := work.basis.exists_operator
      rcases work.tail s q l hlast with ⟨_, c, _, _, _, hdeclined⟩ | hnone
      · exact hl.looser_of_taken (m := m.setTodo []) hg hpaced hregular hinner hlast hlevel
          (h.full m.frame List.mem_cons_self) taken chosen hdeclined
      · cases hnone
    exact stage_begin (.operator hmem reaches (work.graded hrule) hlooser) rfl rfl hclimbs

theorem Climbing.moves (hderiving : Deriving g m) (h : Climbing (.ofGrammar g) r alts L ops m)
    (hm : Moves (.ofTables (.ofGrammar g)) m m') : Climbing (.ofGrammar g) r alts L ops m' := by
  have hready := hderiving.poised.1
  -- The first task of a rule is its choice of operands.
  have hfirst : ∀ {task todo}, m.frame.todo = task :: todo →
      m.frame.todo = ((Tables.ofGrammar g).rule r).items.map .item → ∃ s,
        task = .item (.branch s alts) ∧ todo = [.item (.climb L ops)] := by
    intro task todo hnext hfresh
    obtain ⟨s, hitems⟩ := hl.items
    rw [hnext, hitems] at hfresh
    cases hfresh
    exact ⟨s, rfl, rfl⟩
  cases hm with
  | leave done left => exact h.leave hl done left
  | @terminal site label todo next =>
    obtain ⟨labels, hframe⟩ := exists_frame_setLabel (m.setTodo todo).fitted.take label m.current.text
    refine h.work (works_token next (by rw [Item.Spells]) (fun s rule q l => Item.noConfusion)
      (fun s ops => Item.noConfusion) ⟨labels, ?_⟩ ?_) fun _ _ hfresh => ?_
    · rw [hframe, frame_take rfl]
      rfl
    · rw [callers_setLabel, callers_take]
      rfl
    · obtain ⟨s, heq, _⟩ := hfirst next hfresh
      cases heq
  | @terminalOf site kinds label todo next fits =>
    obtain ⟨labels, hframe⟩ := exists_frame_setLabel (m.setTodo todo) label m.current.text
    have hcurrent : ((m.setTodo todo).setLabel label m.current.text).current = m.current := by
      cases label <;> rfl
    refine h.work (works_token next (by rw [Item.Spells]; exact ⟨_, fits, rfl⟩)
      (fun s rule q l => Item.noConfusion) (fun s ops => Item.noConfusion) ⟨labels, ?_⟩ ?_)
      fun _ _ hfresh => ?_
    · rw [frame_take rfl, fitted, hframe, hcurrent]
      rfl
    · rw [callers_take]
      exact callers_setLabel _ _ _
    · obtain ⟨s, heq, _⟩ := hfirst next hfresh
      cases heq
  | @call site rule level label todo next => exact h.enter hl next
  | @branch site i alts' todo m₁ next decided =>
    rw [next] at hready
    have hmem := alternative_mem hready decided
    obtain ⟨k, rfl⟩ := decideAt_ok decided
    refine h.work (works_setTodo next (fun w hw => ?_) (fun s rule q l heq => by cases heq)
      (fun s ops => Item.noConfusion) k) fun hrule hread hfresh => ?_
    · rw [Task.Spells, Item.Spells]
      exact Item.spellsOne_iff.mpr ⟨_, hmem, spellsAll_of_items hw⟩
    · obtain ⟨s, heq, rfl⟩ := hfirst next hfresh
      cases heq
      exact stage_begin (.operand hmem) (congrArg List.reverse hread) rfl rfl
  | @round task body todo next repeats k =>
    have hnew : body.map .item ++ .again task.subject :: todo =
        (body.map .item ++ [.again task.subject]) ++ todo := by simp
    obtain ⟨n, hsubject⟩ := subject_of_body repeats
    rw [hnew]
    refine h.work (works_setTodo next (fun w hw => ?_) (fun s rule q l heq => ?_)
      (fun s ops heq => ?_) k) fun _ _ hfresh => ?_
    · obtain ⟨u, v, rfl, hu, x, y, rfl, hx, rfl⟩ := exists_of_spellsAll_append hw
      rw [List.append_nil]
      exact spells_round repeats (spellsAll_of_items hu) hx
    · rw [heq] at repeats
      cases repeats
    · rcases hsubject with hs | hs <;> cases hs.symm.trans heq
    · obtain ⟨s, rfl, _⟩ := hfirst next hfresh
      cases repeats
  | @pass task todo next ends k declined =>
    by_cases hloop : ∃ site ops', task.subject = .climb site ops'
    · obtain ⟨site, ops', hclimbs⟩ := hloop
      rw [next] at hready
      obtain rfl := ready_loop hready hclimbs
      exact h.pass hl next hclimbs k (declined site ops' hclimbs)
    · refine h.work (works_setTodo next (fun w hw => ?_) (fun s rule q l heq => ?_)
        (fun s ops heq => hloop ⟨s, ops, heq⟩) k : m.Works task todo [] [] _) fun _ _ hfresh => ?_
      · cases hw
        exact spells_of_ends ends
      · rw [heq] at ends
        exact ends
      · obtain ⟨s, rfl, _⟩ := hfirst next hfresh
        exact ends.elim
  | @operator task site k ops' op todo next climbs taken chosen reaches =>
    rw [next] at hready
    obtain rfl := ready_loop hready climbs
    exact h.operator hg hpaced hregular hl next climbs (operator_mem hready climbs chosen) taken chosen
      reaches k

end

theorem climbing_start (rule : Rule) (level : Nat) (current : Token) (rest : List Token) :
    Climbing t r alts L ops (start (.ofTables t) rule level current rest) := by
  refine ⟨fun f hf => ?_, fun f hf c hc => ?_, fun hrule => .fresh rfl ?_, trivial⟩
  · rw [List.mem_singleton.mp hf]
    exact Stack.full_root
  · rw [List.mem_singleton.mp hf] at hc
    cases hc
  · rw [← show rule = r from hrule]
    rfl

end Machine

end Callscope
