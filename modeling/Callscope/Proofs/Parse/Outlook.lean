import Callscope.Proofs.Grammar.Tables
import Callscope.Proofs.Parse.Derivation
import Callscope.Proofs.Parse.Stability

/-!
# How the parser can go on

The further steps depend on the tokens ahead, on where rules were given up and on the tasks of each frame.
`Turn` lists what a step can do to these, with or without an error: tokens are passed, a rule is begun,
ended or given up, a missing token is supplied, or a task is unfolded in a way that the current token
speaks for. Giving a rule up never leaves everything as it is before the end of the text.
-/

namespace Callscope

namespace Task

section

variable (first : Rule → Look)

/-- How what a task has still to read can begin. After a round of a loop there need not be another. -/
def look : Task → Look
  | item i => Look.ofItem first i
  | again (.loop _ body) | again (.loopOnce _ body) => { Look.ofItems first body with ends := true }
  | again (.climb _ ops) => { Look.ofOps first ops with ends := true, guarded := true }
  | again _ => .done

def lookAll : List Task → Look
  | [] => .done
  | task :: todo => (look first task).andThen (lookAll todo)

end

/-- What a task can become without a token. -/
inductive Unfolds : Task → List Task → Prop
  | skip {task : Task} (ends : task.Ends) : Unfolds task []
  | alt {site : Nat} {alts : List (List Item)} {a : List Item} (mem : a ∈ alts) :
      Unfolds (item (.branch site alts)) (a.map item)
  | round {task : Task} {body : List Item} (repeats : task.body? = some body) :
      Unfolds task (body.map item ++ [again task.subject])
  | operator {task : Task} {site : Nat} {ops : List (Nat × List Item)} {op : Nat × List Item}
      (climbs : task.subject = .climb site ops) (ends : task.Ends) (mem : op ∈ ops) :
      Unfolds task (op.2.map item ++ [again task.subject])

/-- The tables have the looks and decisions of all tasks of a frame. -/
def Planned (t : Tables) (p : Pace) : List Task → Prop
  | [] => True
  | task :: todo => task.subject.Laid t p (lookAll t.first todo) ∧ Planned t p todo

variable {first : Rule → Look} {t : Tables} {p : Pace} {task : Task} {todo new : List Task}

theorem lookAll_append (as bs : List Task) :
    lookAll first (as ++ bs) = (lookAll first as).andThen (lookAll first bs) := by
  induction as with
  | nil => simp [lookAll]
  | cons task as ih => rw [List.cons_append, lookAll, lookAll, ih, Look.andThen_assoc]

theorem lookAll_items (is : List Item) : lookAll first (is.map item) = Look.ofItems first is := by
  induction is with
  | nil => rfl
  | cons i is ih => rw [List.map_cons, lookAll, Look.ofItems, ih, look]

theorem lookAll_items_append (is : List Item) (todo : List Task) :
    lookAll first (is.map item ++ todo) = (Look.ofItems first is).andThen (lookAll first todo) := by
  rw [lookAll_append, lookAll_items]

theorem planned_items {is : List Item} (h : Item.LaidAll t p (lookAll t.first todo) is)
    (htodo : Planned t p todo) : Planned t p (is.map item ++ todo) := by
  induction is with
  | nil => exact htodo
  | cons i is ih =>
    obtain ⟨hi, his⟩ := h.cons
    rw [← lookAll_items_append] at hi
    exact ⟨hi, ih his⟩

theorem planned_rule (hpaced : t.Paced p) (rule : Rule) :
    Planned t p ((t.rule rule).items.map item) := by
  have hnil : Planned t p [] := trivial
  rw [← List.append_nil (List.map item _)]
  exact planned_items (hpaced.rules rule) hnil

/-- A loop has the looks and decisions of its body, before and after a round. -/
theorem laid_body {after : Look} {body : List Item} (h : task.subject.Laid t p after)
    (hrepeats : task.body? = some body) :
    Item.LaidAll t p ((look t.first (again task.subject)).andThen after) body ∧
      Item.begins t.first p body = true := by
  obtain ⟨s, (rfl | rfl) | (rfl | rfl)⟩ := body_cases hrepeats
  · exact ⟨(Item.Laid.loop h).2.1.laid, (Item.Laid.loop h).2.1.begins⟩
  · exact ⟨(Item.Laid.loop h).2.1.laid, (Item.Laid.loop h).2.1.begins⟩
  · exact ⟨(Item.Laid.loopOnce h).2.1.laid, (Item.Laid.loopOnce h).2.1.begins⟩
  · exact ⟨(Item.Laid.loopOnce h).2.1.laid, (Item.Laid.loopOnce h).2.1.begins⟩

theorem Unfolds.planned (h : task.Unfolds new) (hplan : Planned t p (task :: todo)) :
    Planned t p (new ++ todo) := by
  obtain ⟨hlaid, htodo⟩ := hplan
  cases h with
  | skip ends => exact htodo
  | alt mem => exact planned_items ((Item.Laid.branch hlaid).laid _ mem) htodo
  | round repeats =>
    rw [List.append_assoc]
    exact planned_items (laid_body hlaid repeats).1 ⟨hlaid, htodo⟩
  | operator climbs ends mem =>
    rw [climbs] at hlaid
    rw [List.append_assoc, climbs]
    exact planned_items ((Item.Laid.climb hlaid).operator _ mem).laid ⟨hlaid, htodo⟩

end Task

/-- What the further steps depend on. -/
structure Outlook where
  current : Token
  rest : List Token
  gaveUpAt : Option Nat
  gaveUpSites : List Nat
  /-- What is left to the innermost rule. -/
  todo : List Task
  /-- What is left to the rules around it. -/
  callers : List (List Task)

namespace Outlook

/-- The current token speaks for what a task becomes, or for nothing that the task can begin with or be
followed by. The first round of a loop of one or more is not in question. -/
def Apt (first : Rule → Look) (k : Kind) (task : Task) (new todo : List Task) : Prop :=
  (∃ site body, task = .item (.loopOnce site body)) ∨
    (Task.lookAll first (new ++ todo)).Admits k ∨
      new = [] ∧ (Task.lookAll first (task :: todo)).kinds.contains k = false

/-- What a step can do. -/
inductive Turn (t : Tables) (o : Outlook) : Outlook → Prop
  | leave {todo : List Task} {callers : List (List Task)} (done : o.todo = [])
      (outer : o.callers = todo :: callers) : Turn t o { o with todo, callers }
  | enter {site : Nat} {rule : Rule} {level : Nat} {label : Option Label} {todo : List Task}
      (next : o.todo = .item (.call site rule level label) :: todo) :
      Turn t o { o with todo := (t.rule rule).items.map .item, callers := todo :: o.callers }
  | unfold {task : Task} {new todo : List Task} (next : o.todo = task :: todo)
      (unfolds : task.Unfolds new) (apt : Apt t.first o.current.kind task new todo) :
      Turn t o { o with todo := new ++ todo }
  | missing {i : Item} {todo : List Task} (next : o.todo = .item i :: todo)
      (needed : (Look.ofItem t.first i).ends = false)
      (absent : (Look.ofItem t.first i).kinds.contains o.current.kind = false) :
      Turn t o { o with todo }
  | fit {task : Task} {todo : List Task} (next : o.todo = task :: todo) (last : o.rest = []) :
      Turn t o { o with todo, gaveUpAt := none, gaveUpSites := [] }
  | giveUp {task : Task} {todo : List Task} {site : Nat} (next : o.todo = task :: todo)
      (place : site < t.looks.size)
      (fresh : o.rest ≠ [] → o.gaveUpAt = some o.current.index → site ∉ o.gaveUpSites) :
      Turn t o { o with
        todo := [], gaveUpAt := some o.current.index, gaveUpSites := site :: o.gaveUpSites }
  | read {task : Task} {todo : List Task} {o' : Outlook} (next : o.todo = task :: todo)
      (shorter : o'.rest.length < o.rest.length) (callers : o'.callers = o.callers)
      (left : o'.todo = [] ∨ o'.todo = todo ∨ ∃ new, task.Unfolds new ∧ o'.todo = new ++ todo) :
      Turn t o o'

/-- All tasks have their looks and decisions. -/
def Planned (t : Tables) (p : Pace) (o : Outlook) : Prop :=
  ∀ todo ∈ o.todo :: o.callers, Task.Planned t p todo

variable {t : Tables} {p : Pace} {o o' : Outlook}

theorem Turn.planned (hpaced : t.Paced p) (h : o.Turn t o') (hplan : o.Planned t p) :
    o'.Planned t p := by
  have hfirst := hplan o.todo List.mem_cons_self
  have hcallers : ∀ todo ∈ o.callers, Task.Planned t p todo :=
    fun todo htodo => hplan todo (List.mem_cons_of_mem _ htodo)
  have hsame : ∀ {todo : List Task}, Task.Planned t p todo →
      ∀ todo' ∈ todo :: o.callers, Task.Planned t p todo' := by
    intro todo htodo todo' htodo'
    rcases List.mem_cons.mp htodo' with rfl | htodo'
    · exact htodo
    · exact hcallers todo' htodo'
  cases h with
  | leave done outer =>
    rw [outer] at hcallers
    exact hcallers
  | @enter site rule level label todo next =>
    rw [next] at hfirst
    intro todo' htodo'
    rcases List.mem_cons.mp htodo' with rfl | htodo'
    · exact Task.planned_rule hpaced rule
    · exact hsame hfirst.2 todo' htodo'
  | unfold next unfolds apt =>
    rw [next] at hfirst
    exact hsame (unfolds.planned hfirst)
  | missing next needed absent =>
    rw [next] at hfirst
    exact hsame hfirst.2
  | fit next last =>
    rw [next] at hfirst
    exact hsame hfirst.2
  | giveUp next place fresh => exact hsame trivial
  | read next shorter callers left =>
    rw [next] at hfirst
    rw [Planned, callers]
    rcases left with heq | heq | ⟨new, unfolds, heq⟩
    · rw [heq]
      exact hsame trivial
    · rw [heq]
      exact hsame hfirst.2
    · rw [heq]
      exact hsame (unfolds.planned hfirst)

/-- A rule is given up at a new site, or at the end of the text, unless tokens are passed. -/
def Abandons (site : Nat) (o o' : Outlook) : Prop :=
  o'.todo = [] ∧ o'.callers = o.callers ∧ (o'.rest.length < o.rest.length ∨
    (o.rest ≠ [] → o.gaveUpAt = some o.current.index → site ∉ o.gaveUpSites) ∧
    o' = { o with
      todo := [], gaveUpAt := some o.current.index, gaveUpSites := site :: o.gaveUpSites })

end Outlook

namespace Machine

variable {a : Lookahead.Automata} {t : Tables} {p : Pace} {m m' : Machine}

def outlook (m : Machine) : Outlook where
  current := m.current
  rest := m.rest
  gaveUpAt := m.gaveUpAt
  gaveUpSites := m.gaveUpSites
  todo := m.frame.todo
  callers := m.callers.map Frame.todo

/-! ## Tokens -/

@[simp] theorem outlook_setLabel (m : Machine) (l : Option Label) (text : String) :
    (m.setLabel l text).outlook = m.outlook := by
  cases l <;> rfl

@[simp] theorem outlook_report (m : Machine) (t : Token) (p : Problem) :
    (m.report t p).outlook = m.outlook := by
  have hask : (m.askFor p).outlook = m.outlook := by
    unfold askFor
    split
    · split <;> rfl
    · rfl
  unfold report
  split
  · rfl
  · exact hask

theorem rest_take (m : Machine) : m.take.rest = m.rest.tail := by
  cases hrest : m.rest with
  | nil => rw [(take_of_rest_nil hrest).2.1, hrest, List.tail_nil]
  | cons t rest => rw [(take_of_rest_cons hrest).2.1, List.tail_cons]

theorem length_take_lt (h : m.rest ≠ []) : m.take.rest.length < m.rest.length := by
  rw [rest_take, List.length_tail]
  have hpos := List.length_pos_iff.mpr h
  omega

theorem tasks_take (m : Machine) :
    m.take.outlook.todo = m.outlook.todo ∧ m.take.outlook.callers = m.outlook.callers := by
  rw [take, advance]
  split <;> exact ⟨rfl, rfl⟩

/-- Taking the last token changes nothing but what has been read. -/
theorem outlook_take_of_rest_nil (h : m.rest = []) : m.take.outlook = m.outlook := by
  have hadvance : ∀ n : Machine, n.rest = [] → n.advance = n := by
    intro n hn
    rw [advance, hn]
  rw [take, hadvance (m.addLeaf (if m.recovering then .skipped m.current else .token m.current)) h]
  rfl

/-- Tokens have been passed, or nothing has changed; the tasks are the same. -/
def Passed (m m' : Machine) : Prop :=
  m'.outlook = m.outlook ∨ m'.rest.length < m.rest.length ∧
    m'.outlook.todo = m.outlook.todo ∧ m'.outlook.callers = m.outlook.callers

theorem Passed.trans {m₁ m₂ : Machine} (h : m.Passed m₁) (h' : m₁.Passed m₂) : m.Passed m₂ := by
  rcases h' with h' | ⟨hlt, htodo, hcallers⟩
  · rwa [Passed, h', show m₂.rest = m₁.rest from congrArg Outlook.rest h']
  · refine .inr ?_
    rcases h with h | ⟨hlt', htodo', hcallers'⟩
    · rw [← h, ← show m₁.rest = m.rest from congrArg Outlook.rest h]
      exact ⟨hlt, htodo, hcallers⟩
    · exact ⟨hlt.trans hlt', htodo.trans htodo', hcallers.trans hcallers'⟩

/-- The last token ahead is the end of the text. -/
def Ended (m : Machine) : Prop :=
  ∃ e, (m.current :: m.rest).getLast? = some e ∧ e.kind = .eof

theorem Ended.rest_ne_nil (h : m.Ended) (hkind : m.current.kind ≠ .eof) : m.rest ≠ [] := by
  intro hrest
  obtain ⟨e, he, heof⟩ := h
  rw [hrest] at he
  cases he
  exact hkind heof

theorem stable_ended : Stable a Ended where
  congr h hcurrent hrest _ _ := by rwa [Ended, hcurrent, hrest]
  take {m} h := by
    cases hrest : m.rest with
    | nil =>
      obtain ⟨hcurrent, hnil, _⟩ := take_of_rest_nil hrest
      rwa [Ended, hcurrent, hnil]
    | cons t rest =>
      obtain ⟨hcurrent, htail, _⟩ := take_of_rest_cons hrest
      rw [Ended, hrest, List.getLast?_cons_cons] at h
      rwa [Ended, hcurrent, htail]
  addMissing _ h := h
  wrap h := h
  enter _ _ _ _ h := h
  leave {m m'} h hleft := by
    obtain ⟨caller, callers, labels, _, rfl⟩ := exists_of_leave hleft
    exact h

theorem skipUntil_le (s : KindSet) (ts : List Token) (m : Machine) :
    (skipUntil s ts m).rest.length ≤ m.rest.length ∧
      (skipUntil s ts m).outlook.todo = m.outlook.todo ∧
      (skipUntil s ts m).outlook.callers = m.outlook.callers := by
  induction ts generalizing m with
  | nil => exact ⟨Nat.le_refl _, rfl, rfl⟩
  | cons t ts ih =>
    rw [skipUntil]
    split
    · exact ⟨Nat.le_refl _, rfl, rfl⟩
    · obtain ⟨hle, htodo, hcallers⟩ := ih m.take
      obtain ⟨htodo', hcallers'⟩ := tasks_take m
      refine ⟨Nat.le_trans hle ?_, htodo.trans htodo', hcallers.trans hcallers'⟩
      rw [rest_take, List.length_tail]
      exact Nat.sub_le ..

theorem passed_skipTo (h : m.Ended) (s : KindSet) : m.Passed (m.skipTo s) := by
  rw [skipTo, skipUntil]
  split
  · exact .inl rfl
  · rename_i hkind
    have hrest := h.rest_ne_nil fun heof => hkind (by simp [heof])
    obtain ⟨hle, htodo, hcallers⟩ := skipUntil_le s m.rest m.take
    obtain ⟨htodo', hcallers'⟩ := tasks_take m
    exact .inr ⟨Nat.lt_of_le_of_lt hle (length_take_lt hrest), htodo.trans htodo',
      hcallers.trans hcallers'⟩

/-! ## Errors -/

/-- A token too many is dropped only before the end of the text. -/
theorem shorter_dropExtra {site : Nat} (hends : (t.look site).ends = false)
    (habsent : (t.look site).kinds.contains m.current.kind = false)
    (h : m.dropExtra (.ofTables t) site = some m') : m'.rest.length < m.rest.length ∧
      m'.outlook.todo = m.outlook.todo ∧ m'.outlook.callers = m.outlook.callers := by
  have hexpected : ∀ n : Machine, n.expected (.ofTables t) site = (t.look site).kinds := by
    intro n
    unfold expected expectedFrom
    split <;> exact if_neg (by simp [Lookahead.Automata.ofTables, hends])
  simp only [dropExtra, hexpected] at h
  split at h
  · rename_i hrest
    rw [hrest, List.head?_nil, Option.getD_none, if_neg (by simp [habsent])] at h
    cases h
  · rename_i t' rest hrest
    split at h
    · cases h
      generalize hn : (m.ask t'.index).report (m.ask t'.index).current
        (.extraneous (t.look site).kinds) = n
      have hsame : n.outlook = m.outlook := by rw [← hn, outlook_report]; rfl
      have hrest' : n.rest = m.rest := congrArg Outlook.rest hsame
      have hlt := length_take_lt (m := n) (by rw [hrest', hrest]; exact List.cons_ne_nil _ _)
      rw [hrest'] at hlt
      obtain ⟨htodo, hcallers⟩ := tasks_take n
      rw [hsame] at htodo hcallers
      exact ⟨hlt, htodo, hcallers⟩
    · cases h

theorem passed_syncEntry {site : Nat} (h : m.syncEntry (.ofTables t) site = .ok m') :
    m.Passed m' := by
  simp only [syncEntry] at h
  split at h
  · cases h
    exact .inl rfl
  · rename_i hfits
    simp only [Bool.or_eq_true, not_or, Bool.not_eq_true] at hfits
    split at h
    · rename_i hd
      cases h
      exact .inr (shorter_dropExtra hfits.1.2 hfits.2 hd)
    · cases h

theorem passed_syncAgain (h : m.Ended) (site : Nat) : m.Passed (m.syncAgain a site) := by
  simp only [syncAgain]
  split
  · exact .inl rfl
  · have hreport : m.Passed (m.report m.current (.extraneous (m.expected a site))) :=
      .inl (outlook_report ..)
    exact hreport.trans (passed_skipTo (stable_ended (a := a) |>.report h _ _) _)

theorem outlook_supplyMissing {site : Nat} {k : Kind}
    (h : m.supplyMissing a site = some (m', k)) : m'.outlook = m.outlook := by
  simp only [supplyMissing] at h
  split at h
  · cases h
    exact outlook_report ..
  · cases h

theorem passed_decideAt {site i : Nat} {otherwise : Option Nat}
    (h : m.decideAt a site otherwise = .ok (m', i)) : m.Passed m' := by
  obtain ⟨k, rfl⟩ := decideAt_ok h
  exact .inl rfl

/-- Notes where a rule is given up, and skips tokens. -/
def abandon (a : Lookahead.Automata) (site : Nat) (m : Machine) : Machine :=
  let m := { m with gaveUpAt := some m.current.index, gaveUpSites := site :: m.gaveUpSites }
  (m.skipTo (m.recoverySet a)).setTodo []

theorem giveUp_eq (m : Machine) (site : Nat) (tk : Token) (pr : Problem) :
    m.giveUp a site tk pr =
      let n := m.report tk pr
      (if n.gaveUpAt == some n.current.index && n.gaveUpSites.contains site then n.take
        else n).abandon a site := rfl

theorem abandons_abandon (h : m.Ended) {site : Nat}
    (hfresh : m.rest ≠ [] → m.gaveUpAt = some m.current.index → site ∉ m.gaveUpSites) :
    m.outlook.Abandons site (m.abandon a site).outlook := by
  unfold abandon
  generalize hn : ({ m with
    gaveUpAt := some m.current.index, gaveUpSites := site :: m.gaveUpSites } :
    Machine) = n
  have hend : n.Ended := by
    rw [← hn]
    exact h
  rcases passed_skipTo hend (n.recoverySet a) with hsame | ⟨hlt, _, hcallers⟩
  · have hset : ((n.skipTo (n.recoverySet a)).setTodo []).outlook =
        { n.outlook with todo := [] } := by
      rw [← hsame]
      rfl
    rw [hset, ← hn]
    exact ⟨rfl, rfl, .inr ⟨hfresh, rfl⟩⟩
  · rw [← hn] at hlt hcallers ⊢
    exact ⟨rfl, hcallers, .inl hlt⟩

theorem abandons_giveUp (h : m.Ended) (site : Nat) (tk : Token) (pr : Problem) :
    m.outlook.Abandons site (m.giveUp a site tk pr).outlook := by
  have hend : (m.report tk pr).Ended := (stable_ended (a := a)).report h tk pr
  rw [← outlook_report m tk pr, giveUp_eq]
  generalize m.report tk pr = n at hend
  dsimp only
  split
  · have hend' : n.take.Ended := (stable_ended (a := a)).take hend
    by_cases hrest : n.rest = []
    · rw [← outlook_take_of_rest_nil hrest]
      refine abandons_abandon hend' fun hne => absurd ?_ hne
      rw [rest_take, hrest, List.tail_nil]
    -- The token at which the rule was given up before is passed.
    · obtain ⟨_, hcallers⟩ := tasks_take n
      obtain ⟨hle, _, hcallers'⟩ := skipUntil_le (recoverySet a { n.take with
          gaveUpAt := some n.take.current.index, gaveUpSites := site :: n.take.gaveUpSites })
        (n.take.current :: n.take.rest) { n.take with
          gaveUpAt := some n.take.current.index, gaveUpSites := site :: n.take.gaveUpSites }
      exact ⟨rfl, hcallers'.trans hcallers, .inl (Nat.lt_of_le_of_lt hle (length_take_lt hrest))⟩
  · rename_i hagain
    refine abandons_abandon hend fun _ hat hmem => hagain ?_
    simp [hat, hmem]

end Machine

end Callscope
