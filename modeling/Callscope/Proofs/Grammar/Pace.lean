import Callscope.Proofs.Grammar.Looks

/-!
# The pace of a grammar

How long a parser can go on in a rule without a token. An item of which nothing is read takes a bounded
number of steps, and from a token with which an item can begin it is a bounded number of steps down to
that token. `Pace` holds such bounds for all rules. `steady` checks what they rest on: no round of a
loop is empty, none begins at the end of the text, and what can be empty stands where its rule can end.
-/

namespace Callscope

structure Pace where
  /-- The steps in a rule of which nothing is read. -/
  idle : Rule → Nat
  /-- The steps from the beginning of a rule down to its first token. -/
  descent : Rule → Nat
  /-- A bound on both together for all that a decision can choose. -/
  cap : Nat

namespace Item

section

variable (first : Rule → Look) (p : Pace)

mutual

/-- The steps for an item of which nothing is read. It leaves a loop at once, and it takes only an
alternative that can be empty. -/
def idle : Item → Nat
  | terminal .. | terminalOf .. | loop .. | climb .. => 1
  | call _ r _ _ => p.idle r + 2
  | branch _ alts => idleAlts alts + 1
  | loopOnce _ body => idleAll body + 2

def idleAll : List Item → Nat
  | [] => 0
  | i :: is => idle i + idleAll is

def idleAlts : List (List Item) → Nat
  | [] => 0
  | a :: as => max (if (Look.ofItems first a).ends then idleAll a else 0) (idleAlts as)

end

mutual

/-- The steps down to the first token of an item, with those that the items met on the way add. It
takes `after` of them once the item is left behind. -/
def descent (after : Nat) : Item → Nat
  | terminal .. | terminalOf .. => 1
  | call _ r _ _ => p.descent r + 1
  | branch _ alts => descentAlts after alts + 1
  | loop _ body => max (idleAll first p body + descentAll 0 body) after + 1
  | loopOnce _ body => descentAll 0 body + 1
  | climb .. => after + 1

def descentAll (after : Nat) : List Item → Nat
  | [] => after
  | i :: is => descent (if (Look.ofItem first i).ends then descentAll after is else 0) i

def descentAlts (after : Nat) : List (List Item) → Nat
  | [] => 0
  | a :: as => max (idleAll first p a + descentAll after a) (descentAlts after as)

end

/-- The items begin with a token before the end of the text, and not too far down. -/
def begins (is : List Item) : Bool :=
  !(Look.ofItems first is).ends && !(Look.ofItems first is).kinds.contains .eof &&
    decide (idleAll first p is + descentAll first p 0 is ≤ p.cap)

mutual

/-- Whether a parser gets on in an item. The flag says whether what follows it in its rule can be
empty. -/
def steady (ends : Bool) : Item → Bool
  | terminal .. | terminalOf .. => true
  | call _ r _ _ => !(first r).ends || ends
  | branch _ alts => decide (2 ≤ alts.length) && steadyAlts ends alts
  | loop _ body | loopOnce _ body => begins first p body && steadyAll ends body
  | climb _ ops => ends && !ops.isEmpty && steadyOps ends ops

def steadyAll (ends : Bool) : List Item → Bool
  | [] => true
  | i :: is => steady ((Look.ofItems first is).ends && ends) i && steadyAll ends is

def steadyAlts (ends : Bool) : List (List Item) → Bool
  | [] => true
  | a :: as =>
    ((Look.ofItems first a).ends || begins first p a) && steadyAll ends a && steadyAlts ends as

def steadyOps (ends : Bool) : List (Nat × List Item) → Bool
  | [] => true
  | (_, a) :: as => begins first p a && steadyAll ends a && steadyOps ends as

end

end

variable {first : Rule → Look} {p : Pace} {ends : Bool}

theorem begins_iff {is : List Item} : begins first p is = true ↔
    (Look.ofItems first is).ends = false ∧ (Look.ofItems first is).kinds.contains .eof = false ∧
      idleAll first p is + descentAll first p 0 is ≤ p.cap := by
  simp [begins, and_assoc]

theorem steadyAlts_iff {alts : List (List Item)} : steadyAlts first p ends alts = true ↔
    ∀ a ∈ alts, ((Look.ofItems first a).ends = true ∨ begins first p a = true) ∧
      steadyAll first p ends a = true := by
  induction alts with
  | nil => simp [steadyAlts]
  | cons a alts ih => simp [steadyAlts, ih]

theorem steadyOps_iff {ops : List (Nat × List Item)} : steadyOps first p ends ops = true ↔
    ∀ op ∈ ops, begins first p op.2 = true ∧ steadyAll first p ends op.2 = true := by
  induction ops with
  | nil => simp [steadyOps]
  | cons op ops ih =>
    obtain ⟨v, a⟩ := op
    simp [steadyOps, ih]

/-- Items that are not empty decide alone how far it is to the first token. -/
theorem descentAll_of_not_ends {is : List Item} (h : (Look.ofItems first is).ends = false)
    (after : Nat) : descentAll first p after is = descentAll first p 0 is := by
  induction is with
  | nil => simp [Look.ofItems, Look.done] at h
  | cons i is ih =>
    rw [Look.ofItems, Look.ends_andThen] at h
    rw [descentAll, descentAll]
    cases hi : (Look.ofItem first i).ends with
    | false => rfl
    | true =>
      rw [hi, Bool.true_and] at h
      rw [ih h]

theorem idleAll_le_idleAlts {alts : List (List Item)} {a : List Item} (ha : a ∈ alts)
    (hends : (Look.ofItems first a).ends = true) :
    idleAll first p a ≤ idleAlts first p alts := by
  induction alts with
  | nil => cases ha
  | cons b alts ih =>
    rw [idleAlts]
    rcases List.mem_cons.mp ha with rfl | ha
    · rw [if_pos hends]
      exact Nat.le_max_left ..
    · exact Nat.le_trans (ih ha) (Nat.le_max_right ..)

theorem le_descentAlts {alts : List (List Item)} {a : List Item} (ha : a ∈ alts) (after : Nat) :
    idleAll first p a + descentAll first p after a ≤ descentAlts first p after alts := by
  induction alts with
  | nil => cases ha
  | cons b alts ih =>
    rw [descentAlts]
    rcases List.mem_cons.mp ha with rfl | ha
    · exact Nat.le_max_left ..
    · exact Nat.le_trans (ih ha) (Nat.le_max_right ..)

end Item

/-! ## What the tables hold -/

namespace Look

variable {rules : Rule → Look} {after : Look} {x : Nat × Look}

theorem mem_sitesOfAlts {alts : List (List Item)} {a : List Item} (ha : a ∈ alts)
    (hx : x ∈ sitesOfItems rules after a) : x ∈ sitesOfAlts rules after alts := by
  induction alts with
  | nil => cases ha
  | cons b alts ih =>
    rw [sitesOfAlts, List.mem_append]
    rcases List.mem_cons.mp ha with rfl | ha
    · exact .inl hx
    · exact .inr (ih ha)

theorem mem_sitesOfOps {ops : List (Nat × List Item)} {op : Nat × List Item} (hop : op ∈ ops)
    (hx : x = (Item.guardSite op.2, { (ofItems rules op.2).andThen after with guarded := true }) ∨
      x ∈ sitesOfItems rules after op.2) : x ∈ sitesOfOps rules after ops := by
  induction ops with
  | nil => cases hop
  | cons o ops ih =>
    obtain ⟨v, a⟩ := o
    rw [sitesOfOps, List.mem_append, List.mem_cons]
    rcases List.mem_cons.mp hop with rfl | hop
    · exact .inl hx
    · exact .inr (ih hop)

/-- The look of the place before an item. Only a first round that can be empty is left there. -/
theorem site_mem_sitesOfItem {p : Pace} {ends : Bool} {i : Item}
    (h : i.steady rules p ends = true) :
    (i.site, (ofItem rules i).andThen after) ∈ sitesOfItem rules after i := by
  cases i with
  | loopOnce s body =>
    simp only [Item.steady, Bool.and_eq_true] at h
    have hends := (Item.begins_iff.mp h.1).1
    rw [sitesOfItem, ofItem, andThen_of_not_ends hends, andThen_of_not_ends hends]
    exact List.mem_cons_self
  | _ => exact List.mem_cons_self

end Look

namespace Network

variable {next : Nat} {x : Nat × Edge}

theorem edgesAll_cons (next : Nat) (shared : Bool) (i : Item) (is : List Item) :
    ∃ sh sh', edgesAll next shared (i :: is) =
      edges (Item.entry next is) sh i ++ edgesAll next sh' is := by
  cases is with
  | nil => exact ⟨shared, shared, by simp [edgesAll, Item.entry]⟩
  | cons j is => exact ⟨true, shared && passable i, rfl⟩

theorem mem_edgesAlts {alts : List (List Item)} {a : List Item} (ha : a ∈ alts)
    (hx : x ∈ edgesAll next true a) : x ∈ edgesAlts next alts := by
  induction alts with
  | nil => cases ha
  | cons b alts ih =>
    rw [edgesAlts, List.mem_append]
    rcases List.mem_cons.mp ha with rfl | ha
    · exact .inl hx
    · exact .inr (ih ha)

theorem mem_edgesOps {ops : List (Nat × List Item)} {op : Nat × List Item} (hop : op ∈ ops)
    (hx : x ∈ edgesAll next true op.2) : x ∈ edgesOps next ops := by
  induction ops with
  | nil => cases hop
  | cons o ops ih =>
    obtain ⟨v, a⟩ := o
    rw [edgesOps, List.mem_append, List.mem_cons]
    rcases List.mem_cons.mp hop with rfl | hop
    · exact .inl (.inr hx)
    · exact .inr (ih hop)

end Network

/-- The sites to choose from. -/
def Edge.choices : Edge → List Nat
  | .fork nexts => nexts
  | .climb operator finish => [operator, finish]
  | _ => []

namespace Tables

/-- How a rule can begin. -/
def first (t : Tables) (r : Rule) : Look := t.look (t.rule r).start

/-- The decision at a site is between the sites of a list. A kind of token speaks for a site at which it
can come, or at which nothing need come and it can follow the rule. -/
def Decides (t : Tables) (s : Nat) (nexts : List Nat) : Prop :=
  ∃ d follow, t.decision? s = some d ∧ d.nexts = nexts ∧
    d.heads = nexts.map fun n => ((t.look n).andThen follow).kinds

theorem look_of_getElem? {t : Tables} {s : Nat} {l : Look} (h : t.looks[s]? = some l) :
    t.look s = l := by
  rw [look, Array.getD_eq_getD_getElem?, h, Option.getD_some]

end Tables

namespace Item

variable {t : Tables} {p : Pace} {after : Look}

/-- The tables have the looks and the decisions of an item, where `after` is the look of what follows
it, and a parser gets on in it. -/
structure Laid (t : Tables) (p : Pace) (after : Look) (i : Item) : Prop where
  looks : ∀ x ∈ Look.sitesOfItem t.first after i, t.looks[x.1]? = some x.2
  decisions : ∃ next shared, t.look next = after ∧
    ∀ x ∈ Network.edges next shared i, 2 ≤ x.2.choices.length → t.Decides x.1 x.2.choices
  steady : i.steady t.first p after.ends = true

structure LaidAll (t : Tables) (p : Pace) (after : Look) (is : List Item) : Prop where
  looks : ∀ x ∈ Look.sitesOfItems t.first after is, t.looks[x.1]? = some x.2
  decisions : ∃ next shared, t.look next = after ∧
    ∀ x ∈ Network.edgesAll next shared is, 2 ≤ x.2.choices.length → t.Decides x.1 x.2.choices
  steady : steadyAll t.first p after.ends is = true

theorem look_entry {next : Nat} {ends : Bool} {is : List Item}
    (hlooks : ∀ x ∈ Look.sitesOfItems t.first after is, t.looks[x.1]? = some x.2)
    (hsteady : steadyAll t.first p ends is = true) (hnext : t.look next = after) :
    t.look (entry next is) = (Look.ofItems t.first is).andThen after := by
  cases is with
  | nil => rw [entry, Look.ofItems, Look.done_andThen, hnext]
  | cons i is =>
    rw [steadyAll, Bool.and_eq_true] at hsteady
    have hsite := hlooks _ (List.mem_append_left _ (Look.site_mem_sitesOfItem hsteady.1))
    rw [entry, Look.ofItems, Look.andThen_assoc]
    exact Tables.look_of_getElem? hsite

theorem LaidAll.cons {i : Item} {is : List Item} (h : LaidAll t p after (i :: is)) :
    Laid t p ((Look.ofItems t.first is).andThen after) i ∧ LaidAll t p after is := by
  obtain ⟨next, shared, hnext, hdecisions⟩ := h.decisions
  obtain ⟨sh, sh', hedges⟩ := Network.edgesAll_cons next shared i is
  have hsteady := h.steady
  rw [steadyAll, Bool.and_eq_true] at hsteady
  have hrest : ∀ x ∈ Look.sitesOfItems t.first after is, t.looks[x.1]? = some x.2 :=
    fun x hx => h.looks x (List.mem_append_right _ hx)
  rw [hedges] at hdecisions
  refine ⟨⟨fun x hx => h.looks x (List.mem_append_left _ hx), ?_, by simpa using hsteady.1⟩,
    ⟨hrest, ⟨next, sh', hnext, fun x hx => hdecisions x (List.mem_append_right _ hx)⟩, hsteady.2⟩⟩
  exact ⟨_, sh, look_entry hrest hsteady.2 hnext,
    fun x hx => hdecisions x (List.mem_append_left _ hx)⟩

/-! ### The parts of an item -/

/-- A choice decides between its alternatives, each of which can be empty or begins with a token. -/
structure Chooses (t : Tables) (p : Pace) (after : Look) (s : Nat) (alts : List (List Item)) :
    Prop where
  here : t.looks[s]? = some ((Look.ofAlts t.first alts).andThen after)
  decides : t.Decides s (alts.map (entry (s + 1)))
  laid : ∀ a ∈ alts, LaidAll t p after a
  begins : ∀ a ∈ alts, (Look.ofItems t.first a).ends = true ∨ begins t.first p a = true
  entry : ∀ a ∈ alts, t.look (entry (s + 1) a) = (Look.ofItems t.first a).andThen after

theorem Laid.branch {s : Nat} {alts : List (List Item)} (h : Laid t p after (.branch s alts)) :
    Chooses t p after s alts := by
  obtain ⟨next, shared, hnext, hdecisions⟩ := h.decisions
  have hsteady := h.steady
  simp only [Item.steady, Bool.and_eq_true, decide_eq_true_eq] at hsteady
  have halts := steadyAlts_iff.mp hsteady.2
  have hmeet : t.look (s + 1) = after :=
    Tables.look_of_getElem? (h.looks (s + 1, after) (by simp [Look.sitesOfItem]))
  have hin : ∀ a ∈ alts, ∀ x ∈ Look.sitesOfItems t.first after a, t.looks[x.1]? = some x.2 :=
    fun a ha x hx => h.looks x
      (List.mem_cons_of_mem _ (List.mem_cons_of_mem _ (Look.mem_sitesOfAlts ha hx)))
  refine ⟨h.looks _ List.mem_cons_self, ?_, fun a ha => ⟨hin a ha, ?_, (halts a ha).2⟩,
    fun a ha => (halts a ha).1, fun a ha => look_entry (hin a ha) (halts a ha).2 hmeet⟩
  · refine hdecisions (s, .fork _) List.mem_cons_self ?_
    simpa [Edge.choices] using hsteady.1
  · exact ⟨s + 1, true, hmeet, fun x hx => hdecisions x
      (List.mem_cons_of_mem _ (List.mem_cons_of_mem _ (Network.mem_edgesAlts ha hx)))⟩

/-- What can come where a loop may go on and may end. -/
def againLook (first : Rule → Look) (after : Look) (body : List Item) : Look :=
  { Look.ofItems first body with ends := true }.andThen after

/-- The rounds of a loop, whichever place it is entered at. -/
structure Rounds (t : Tables) (p : Pace) (after : Look) (s : Nat) (body : List Item) : Prop where
  again : t.looks[s + 1]? = some (againLook t.first after body)
  laid : LaidAll t p (againLook t.first after body) body
  begins : begins t.first p body = true
  entry : t.look (entry (s + 1) body) = Look.ofItems t.first body

theorem rounds_of_looks {s : Nat} {body : List Item}
    (hagain : t.looks[s + 1]? = some (againLook t.first after body))
    (hlooks : ∀ x ∈ Look.sitesOfItems t.first (againLook t.first after body) body,
      t.looks[x.1]? = some x.2)
    (hdecisions : ∀ x ∈ Network.edgesAll (s + 1) true body, 2 ≤ x.2.choices.length →
      t.Decides x.1 x.2.choices)
    (hbegins : begins t.first p body = true)
    (hsteady : steadyAll t.first p (againLook t.first after body).ends body = true) :
    Rounds t p after s body := by
  have hlook := Tables.look_of_getElem? hagain
  refine ⟨hagain, ⟨hlooks, ⟨s + 1, true, hlook, hdecisions⟩, hsteady⟩, hbegins, ?_⟩
  rw [look_entry hlooks hsteady hlook, Look.andThen_of_not_ends (begins_iff.mp hbegins).1]

/-- A loop that may be left at once decides before its first round and after each. -/
theorem Laid.loop {s : Nat} {body : List Item} (h : Laid t p after (.loop s body)) :
    t.looks[s]? = some (againLook t.first after body) ∧ Rounds t p after s body ∧
    ∃ next, t.look next = after ∧ t.Decides s [entry (s + 1) body, next] := by
  obtain ⟨next, shared, hnext, hdecisions⟩ := h.decisions
  have hsteady := h.steady
  simp only [Item.steady, Bool.and_eq_true] at hsteady
  refine ⟨h.looks _ List.mem_cons_self, rounds_of_looks
    (h.looks (s + 1, _) (List.mem_cons_of_mem _ List.mem_cons_self))
    (fun x hx => h.looks x (List.mem_cons_of_mem _ (List.mem_cons_of_mem _ hx)))
    (fun x hx => hdecisions x (List.mem_cons_of_mem _ (List.mem_cons_of_mem _ hx)))
    hsteady.1 (by simpa [againLook] using hsteady.2), next, hnext, ?_⟩
  exact hdecisions (s, .fork _) List.mem_cons_self (Nat.le_refl 2)

/-- A loop of one or more rounds decides only after a round. -/
theorem Laid.loopOnce {s : Nat} {body : List Item} (h : Laid t p after (.loopOnce s body)) :
    t.looks[s]? = some (Look.ofItems t.first body) ∧ Rounds t p after s body ∧
    ∃ next, t.look next = after ∧ t.Decides (s + 1) [s, next] := by
  obtain ⟨next, shared, hnext, hdecisions⟩ := h.decisions
  have hsteady := h.steady
  simp only [Item.steady, Bool.and_eq_true] at hsteady
  have hsite := h.looks _ List.mem_cons_self
  rw [Look.andThen_of_not_ends (begins_iff.mp hsteady.1).1] at hsite
  refine ⟨hsite, rounds_of_looks
    (h.looks (s + 1, _) (List.mem_cons_of_mem _ List.mem_cons_self))
    (fun x hx => h.looks x (List.mem_cons_of_mem _ (List.mem_cons_of_mem _ hx)))
    (fun x hx => hdecisions x (List.mem_cons_of_mem _ (List.mem_cons_of_mem _ hx)))
    hsteady.1 (by simpa [againLook] using hsteady.2), next, hnext, ?_⟩
  exact hdecisions (s + 1, .fork _) (List.mem_cons_of_mem _ List.mem_cons_self) (Nat.le_refl 2)

/-- What the tables hold about an operator. `again` is the look of the place after it. -/
structure OperatorLaid (t : Tables) (p : Pace) (again : Look) (items : List Item) : Prop where
  laid : LaidAll t p again items
  begins : begins t.first p items = true
  guard : t.looks[guardSite items]? = some { Look.ofItems t.first items with guarded := true }

/-- A loop of operators decides whether to take one, and then which, and `l` is the look before each of
them. What it follows can always end. -/
structure Climbs (t : Tables) (p : Pace) (after l : Look) (s : Nat)
    (ops : List (Nat × List Item)) : Prop where
  ends : after.ends = true
  nonempty : ops ≠ []
  here : t.looks[s]? = some l
  again : t.looks[s + 1]? = some l
  which : t.looks[s + 2]? = some { Look.ofOps t.first ops with guarded := true }
  whether : ∃ next, t.look next = after ∧ t.Decides s [s + 2, next]
  among : 2 ≤ ops.length → t.Decides (s + 2) (ops.map fun op => guardSite op.2)
  operator : ∀ op ∈ ops, OperatorLaid t p l op.2

theorem Laid.climb {s : Nat} {ops : List (Nat × List Item)} (h : Laid t p after (.climb s ops)) :
    Climbs t p after
      ({ Look.ofOps t.first ops with ends := true, guarded := true }.andThen after) s ops := by
  generalize hlook : { Look.ofOps t.first ops with ends := true, guarded := true }.andThen after =
    again
  have hlooks := h.looks
  have hsteady := h.steady
  simp only [Item.steady, Bool.and_eq_true, Bool.not_eq_true', List.isEmpty_eq_false_iff] at hsteady
  obtain ⟨⟨hends, hne⟩, hops⟩ := hsteady
  have hops := steadyOps_iff.mp hops
  obtain ⟨next, shared, hnext, hdecisions⟩ := h.decisions
  rw [Look.sitesOfItem] at hlooks
  simp only [hlook] at hlooks
  have hagain : t.looks[s + 1]? = some again :=
    hlooks (s + 1, again) (List.mem_cons_of_mem _ List.mem_cons_self)
  have hin : ∀ x ∈ Look.sitesOfOps t.first again ops, t.looks[x.1]? = some x.2 := fun x hx =>
    hlooks x (List.mem_cons_of_mem _ (List.mem_cons_of_mem _ (List.mem_cons_of_mem _ hx)))
  have hinside : ∀ x ∈ Network.edgesOps (s + 1) ops, 2 ≤ x.2.choices.length →
      t.Decides x.1 x.2.choices := fun x hx => hdecisions x
    (List.mem_cons_of_mem _ (List.mem_cons_of_mem _ (List.mem_cons_of_mem _ hx)))
  refine ⟨hends, hne, hlooks _ List.mem_cons_self, hagain,
    hlooks (s + 2, _) (List.mem_cons_of_mem _ (List.mem_cons_of_mem _ List.mem_cons_self)),
    ⟨next, hnext, hdecisions (s, .climb _ _) List.mem_cons_self (Nat.le_refl 2)⟩, fun htwo => ?_,
    fun op hop => ⟨⟨fun x hx => hin x (Look.mem_sitesOfOps hop (.inr hx)), ?_, ?_⟩,
      (hops op hop).1, ?_⟩⟩
  · refine hdecisions (s + 2, .fork _)
      (List.mem_cons_of_mem _ (List.mem_cons_of_mem _ List.mem_cons_self)) ?_
    simpa [Edge.choices] using htwo
  · exact ⟨s + 1, true, Tables.look_of_getElem? hagain,
      fun x hx => hinside x (Network.mem_edgesOps hop hx)⟩
  · simpa [← hlook] using (hops op hop).2
  · have hguard := hin _ (Look.mem_sitesOfOps hop (.inl rfl))
    rwa [Look.andThen_of_not_ends (begins_iff.mp (hops op hop).1).1] at hguard

end Item

end Callscope
