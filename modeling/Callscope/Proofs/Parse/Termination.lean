import Callscope.Proofs.Lookahead.Halting
import Callscope.Proofs.Parse.Coverage
import Callscope.Proofs.Parse.Progress
import Callscope.Proofs.Parse.Turns

/-!
# Parsing ends

Every text is read to the end of its phrase, whatever its errors, in a number of steps that grows with
the number of its tokens. A step always leaves the parser less that it can spend: a fixed amount for
every token ahead and for every site at which the current one may still make it give up, and the steps
for what is left to do. Within a step the parser may read ahead, which comes to an end as well.
-/

namespace Callscope

namespace Outlook

/-- The parser can end in fewer steps. Before it starts on the way down to a token it has to have the
steps for that in hand. -/
def Affordable (t : Tables) (p : Pace) (fuel : Nat) (o : Outlook) : Prop :=
  (2 * p.cap + 2) * o.reach t + o.cost t p + p.cap + 1 < fuel ∨ o.Promised t ∧
    (2 * p.cap + 2) * o.reach t + o.cost t p + Task.descentAll t.first p o.todo < fuel

variable {t : Tables} {p : Pace} {o o' : Outlook}

theorem Turn.affordable (hpaced : t.Paced p) (h : o.Turn t o') (hplan : o.Planned t p)
    (hend : o.rest = [] → o.current.kind = .eof) {fuel : Nat}
    (hfuel : o.Affordable t p (fuel + 1)) : o'.Affordable t p fuel := by
  have hless : o'.reach t < o.reach t →
      (2 * p.cap + 2) * o'.reach t + (2 * p.cap + 2) ≤ (2 * p.cap + 2) * o.reach t :=
    fun hlt => Nat.mul_le_mul_left (2 * p.cap + 2) hlt
  have hsame : o'.reach t ≤ o.reach t →
      (2 * p.cap + 2) * o'.reach t ≤ (2 * p.cap + 2) * o.reach t :=
    Nat.mul_le_mul_left (2 * p.cap + 2)
  rcases hfuel with hfuel | ⟨hpromised, hfuel⟩
  · rcases h.advances hpaced hplan hend with ⟨hle, hcost⟩ | ⟨hlt, hcost⟩ | ⟨hpromised, hle, hcost⟩
    · have hreach := hsame hle
      exact .inl (by omega)
    · have hreach := hless hlt
      exact .inl (by omega)
    · have hreach := hsame hle
      exact .inr ⟨hpromised, by omega⟩
  · rcases h.descends hpaced hplan hpromised with ⟨hlt, hcost⟩ | ⟨hpromised, hle, hcost⟩
    · have hreach := hless hlt
      exact .inl (by omega)
    · have hreach := hsame hle
      exact .inr ⟨hpromised, by omega⟩

end Outlook

namespace Machine

variable {t : Tables} {p : Pace} {m : Machine}

/-- A run with enough steps comes to its end. -/
theorem exists_run (hpaced : t.Paced p) {fuel : Nat} (hend : m.Ended)
    (hplan : m.outlook.Planned t p) (hfuel : m.outlook.Affordable t p fuel) :
    ∃ r, run (.ofTables t) fuel m = some r := by
  induction fuel generalizing m with
  | zero => rcases hfuel with hfuel | ⟨_, hfuel⟩ <;> omega
  | succ fuel ih =>
    rw [run]
    split
    · rename_i m' hstep
      have hturn := step_turn hpaced.sound hend hplan hstep
      have hlast : m.outlook.rest = [] → m.outlook.current.kind = .eof := by
        intro hrest
        by_contra hkind
        exact hend.rest_ne_nil hkind hrest
      exact ih (stable_ended.step hend hstep) (hturn.planned hpaced hplan)
        (hturn.affordable hpaced hplan hlast hfuel)
    · exact ⟨_, rfl⟩

theorem exists_run_start (hpaced : t.Paced p) (rule : Rule) (level : Nat) {current : Token}
    {rest : List Token} (hend : (start (.ofTables t) rule level current rest).Ended) {fuel : Nat}
    (hfuel : (2 * p.cap + 2) * ((rest.length + 1) * (t.looks.size + 1)) + 2 * p.cap + 2 < fuel) :
    ∃ r, run (.ofTables t) fuel (start (.ofTables t) rule level current rest) = some r := by
  refine exists_run hpaced hend (fun todo htodo => ?_) (.inl ?_)
  · rw [List.mem_singleton.mp htodo]
    exact Task.planned_rule hpaced rule
  · generalize ho : (start (.ofTables t) rule level current rest).outlook = o
    have hreach : o.reach t ≤ (rest.length + 1) * (t.looks.size + 1) := by
      have hpending := o.pending_le t
      have hrest : o.rest = rest := by rw [← ho]; rfl
      rw [Outlook.reach, hrest, Nat.succ_mul]
      omega
    have hcost : o.cost t p ≤ p.cap + 1 := by
      have hidle := hpaced.idle rule
      have htodo : o.todo = (t.rule rule).items.map .item := by rw [← ho]; rfl
      have hcallers : o.callers = [] := by rw [← ho]; rfl
      rw [Outlook.cost, htodo, hcallers, Task.idleAll_items, List.map_nil, List.sum_nil]
      omega
    have hspent := Nat.mul_le_mul_left (2 * p.cap + 2) hreach
    omega

/-- More steps change nothing once a run has come to its end. -/
theorem run_of_le {a : Lookahead.Automata} {n k : Nat} {r : Machine × Tree}
    (h : run a n m = some r) (hle : n ≤ k) : run a k m = some r := by
  induction n generalizing m k with
  | zero => cases h
  | succ n ih =>
    obtain ⟨k, rfl⟩ : ∃ j, k = j + 1 := ⟨k - 1, by omega⟩
    rw [run] at h ⊢
    split at h
    · exact ih h (by omega)
    · exact h

end Machine

/-! ## The grammar of Java -/

namespace Pace

/-- One round: the bounds for all rules, given those for the rules that they call. -/
def round (first : Rule → Look) (rules : List Numbered) (p : Pace) : Pace :=
  let idles := rules.map fun n => Item.idleAll first p n.items
  let descents := rules.map fun n => Item.descentAll first p 0 n.items
  { p with
    idle := fun r => idles.getD r.ctorIdx 0
    descent := fun r => descents.getD r.ctorIdx 0 }

end Pace

namespace Java

/-- The bounds for the rules of Java, which have settled after a few rounds. -/
def pace : Pace :=
  (Pace.round (Look.ofTable (Look.ofGrammar body)) (Grammar.numberRules body 0 Rule.all).1)^[12]
    ⟨fun _ => 0, fun _ => 0, 100⟩

theorem between_sites : Between 0 (Grammar.numberRules body 0 Rule.all).2
    ((Tables.looksOf (Look.ofTable (Look.ofGrammar body)) (Tables.numbering body)).map Prod.fst) :=
  between_of_increasing (by decide +kernel)

/-- The bounds hold for every rule, and a rule begins only with rules of smaller bounds. Both are checked
at once, so that the looks and the bounds are worked out once. -/
theorem suits_grounds (r : Rule × Numbered) (hr : r ∈ Tables.numbering body) :
    pace.suits (Look.ofTable (Look.ofGrammar body)) r = true ∧
      pace.grounds (Look.ofTable (Look.ofGrammar body)) r = true := by
  have hall : ((Tables.numbering body).all fun r =>
      pace.suits (Look.ofTable (Look.ofGrammar body)) r &&
        pace.grounds (Look.ofTable (Look.ofGrammar body)) r) = true := by decide +kernel
  exact Bool.and_eq_true_iff.mp (List.all_eq_true.mp hall r hr)

theorem paced_tables : tables.Paced pace :=
  Tables.paced_ofGrammar proper_body between_sites
    (List.all_eq_true.mpr fun r hr => (suits_grounds r hr).1)

theorem grounds_tables : tables.Grounds := by
  refine Tables.grounds_ofGrammar proper_body paced_tables ?_
  rw [(Tables.holds_ofGrammar between_sites).1]
  exact List.all_eq_true.mpr fun r hr => (suits_grounds r hr).2

theorem size_looks : tables.looks.size = 2180 := by
  rw [tables, Tables.size_looks]
  decide +kernel

end Java

namespace Parse

/-- The parser stops after less than half a million steps for each token. -/
theorem exists_run (text : String) (rule : Rule) (level : Nat) : ∃ current rest r,
    (Lexed.ofText text).visible = current :: rest ∧ ∀ n, 441000 * (rest.length + 1) ≤ n →
      Machine.run Java.automata n (Machine.start Java.automata rule level current rest) =
        some r := by
  obtain ⟨init, e, hvisible, heof, _⟩ := Lexed.visible_ends text
  obtain ⟨current, rest, hsplit⟩ := List.exists_cons_of_ne_nil
    (show init ++ [e] ≠ [] from List.append_ne_nil_of_right_ne_nil _ (List.cons_ne_nil _ _))
  have hend : (Machine.start Java.automata rule level current rest).Ended := by
    refine ⟨e, ?_, heof⟩
    change (current :: rest).getLast? = some e
    rw [← hsplit, List.getLast?_concat]
  have hfuel : (2 * Java.pace.cap + 2) * ((rest.length + 1) * (Java.tables.looks.size + 1)) +
      2 * Java.pace.cap + 2 < 441000 * (rest.length + 1) := by
    have hcap : Java.pace.cap = 100 := rfl
    rw [hcap, Java.size_looks]
    omega
  obtain ⟨r, hr⟩ := Machine.exists_run_start Java.paced_tables rule level hend hfuel
  exact ⟨current, rest, r, hvisible.trans hsplit, fun n hn => Machine.run_of_le hr hn⟩

theorem fuel_ge (n : Nat) : 441000 * (n + 1) ≤ fuel n := by
  rw [fuel]
  omega

theorem exists_ofText? (text : String) (rule : Rule) (level : Nat) :
    ∃ p, ofText? text rule level = some p := by
  obtain ⟨current, rest, r, hvisible, hrun⟩ := exists_run text rule level
  rw [ofText?, ofLexed?, hvisible]
  dsimp only
  rw [hrun _ (fuel_ge _)]
  exact ⟨_, rfl⟩

/-- Reading a text as a phrase of any rule and at any level comes to an end. No lookahead goes on for
ever, there is a tree after a number of steps that the number of tokens bounds, and more steps change
nothing. -/
theorem reads_every_text (text : String) (rule : Rule) (level : Nat) :
    (∀ (sc : Scope) work p, ({ sc with tables := Java.tables }.follow work p).isSome) ∧
    ∃ current rest m tree, (Lexed.ofText text).visible = current :: rest ∧
      (∀ n, 441000 * (rest.length + 1) ≤ n → Machine.run Java.automata n
        (Machine.start Java.automata rule level current rest) = some (m, tree)) ∧
      ofText? text rule level = some
        { lexed := .ofText text, tree, next := m.current
          reports := m.reports.reverse, seen := m.seen } := by
  constructor
  · have hgrounds := Java.grounds_tables
    -- The tables are too large to be opened where two of them are compared.
    generalize Java.tables = t at hgrounds ⊢
    exact fun sc work p => Scope.isSome_follow hgrounds work p
  · obtain ⟨current, rest, ⟨m, tree⟩, hvisible, hrun⟩ := exists_run text rule level
    refine ⟨current, rest, m, tree, hvisible, hrun, ?_⟩
    rw [ofText?, ofLexed?, hvisible]
    dsimp only
    rw [hrun _ (fuel_ge _)]
    rfl

end Parse

end Callscope
