import Callscope.Proofs.Outline.Walk

/-!
# Faults change nothing

A visit writes to the collector in several places and can fail between its checks, but every write
comes after the last check that can fail. So a fault leaves the collector as it was, whatever state the
collector is in and whatever the tree looks like, and a walk that a fault cuts short leaves behind what
the visits before that one have made.
-/

namespace Callscope

namespace Collector

variable {c : Collector} {v : Visit} {vs : List Visit} {f : Fault}

theorem result_visit (v : Visit) (c : Collector) :
    (visit v c).1.result = (c.outcome v).map fun _ => () := by
  have hends : (visit v c).1.result = (settle c (c.outcome v)).1 :=
    congrArg Prod.fst (ends_visit v c)
  rw [hends]
  cases c.outcome v with
  | ok => rfl
  | error => rfl

theorem outcome_of_result (h : (visit v c).1.result = .ok ()) :
    c.outcome v = .ok (visit v c).2 := by
  have hends := congrArg Prod.snd (ends_visit v c)
  rw [result_visit] at h
  cases hv : c.outcome v with
  | ok c' =>
    rw [hv] at hends
    exact congrArg Except.ok hends.symm
  | error e =>
    rw [hv] at h
    cases h

theorem collector_of_fault (h : (visit v c).1.result = .error f) : (visit v c).2 = c := by
  have hends := congrArg Prod.snd (ends_visit v c)
  rw [result_visit] at h
  cases hv : c.outcome v with
  | ok c' =>
    rw [hv] at h
    cases h
  | error e =>
    rw [hv] at hends
    exact hends

/-- The visits that a fault cuts short: those before it pass, and the one that fails finds what they
have made and leaves it so. -/
theorem passes_of_fault (h : (c.follow vs).fault = some f) :
    ∃ before v after, vs = before ++ v :: after ∧ (c.follow vs).done = before.length ∧
      Passes c before (c.follow vs).collector ∧ (c.follow vs).collector.outcome v = .error f := by
  induction vs generalizing c with
  | nil => simp [follow_nil] at h
  | cons v vs ih =>
    cases hv : c.outcome v with
    | error e =>
      obtain ⟨log, hf⟩ := follow_cons_error hv vs
      rw [hf] at h ⊢
      cases h
      exact ⟨[], v, vs, rfl, rfl, passes_nil.mpr rfl, hv⟩
    | ok d =>
      obtain ⟨log, hf⟩ := follow_cons_ok hv vs
      rw [hf] at h ⊢
      obtain ⟨before, u, after, rfl, hdone, hpasses, hu⟩ := ih h
      refine ⟨v :: before, u, after, rfl, ?_, passes_cons.mpr ⟨d, hv, hpasses⟩, hu⟩
      rw [hdone, List.length_cons]

/-- A visit that fails leaves every collector as it was. So what a walk through a tree leaves behind at
a fault is what the visits before that fault have made, and all of those have succeeded. -/
theorem fault_leaves_collector (c : Collector) :
    (∀ v f, (visit v c).1.result = .error f → (visit v c).2 = c) ∧
    ∀ t f, (c.collect t).fault = some f → ∃ before v after,
      t.walk = before ++ v :: after ∧ (c.collect t).done = before.length ∧
      (c.follow before).fault = none ∧ (c.follow before).collector = (c.collect t).collector ∧
      (visit v (c.collect t).collector).1.result = .error f := by
  refine ⟨fun v f => collector_of_fault, fun t f h => ?_⟩
  obtain ⟨before, v, after, hwalk, hdone, hpasses, hv⟩ := passes_of_fault h
  refine ⟨before, v, after, hwalk, hdone, hpasses.1, hpasses.2, ?_⟩
  rw [collect, result_visit, hv]
  rfl

/-- A class with a method, and in it an enumeration whose name is not found. -/
def classAroundEnum : Tree :=
  .unitOf [.classOf "A" [.methodOf "m" [] [.calling "f"], .phrase .enumDeclaration
    [.word .kwEnum "enum", .named "E", .word .lbrace "\x7b", .word .rbrace "\x7d"]]]

/-- The enumeration fails inside of the class, which stays open with its method and the call in it. -/
theorem fault_leaves_collector_open :
    (collect {} classAroundEnum).fault = some .noClassName ∧
    (collect {} classAroundEnum).collector.depth = 1 ∧
    ∃ before v after, classAroundEnum.walk = before ++ v :: after ∧
      (collect {} classAroundEnum).done = before.length ∧ (follow {} before).fault = none ∧
      (follow {} before).collector = (collect {} classAroundEnum).collector ∧
      (visit v (collect {} classAroundEnum).collector).1.result = .error .noClassName := by
  have hfault : (collect {} classAroundEnum).fault = some .noClassName := by decide +kernel
  exact ⟨hfault, by decide +kernel, (fault_leaves_collector {}).2 classAroundEnum _ hfault⟩

end Collector

end Callscope
