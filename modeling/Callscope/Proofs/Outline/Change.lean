import Callscope.Proofs.Outline.Walk

/-!
# The changes of a collector

Everything that a visit can do to a collector, whatever tree it comes from: one constructor for each
change, with what was checked before it. An invariant is shown for each change once, and then holds
after every visit and every walk.
-/

namespace Callscope

namespace Tree

/-- Whether a tree declares a class. An enumeration is one. -/
def declaresClass (t : Tree) : Bool :=
  t.rule? = some .classDeclaration || t.rule? = some .enumDeclaration

theorem declaresClass_iff {t : Tree} : t.declaresClass = true ↔
    t.rule? = some .classDeclaration ∨ t.rule? = some .enumDeclaration := by
  simp [declaresClass]

end Tree

namespace Collector

variable {c c' : Collector} {t : Tree} {v : Visit}

/-- A class never comes without a name. -/
theorem name_ne_of_classHead {head : ClassHead} (h : (c.classHead t).result = .ok head) :
    head.name ≠ "" := by
  rw [result_classHead] at h
  obtain ⟨second, _, h⟩ := Noted.bind_eq_ok.mp h
  obtain ⟨found, _, h⟩ := Noted.bind_eq_ok.mp h
  split at h
  · cases h
  · cases h
    assumption

/-- A method is kept under its own name, and no call has been seen in it yet. -/
theorem name_calls_of_methodPart {around : List Tree} {name : String} {m : Method}
    (h : (c.methodPart t around name).result = .ok m) : m.name = name ∧ m.calls = [] := by
  simp only [methodPart, Noted.result_bind, Noted.result_lift] at h
  obtain ⟨returnType, _, h⟩ := Noted.bind_eq_ok.mp h
  split at h
  · cases h
  · simp only [Noted.result_bind, Noted.result_lift, Noted.result_pure] at h
    obtain ⟨brackets, _, h⟩ := Noted.bind_eq_ok.mp h
    obtain ⟨parameters, _, h⟩ := Noted.bind_eq_ok.mp h
    cases h
    exact ⟨rfl, rfl⟩

/-! ## Outcomes that succeed -/

theorem fieldOutcome_ok {around : List Tree} (h : c.fieldOutcome t around = .ok c') :
    ∃ j i type define, c.innermost = .ok j ∧ c.classNamed (c.entry j).name = .ok i ∧
      childText t 0 = .ok type ∧ childText t 1 = .ok define ∧ c' = c.withField i ⟨type, define⟩ := by
  unfold fieldOutcome at h
  split at h
  · cases h
  · obtain ⟨head, _, h⟩ := Noted.bind_eq_ok.mp h
    obtain ⟨j, hj, h⟩ := Noted.bind_eq_ok.mp h
    split at h
    · cases h
    · obtain ⟨i, hi, h⟩ := Noted.bind_eq_ok.mp h
      obtain ⟨type, htype, h⟩ := Noted.bind_eq_ok.mp h
      obtain ⟨define, hdefine, h⟩ := Noted.bind_eq_ok.mp h
      cases h
      exact ⟨j, i, type, define, hj, hi, htype, hdefine, rfl⟩

theorem methodOutcome_ok {around : List Tree} (h : c.methodOutcome t around = .ok c') :
    ∃ name j, childText t 1 = .ok name ∧ c.innermost = .ok j ∧
      (((c.entry j).methods.has name = true ∧ c' = c) ∨
       ((c.entry j).methods.has name = false ∧ ∃ m i,
          (c.methodPart t around name).result = .ok m ∧ c.classNamed (c.entry j).name = .ok i ∧
          c' = c.inMethod i name m)) := by
  obtain ⟨name, hname, h⟩ := Noted.bind_eq_ok.mp h
  obtain ⟨j, hj, h⟩ := Noted.bind_eq_ok.mp h
  refine ⟨name, j, hname, hj, ?_⟩
  split at h
  · rename_i hhas
    cases h
    exact Or.inl ⟨hhas, rfl⟩
  · rename_i hnew
    obtain ⟨m, hm, h⟩ := Noted.bind_eq_ok.mp h
    obtain ⟨i, hi, h⟩ := Noted.bind_eq_ok.mp h
    cases h
    exact Or.inr ⟨by simpa using hnew, m, i, hm, hi, rfl⟩

theorem callOutcome_ok (h : c.callOutcome t = .ok c') :
    ∃ value, childText t 0 = .ok value ∧
      ((c.method = none ∧ ∃ j i, c.innermost = .ok j ∧ c.classNamed (c.entry j).name = .ok i ∧
          c' = c.withClassCall i (callOf t value)) ∨
       ∃ m, c.method = some m ∧ c' = c.withMethodCall m (callOf t value)) := by
  obtain ⟨value, hvalue, h⟩ := Noted.bind_eq_ok.mp h
  refine ⟨value, hvalue, ?_⟩
  split at h
  · rename_i hm
    obtain ⟨j, hj, h⟩ := Noted.bind_eq_ok.mp h
    obtain ⟨i, hi, h⟩ := Noted.bind_eq_ok.mp h
    cases h
    exact Or.inl ⟨hm, j, i, hj, hi, rfl⟩
  · rename_i m hm
    cases h
    exact Or.inr ⟨m, hm, rfl⟩

/-! ## Changes -/

/-- What a visit can do to a collector without opening or closing a class. -/
inductive Update (c : Collector) : Collector → Prop
  | same : Update c c
  | package (name : String) : Update c { c with package := name }
  | importName (name : String) : Update c { c with imports := c.imports ++ [name] }
  | field {j i : Nat} (field : Field) (inner : c.innermost = .ok j)
      (home : c.classNamed (c.entry j).name = .ok i) : Update c (c.withField i field)
  | method {j i : Nat} {name : String} {m : Method} (inner : c.innermost = .ok j)
      (new : (c.entry j).methods.has name = false)
      (home : c.classNamed (c.entry j).name = .ok i) (named : m.name = name) (fresh : m.calls = []) :
      Update c (c.inMethod i name m)
  | left : Update c { c with method := none }
  | classCall {j i : Nat} (call : Call) (outside : c.method = none) (inner : c.innermost = .ok j)
      (home : c.classNamed (c.entry j).name = .ok i) : Update c (c.withClassCall i call)
  | methodCall {m : MethodRef} (call : Call) (inside : c.method = some m) :
      Update c (c.withMethodCall m call)

/-- What a visit can do to a collector. -/
inductive Change (c : Collector) : Collector → Prop
  | updated {c' : Collector} (update : Update c c') : Change c c'
  | opened (head : ClassHead) (named : head.name ≠ "") : Change c (c.opening head)
  | closed {i : Nat} (inner : c.innermost = .ok i) : Change c c.closing

/-! ## Visits of classes and other visits -/

theorem outcome_enterClass (h : t.declaresClass = true) (around : List Tree) :
    c.outcome (.enter t around) = (return c.opening (← (c.classHead t).result)) := by
  rcases Tree.declaresClass_iff.mp h with hr | hr <;> simp only [outcome, hr]

theorem outcome_exitClass (h : t.declaresClass = true) (around : List Tree) :
    c.outcome (.exit t around) = (do
      let _ ← childText t 1
      let _ ← c.innermost
      return c.closing) := by
  rcases Tree.declaresClass_iff.mp h with hr | hr <;> simp only [outcome, hr]

theorem update_of_enter {around : List Tree} (ht : t.declaresClass = false)
    (h : c.outcome (.enter t around) = .ok c') : Update c c' := by
  simp only [outcome] at h
  split at h
  · obtain ⟨name, _, h⟩ := Noted.bind_eq_ok.mp h
    cases h
    exact .package name
  · obtain ⟨name, _, h⟩ := Noted.bind_eq_ok.mp h
    cases h
    exact .importName name
  · rename_i hr
    rw [Tree.declaresClass_iff.mpr (Or.inl hr)] at ht
    cases ht
  · rename_i hr
    rw [Tree.declaresClass_iff.mpr (Or.inr hr)] at ht
    cases ht
  · obtain ⟨j, i, type, define, hj, hi, _, _, rfl⟩ := fieldOutcome_ok h
    exact .field _ hj hi
  · obtain ⟨name, j, _, hj, ⟨_, rfl⟩ | ⟨hnew, m, i, hm, hi, rfl⟩⟩ := methodOutcome_ok h
    · exact .same
    · obtain ⟨hname, hcalls⟩ := name_calls_of_methodPart hm
      exact .method hj hnew hi hname hcalls
  · obtain ⟨value, _, ⟨hm, j, i, hj, hi, rfl⟩ | ⟨m, hm, rfl⟩⟩ := callOutcome_ok h
    · exact .classCall _ hm hj hi
    · exact .methodCall _ hm
  · cases h
    exact .same

theorem update_of_exit {around : List Tree} (ht : t.declaresClass = false)
    (h : c.outcome (.exit t around) = .ok c') : Update c c' := by
  simp only [outcome] at h
  split at h
  · rename_i hr
    rw [Tree.declaresClass_iff.mpr (Or.inl hr)] at ht
    cases ht
  · rename_i hr
    rw [Tree.declaresClass_iff.mpr (Or.inr hr)] at ht
    cases ht
  · obtain ⟨_, _, h⟩ := Noted.bind_eq_ok.mp h
    cases h
    exact .left
  · cases h
    exact .same

/-- A visit that succeeds makes one of the changes. -/
theorem change_of_outcome (h : c.outcome v = .ok c') : Change c c' := by
  cases v with
  | leaf t =>
    cases h
    exact .updated .same
  | enter t around =>
    cases ht : t.declaresClass with
    | false => exact .updated (update_of_enter ht h)
    | true =>
      rw [outcome_enterClass ht] at h
      obtain ⟨head, hh, h⟩ := Noted.bind_eq_ok.mp h
      cases h
      exact .opened head (name_ne_of_classHead hh)
  | exit t around =>
    cases ht : t.declaresClass with
    | false => exact .updated (update_of_exit ht h)
    | true =>
      rw [outcome_exitClass ht] at h
      obtain ⟨_, _, h⟩ := Noted.bind_eq_ok.mp h
      obtain ⟨i, hi, h⟩ := Noted.bind_eq_ok.mp h
      cases h
      exact .closed hi

/-- Only the visits of a method declaration change which method calls belong to. -/
theorem method_of_enter {around : List Tree} (ht : t.rule? ≠ some .methodDeclaration)
    (h : c.outcome (.enter t around) = .ok c') : c'.method = c.method := by
  simp only [outcome] at h
  split at h
  · obtain ⟨name, _, h⟩ := Noted.bind_eq_ok.mp h
    cases h
    rfl
  · obtain ⟨name, _, h⟩ := Noted.bind_eq_ok.mp h
    cases h
    rfl
  · obtain ⟨head, _, h⟩ := Noted.bind_eq_ok.mp h
    cases h
    rfl
  · obtain ⟨head, _, h⟩ := Noted.bind_eq_ok.mp h
    cases h
    rfl
  · obtain ⟨j, i, type, define, _, _, _, _, rfl⟩ := fieldOutcome_ok h
    rfl
  · contradiction
  · obtain ⟨value, _, ⟨_, j, i, _, _, rfl⟩ | ⟨m, _, rfl⟩⟩ := callOutcome_ok h <;> rfl
  · cases h
    rfl

theorem method_of_exit {around : List Tree}
    (h : c.outcome (.exit t around) = .ok c') :
    c'.method = if t.rule? = some .methodDeclaration then none else c.method := by
  simp only [outcome] at h
  split at h
  · rename_i hr
    obtain ⟨_, _, h⟩ := Noted.bind_eq_ok.mp h
    obtain ⟨i, _, h⟩ := Noted.bind_eq_ok.mp h
    cases h
    simp [hr, closing]
  · rename_i hr
    obtain ⟨_, _, h⟩ := Noted.bind_eq_ok.mp h
    obtain ⟨i, _, h⟩ := Noted.bind_eq_ok.mp h
    cases h
    simp [hr, closing]
  · rename_i hr
    obtain ⟨_, _, h⟩ := Noted.bind_eq_ok.mp h
    cases h
    simp [hr]
  · rename_i hr
    cases h
    rw [if_neg hr]

/-- The end of a phrase changes neither which classes there are nor what they have. -/
theorem classes_pool_of_exit {around : List Tree} (h : c.outcome (.exit t around) = .ok c') :
    c'.classes = c.classes ∧ c'.pool = c.pool := by
  simp only [outcome] at h
  split at h
  · obtain ⟨_, _, h⟩ := Noted.bind_eq_ok.mp h
    obtain ⟨_, _, h⟩ := Noted.bind_eq_ok.mp h
    cases h
    exact ⟨rfl, rfl⟩
  · obtain ⟨_, _, h⟩ := Noted.bind_eq_ok.mp h
    obtain ⟨_, _, h⟩ := Noted.bind_eq_ok.mp h
    cases h
    exact ⟨rfl, rfl⟩
  · obtain ⟨_, _, h⟩ := Noted.bind_eq_ok.mp h
    cases h
    exact ⟨rfl, rfl⟩
  · cases h
    exact ⟨rfl, rfl⟩

end Collector

end Callscope
