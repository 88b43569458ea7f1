import Callscope.Proofs.Outline.Walk

/-!
# Warnings

Of the lines that a visit notes only one is a warning: that of a method whose name the innermost open
class knows already. `warned_visit` reads it off the collector and the visit, and the warnings of a walk
are those of its visits one after the other.
-/

namespace Callscope

def LogLine.isWarning (l : LogLine) : Bool := l.level = .warning

namespace Noted

variable {ε α β : Type}

/-- Nothing that was noted is a warning. -/
def Quiet (x : Noted ε α) : Prop := x.log.filter LogLine.isWarning = []

theorem quiet_pure (a : α) : Quiet (pure a : Noted ε α) := rfl

theorem quiet_lift (r : Except ε α) : Quiet (lift r) := rfl

theorem quiet_fail (e : ε) : Quiet (fail e : Noted ε α) := rfl

theorem Quiet.bind {x : Noted ε α} {f : α → Noted ε β} (hx : Quiet x) (hf : ∀ a, Quiet (f a)) :
    Quiet (x >>= f) := by
  obtain ⟨log, r⟩ := x
  cases r with
  | error e => exact hx
  | ok a =>
    have happend : (log ++ (f a).log).filter LogLine.isWarning = [] := by
      rw [List.filter_append, hx, hf a, List.nil_append]
    exact happend

end Noted

namespace Collector

open Noted (Quiet quiet_pure quiet_lift quiet_fail)

variable {α β : Type} {c c' : Collector} {v : Visit} {f : Fault}

theorem quiet_stage (c : Collector) (text : String) : Quiet (c.stage text) := rfl

theorem quiet_stageSecond (c : Collector) (t : Tree) (line : String → String) :
    Quiet (do let second ← .lift (childText t 1); c.stage (line second)) :=
  (quiet_lift _).bind fun _ => quiet_stage _ _

theorem quiet_implementsPart (c : Collector) (t : Tree) : Quiet (c.implementsPart t) :=
  (quiet_stage _ _).bind fun _ => quiet_pure _

theorem quiet_headParts (c : Collector) (t : Tree) (second : String) :
    Quiet (c.headParts t second) := by
  unfold headParts
  split
  · exact (quiet_lift _).bind fun _ => (quiet_lift _).bind fun _ =>
      (quiet_implementsPart _ _).bind fun _ => quiet_pure _
  · refine (quiet_lift _).bind fun _ => ?_
    split
    · exact (quiet_lift _).bind fun _ => (quiet_implementsPart _ _).bind fun _ => quiet_pure _
    · exact (quiet_lift _).bind fun _ => quiet_pure _
    · exact quiet_pure _
  · exact quiet_pure _
  · exact (quiet_lift _).bind fun _ => quiet_pure _
  · exact quiet_pure _

theorem quiet_classHead (c : Collector) (t : Tree) : Quiet (c.classHead t) := by
  refine (quiet_lift _).bind fun _ => (quiet_stage _ _).bind fun _ =>
    (quiet_headParts _ _ _).bind fun _ => ?_
  split
  · exact quiet_fail _
  · exact quiet_pure _

theorem quiet_parametersPart (c : Collector) (t : Tree) : Quiet (c.parametersPart t) := by
  refine (quiet_stage _ _).bind fun _ => ?_
  split
  · exact quiet_lift _
  · exact quiet_pure _

theorem quiet_methodPart (c : Collector) (t : Tree) (around : List Tree) (name : String) :
    Quiet (c.methodPart t around name) := by
  refine (quiet_lift _).bind fun _ => ?_
  split
  · exact quiet_fail _
  · exact (quiet_lift _).bind fun _ => (quiet_parametersPart _ _).bind fun _ => quiet_pure _

/-! ## Work -/

/-- The warnings of some work. -/
def warned (x : Work α) (c : Collector) : List LogLine := (x c).1.log.filter LogLine.isWarning

open Work

theorem warned_bind (x : Work α) (g : α → Work β) (c : Collector) :
    warned (x >>= g) c = warned x c ++ match ends x c with
      | (.ok a, c') => warned (g a) c'
      | (.error _, _) => [] := by
  simp only [warned, ends, bind, Work.bind]
  rcases x c with ⟨⟨log, r⟩, d⟩
  cases r with
  | error e => simp
  | ok a => simp

/-- Reading notes no warning, so what is left are those of what comes after it. -/
theorem warned_look {g : Collector → Noted Fault α} {h : α → Work β} (hg : Quiet (g c)) :
    warned (look g >>= h) c = match (g c).result with
      | .ok a => warned (h a) c
      | .error _ => [] := by
  have hquiet : warned (look g) c = [] := hg
  rw [warned_bind, hquiet, List.nil_append]
  simp only [ends, look]
  cases (g c).result <;> rfl

/-- Work that notes no warning, whatever the collector is. -/
def Silent (x : Work α) : Prop := ∀ c, warned x c = []

theorem silent_look {g : Collector → Noted Fault α} (hg : ∀ c, Quiet (g c)) : Silent (look g) := hg

theorem silent_change (g : Collector → Collector) : Silent (change g) := fun _ => rfl

theorem silent_pure (a : α) : Silent (pure a) := fun _ => rfl

theorem Silent.bind {x : Work α} {g : α → Work β} (hx : Silent x) (hg : ∀ a, Silent (g a)) :
    Silent (x >>= g) := by
  intro c
  rw [warned_bind, hx c, List.nil_append]
  split
  · exact hg _ _
  · rfl

theorem silent_enterClass (t : Tree) : Silent (enterClass t) :=
  (silent_look fun _ => quiet_stageSecond _ _ _).bind fun _ =>
    (silent_look fun _ => quiet_classHead _ _).bind fun _ =>
    (silent_change _).bind fun _ => (silent_change _).bind fun _ =>
    (silent_look fun _ => quiet_lift _).bind fun _ => silent_change _

theorem silent_exitClass (t : Tree) : Silent (exitClass t) :=
  (silent_look fun _ => quiet_stageSecond _ _ _).bind fun _ =>
    (silent_look fun _ => quiet_lift _).bind fun _ =>
    (silent_change _).bind fun _ => silent_change _

theorem silent_enterField (t : Tree) (around : List Tree) : Silent (enterField t around) := by
  refine (silent_look fun _ => quiet_stage _ _).bind fun _ => ?_
  split
  · exact silent_look fun _ => quiet_fail _
  · refine (silent_look fun _ => quiet_classHead _ _).bind fun _ =>
      (silent_look fun _ => quiet_lift _).bind fun _ => ?_
    split
    · exact silent_look fun _ => quiet_fail _
    · exact (silent_look fun _ => quiet_lift _).bind fun _ =>
        (silent_look fun _ => quiet_lift _).bind fun _ =>
        (silent_look fun _ => quiet_lift _).bind fun _ => silent_change _

theorem silent_exitMethod (t : Tree) : Silent (exitMethod t) :=
  (silent_look fun _ => quiet_stageSecond _ _ _).bind fun _ => silent_change _

theorem silent_enterCall (t : Tree) : Silent (enterCall t) := by
  refine (silent_look fun _ => quiet_stage _ _).bind fun _ =>
    (silent_look fun _ => quiet_lift _).bind fun _ =>
    (silent_look fun _ => quiet_pure _).bind fun m => ?_
  cases m with
  | none => exact (silent_look fun _ => quiet_lift _).bind fun _ => silent_change _
  | some m => exact silent_change _

/-! ## Methods -/

/-- What is noted about a second method of a name. -/
def overloadWarning (name : String) : LogLine :=
  ⟨.warning, name ++ " is a overloading, ignore it in this version."⟩

/-- The warnings about a method of a name. -/
def methodWarnings (c : Collector) (t : Tree) : List LogLine :=
  match childText t 1, c.innermost with
  | .ok name, .ok j => if (c.entry j).methods.has name then [overloadWarning name] else []
  | _, _ => []

theorem warned_enterMethod (t : Tree) (around : List Tree) (c : Collector) :
    warned (enterMethod t around) c = c.methodWarnings t := by
  unfold enterMethod methodWarnings
  rw [warned_look (quiet_lift _)]
  cases hname : childText t 1 with
  | error e => simp
  | ok name =>
    simp only [Noted.result_lift]
    rw [warned_look (quiet_stage _ _), warned_look (quiet_lift _)]
    cases hj : c.innermost with
    | error e => simp [stage]
    | ok j =>
      simp only [stage, Noted.result_note, Noted.result_lift, Noted.ok_bind, Noted.pure_eq_ok]
      split
      · rfl
      · have hrest : Silent (do
            let m ← look fun c => c.methodPart t around name
            let i ← look fun d => .lift (d.classNamed (c.entry j).name)
            change fun c => c.onClass i fun e => { e with methods := e.methods.put name m }
            let i ← look fun d => .lift (d.classNamed (c.entry j).name)
            change fun c => { c with method := some ⟨i, name⟩ }) :=
          (silent_look fun _ => quiet_methodPart _ _ _ _).bind fun _ =>
            (silent_look fun _ => quiet_lift _).bind fun _ => (silent_change _).bind fun _ =>
            (silent_look fun _ => quiet_lift _).bind fun _ => silent_change _
        exact hrest c

/-! ## Visits and walks -/

/-- The warnings of a visit. -/
def warningsOf (c : Collector) : Visit → List LogLine
  | .enter t _ => if t.rule? = some .methodDeclaration then c.methodWarnings t else []
  | _ => []

/-- A visit warns of a method whose name is known in its class and of nothing else. -/
theorem warned_visit (v : Visit) (c : Collector) : warned (visit v) c = c.warningsOf v := by
  cases v with
  | leaf t => rfl
  | enter t around =>
    simp only [visit, warningsOf]
    split
    · rename_i hr
      rw [if_neg (by simp [hr])]
      exact (silent_look fun _ => quiet_stage _ _).bind (fun _ =>
        (silent_look fun _ => quiet_lift _).bind fun _ => silent_change _) c
    · rename_i hr
      rw [if_neg (by simp [hr])]
      exact (silent_look fun _ => quiet_stage _ _).bind (fun _ =>
        (silent_look fun _ => quiet_lift _).bind fun _ => silent_change _) c
    · rename_i hr
      rw [if_neg (by simp [hr])]
      exact silent_enterClass t c
    · rename_i hr
      rw [if_neg (by simp [hr])]
      exact silent_enterField t around c
    · rename_i hr
      rw [if_pos hr]
      exact warned_enterMethod t around c
    · rename_i hr
      rw [if_neg (by simp [hr])]
      exact silent_enterCall t c
    · rename_i hr
      rw [if_neg (by simp [hr])]
      exact (silent_look fun _ => quiet_stage _ _).bind (fun _ => silent_enterClass t) c
    · rename_i hr _ _
      rw [if_neg hr]
      exact silent_pure () c
  | exit t around =>
    simp only [visit, warningsOf]
    split
    · exact silent_look (fun _ => quiet_stage _ _) c
    · exact silent_exitClass t c
    · exact silent_exitMethod t c
    · exact (silent_look fun _ => quiet_stage _ _).bind (fun _ => silent_exitClass t) c
    · exact silent_pure () c

/-- The warnings of a walk. -/
def Walked.warnings (w : Walked) : List LogLine := w.log.filter LogLine.isWarning

/-- What a visit comes to, with what it notes. -/
theorem visit_eq (v : Visit) (c : Collector) : ∃ log, log.filter LogLine.isWarning = c.warningsOf v ∧
    visit v c = match c.outcome v with
      | .ok c' => (⟨log, .ok ()⟩, c')
      | .error f => (⟨log, .error f⟩, c) := by
  have he := ends_visit v c
  have hw := warned_visit v c
  rw [warned] at hw
  rcases hv : visit v c with ⟨⟨log, r⟩, d⟩
  rw [hv] at hw
  refine ⟨log, hw, ?_⟩
  simp only [ends, hv] at he
  cases ho : c.outcome v with
  | ok c' =>
    rw [ho] at he
    obtain ⟨rfl, rfl⟩ := Prod.mk.inj he
    rfl
  | error f =>
    rw [ho] at he
    obtain ⟨rfl, rfl⟩ := Prod.mk.inj he
    rfl

theorem warnings_follow_ok (h : c.outcome v = .ok c') (vs : List Visit) :
    (c.follow (v :: vs)).warnings = c.warningsOf v ++ (c'.follow vs).warnings := by
  obtain ⟨log, hlog, hv⟩ := visit_eq v c
  rw [h] at hv
  rw [follow, hv, ← hlog]
  exact List.filter_append _ _

theorem warnings_follow_error (h : c.outcome v = .error f) (vs : List Visit) :
    (c.follow (v :: vs)).warnings = c.warningsOf v := by
  obtain ⟨log, hlog, hv⟩ := visit_eq v c
  rw [h] at hv
  rw [follow, hv]
  exact hlog

theorem warnings_follow_append {c'' : Collector} {us : List Visit} (h : Passes c us c'')
    (vs : List Visit) :
    (c.follow (us ++ vs)).warnings = (c.follow us).warnings ++ (c''.follow vs).warnings := by
  induction us generalizing c with
  | nil =>
    rw [passes_nil] at h
    subst h
    rfl
  | cons u us ih =>
    obtain ⟨d, hd, hu⟩ := passes_cons.mp h
    rw [List.cons_append, warnings_follow_ok hd, warnings_follow_ok hd, ih hu, List.append_assoc]

end Collector

end Callscope
