import Callscope.Outline.Collector
import Callscope.Proofs.Outline.Table

/-!
# What a visit does

`outcome` says in one expression what a visit makes of a collector, or which fault it ends with. The
work of a visit changes the collector in several places one after the other, with checks in between;
`ends_visit` shows that it is all or nothing all the same. From there on a walk is a chain of outcomes,
and what holds along every chain is shown one visit at a time.
-/

namespace Callscope

namespace Noted

variable {ε α β : Type}

@[simp] theorem ok_bind (a : α) (f : α → Except ε β) : (Except.ok a >>= f) = f a := rfl

@[simp] theorem error_bind (e : ε) (f : α → Except ε β) : (Except.error e >>= f) = .error e := rfl

@[simp] theorem pure_eq_ok (a : α) : (pure a : Except ε α) = .ok a := rfl

/-- A computation with a result comes from one with a result. -/
theorem bind_eq_ok {r : Except ε α} {f : α → Except ε β} {b : β} :
    (r >>= f) = .ok b ↔ ∃ a, r = .ok a ∧ f a = .ok b := by
  cases r with
  | error e => simp
  | ok a => simp

@[simp] theorem result_pure (a : α) : (pure a : Noted ε α).result = .ok a := rfl

@[simp] theorem result_lift (r : Except ε α) : (lift r).result = r := rfl

@[simp] theorem result_note (level : LogLevel) (message : String) :
    (note level message : Noted ε Unit).result = .ok () := rfl

@[simp] theorem result_bind (x : Noted ε α) (f : α → Noted ε β) :
    (x >>= f).result = x.result >>= fun a => (f a).result := by
  obtain ⟨log, r⟩ := x
  cases r <;> rfl

end Noted

namespace Collector

open Work

theorem everyOther_map {α β : Type} (f : α → β) (l : List α) :
    everyOther (l.map f) = (everyOther l).map f := by
  fun_induction everyOther l with
  | case1 => rfl
  | case2 a => rfl
  | case3 a b as ih => simp only [List.map_cons, everyOther, ih]

/-- The collector with one more class open. -/
def opening (c : Collector) (head : ClassHead) : Collector :=
  { c.declare head with depth := c.depth + 1, opened := c.opened.put (c.depth + 1) c.pool.length }

/-- The collector with the innermost class closed. -/
def closing (c : Collector) : Collector :=
  { c with opened := c.opened.erase c.depth, depth := c.depth - 1 }

/-- The collector with a field added to a class. -/
def withField (c : Collector) (i : Nat) (field : Field) : Collector :=
  c.onClass i fun e => { e with fields := e.fields ++ [field] }

/-- The collector with a method put into a class, inside of that method. -/
def inMethod (c : Collector) (i : Nat) (name : String) (m : Method) : Collector :=
  { c.onClass i (fun e => { e with methods := e.methods.put name m }) with
    method := some ⟨i, name⟩ }

/-- The collector with a call added to a class. -/
def withClassCall (c : Collector) (i : Nat) (call : Call) : Collector :=
  c.onClass i fun e => { e with calls := e.calls ++ [call] }

/-- The collector with a call added to a method. -/
def withMethodCall (c : Collector) (m : MethodRef) (call : Call) : Collector :=
  c.onClass m.owner fun e =>
    { e with methods := e.methods.modify m.name fun m => { m with calls := m.calls ++ [call] } }

/-- The call that a phrase stands for, by the text of the name. -/
def callOf (t : Tree) (value : String) : Call :=
  ⟨value, (firstToken t).line, (firstToken t).column⟩

/-! ## The outcome of a visit -/

def fieldOutcome (c : Collector) (t : Tree) (around : List Tree) : Except Fault Collector :=
  match around[3]? with
  | none => .error .noPart
  | some owner => do
    let head ← (c.classHead owner).result
    let j ← c.innermost
    if head.name ≠ (c.entry j).name then .error (.otherClassName head.name (c.entry j).name)
    else do
      let i ← c.classNamed (c.entry j).name
      let type ← childText t 0
      let define ← childText t 1
      return c.withField i ⟨type, define⟩

def methodOutcome (c : Collector) (t : Tree) (around : List Tree) : Except Fault Collector := do
  let name ← childText t 1
  let j ← c.innermost
  if (c.entry j).methods.has name then return c
  else do
    let m ← (c.methodPart t around name).result
    let i ← c.classNamed (c.entry j).name
    return c.inMethod i name m

def callOutcome (c : Collector) (t : Tree) : Except Fault Collector := do
  let value ← childText t 0
  match c.method with
  | none => do
    let j ← c.innermost
    let i ← c.classNamed (c.entry j).name
    return c.withClassCall i (callOf t value)
  | some m => return c.withMethodCall m (callOf t value)

/-- What a visit makes of a collector. -/
def outcome (c : Collector) : Visit → Except Fault Collector
  | .enter t around =>
    match t.rule? with
    | some .packageDeclaration => do
      return { c with package := ← phraseText .qualifiedName t }
    | some .importDeclaration => do
      return { c with imports := c.imports ++ [← phraseText .qualifiedName t] }
    | some .classDeclaration | some .enumDeclaration => do
      return c.opening (← (c.classHead t).result)
    | some .fieldDeclaration => c.fieldOutcome t around
    | some .methodDeclaration => c.methodOutcome t around
    | some .methodCall => c.callOutcome t
    | _ => .ok c
  | .exit t _ =>
    match t.rule? with
    | some .classDeclaration | some .enumDeclaration => do
      let _ ← childText t 1
      let _ ← c.innermost
      return c.closing
    | some .methodDeclaration => do
      let _ ← childText t 1
      return { c with method := none }
    | _ => .ok c
  | .leaf _ => .ok c

/-! ## Work is all or nothing -/

/-- The result of work and the collector it leaves behind. -/
def ends {α : Type} (x : Work α) (c : Collector) : Except Fault α × Collector :=
  ((x c).1.result, (x c).2)

/-- All or nothing: a fault leaves the collector as it was. -/
def settle (c : Collector) : Except Fault Collector → Except Fault Unit × Collector
  | .ok c' => (.ok (), c')
  | .error f => (.error f, c)

section Ends

variable {α β : Type} {c : Collector}

theorem ends_bind (x : Work α) (f : α → Work β) (c : Collector) :
    ends (x >>= f) c = match ends x c with
      | (.ok a, c') => ends (f a) c'
      | (.error e, c') => (.error e, c') := by
  simp only [ends, bind, Work.bind]
  rcases x c with ⟨⟨log, r⟩, c'⟩
  cases r <;> rfl

theorem ends_change (f : Collector → Collector) (g : Unit → Work β) :
    ends (change f >>= g) c = ends (g ()) (f c) := by
  rw [ends_bind]
  rfl

theorem ends_look_ok {f : Collector → Noted Fault α} {g : α → Work β} {a : α}
    (h : (f c).result = .ok a) : ends (look f >>= g) c = ends (g a) c := by
  rw [ends_bind]
  simp only [ends, look, h]

/-- Reading first and then settling is settling with what was read. -/
theorem ends_look {f : Collector → Noted Fault α} {g : α → Work Unit}
    {h : α → Except Fault Collector}
    (hg : ∀ a, (f c).result = .ok a → ends (g a) c = settle c (h a)) :
    ends (look f >>= g) c = settle c ((f c).result >>= h) := by
  rw [ends_bind]
  simp only [ends, look]
  cases hr : (f c).result with
  | error e => rfl
  | ok a => exact hg a hr

end Ends

theorem classNamed_declare (c : Collector) (head : ClassHead) :
    (c.declare head).classNamed head.name = .ok c.pool.length := by
  simp only [classNamed, declare]
  rw [Table.get?_put, if_pos rfl]

theorem result_classHead (c : Collector) (t : Tree) :
    (c.classHead t).result = do
      let second ← childText t 1
      let head ← (c.headParts t second).result
      if head.name = "" then .error .noClassName else return head := by
  simp only [classHead, stage, Noted.result_bind, Noted.result_lift, Noted.result_note,
    Noted.ok_bind]
  congr 1
  funext second
  congr 1
  funext head
  split <;> rfl

/-- The first line that a visit notes has the second child in it. -/
theorem result_stageSecond (c : Collector) (t : Tree) (line : String → String) :
    (do let second ← .lift (childText t 1); c.stage (line second) : Noted Fault Unit).result =
      (childText t 1).map fun _ => () := by
  cases h : childText t 1 <;> simp [stage, Except.map]

theorem ends_enterClass (t : Tree) (c : Collector) :
    ends (enterClass t) c = settle c (return c.opening (← (c.classHead t).result)) := by
  unfold enterClass
  cases h : childText t 1 with
  | error e =>
    have hh : (c.classHead t).result = .error e := by rw [result_classHead, h]; rfl
    rw [hh, ends_look (h := fun _ => .error e)]
    · simp
    · intro _ ha
      simp at ha
  | ok second =>
    rw [ends_look_ok (a := ()) (by simp [stage])]
    refine ends_look fun head _ => ?_
    rw [ends_change, ends_change, ends_look_ok (a := c.pool.length) (classNamed_declare _ _)]
    rfl

theorem ends_exitClass (t : Tree) (c : Collector) :
    ends (exitClass t) c = settle c (do
      let _ ← childText t 1
      let _ ← c.innermost
      return c.closing) := by
  unfold exitClass
  rw [ends_look (h := fun _ => do let _ ← c.innermost; return c.closing)]
  · rw [result_stageSecond]
    cases childText t 1 <;> rfl
  · intro _ _
    exact ends_look fun i _ => rfl

theorem ends_enterField (t : Tree) (around : List Tree) (c : Collector) :
    ends (enterField t around) c = settle c (c.fieldOutcome t around) := by
  unfold enterField fieldOutcome
  rw [ends_look_ok (a := ()) (by simp [stage])]
  cases around[3]? with
  | none => rfl
  | some owner =>
    refine ends_look fun head _ => ?_
    cases hi : c.innermost with
    | error e =>
      rw [ends_look (h := fun _ => .error e)]
      · simp [hi]
      · intro a ha
        simp [hi] at ha
    | ok i =>
      rw [ends_look_ok (a := (c.entry i).name) (by simp [hi])]
      simp only [Noted.ok_bind]
      split
      · rfl
      · refine ends_look fun j _ => ends_look fun type _ => ends_look fun define _ => rfl

theorem ends_enterMethod (t : Tree) (around : List Tree) (c : Collector) :
    ends (enterMethod t around) c = settle c (c.methodOutcome t around) := by
  unfold enterMethod methodOutcome
  refine ends_look fun name _ => ?_
  rw [ends_look_ok (a := ()) (by simp [stage])]
  cases hi : c.innermost with
  | error e =>
    rw [ends_look (h := fun _ => .error e)]
    · simp [hi]
    · intro a ha
      simp [hi] at ha
  | ok i =>
    rw [ends_look_ok (a := c.entry i) (by simp [hi])]
    simp only [Noted.ok_bind]
    split
    · rfl
    · refine ends_look fun m _ => ends_look fun j hj => ?_
      -- The name of the class is looked up a second time, after the method was put in.
      rw [ends_change, ends_look_ok (a := j) hj]
      rfl

theorem ends_exitMethod (t : Tree) (c : Collector) :
    ends (exitMethod t) c = settle c (do
      let _ ← childText t 1
      return { c with method := none }) := by
  unfold exitMethod
  rw [ends_look (h := fun _ => .ok { c with method := none })]
  · rw [result_stageSecond]
    cases childText t 1 <;> rfl
  · intro _ _
    rfl

theorem ends_enterCall (t : Tree) (c : Collector) :
    ends (enterCall t) c = settle c (c.callOutcome t) := by
  unfold enterCall callOutcome
  rw [ends_look_ok (a := ()) (by simp [stage])]
  refine ends_look fun value _ => ?_
  rw [ends_look_ok (a := c.method) rfl]
  cases c.method with
  | some m => rfl
  | none =>
    cases hi : c.innermost with
    | error e =>
      rw [ends_look (h := fun _ => .error e)]
      · simp [hi]
      · intro a ha
        simp [hi] at ha
    | ok i =>
      rw [ends_look (h := fun j => .ok (c.withClassCall j (callOf t value)))]
      · simp [hi]
      · intro _ _
        rfl

/-- A visit either does all of its work or ends with a fault and changes nothing. -/
theorem ends_visit (v : Visit) (c : Collector) : ends (visit v) c = settle c (c.outcome v) := by
  cases v with
  | leaf t => rfl
  | enter t around =>
    simp only [visit, outcome]
    split
    · rename_i h
      simp only [h]
      rw [enterPackage, ends_look_ok (a := ()) (by simp [stage])]
      exact ends_look fun name _ => rfl
    · rename_i h
      simp only [h]
      rw [enterImport, ends_look_ok (a := ()) (by simp [stage])]
      exact ends_look fun name _ => rfl
    · rename_i h
      simp only [h]
      exact ends_enterClass t c
    · rename_i h
      simp only [h]
      exact ends_enterField t around c
    · rename_i h
      simp only [h]
      exact ends_enterMethod t around c
    · rename_i h
      simp only [h]
      exact ends_enterCall t c
    · rename_i h
      simp only [h]
      rw [ends_look_ok (a := ()) (by simp [stage])]
      exact ends_enterClass t c
    · split <;> first | contradiction | rfl
  | exit t around =>
    simp only [visit, outcome]
    split
    · rename_i h
      simp only [h]
      rfl
    · rename_i h
      simp only [h]
      exact ends_exitClass t c
    · rename_i h
      simp only [h]
      exact ends_exitMethod t c
    · rename_i h
      simp only [h]
      rw [ends_look_ok (a := ()) (by simp [stage])]
      exact ends_exitClass t c
    · split <;> first | contradiction | rfl

end Collector

end Callscope
