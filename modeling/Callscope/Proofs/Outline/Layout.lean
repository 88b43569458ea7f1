import Callscope.Outline.Dot
import Callscope.Proofs.Outline.Warnings
import Callscope.Proofs.Parse.Relocation

/-!
# Layout does not matter

A collector copies lines and columns into its outline and never asks for them. So collecting commutes
with erasing all places, one visit at a time and hence for a whole walk. Two texts with the same visible
tokens have the same tree but for places, and `layout_insensitive` draws the conclusion: their graphs,
warnings and faults are the same, and so are their outlines but for lines and columns.
-/

namespace Callscope

/-! ## Without places -/

/-- The token at no place. -/
def Token.unplaced (t : Token) : Token := { t with place := ⟨0, 0, 0⟩, index := 0 }

namespace Tree

/-- The tree with all its tokens at no place. -/
def unplaced (t : Tree) : Tree := t.mapTokens Token.unplaced

@[simp] theorem text_unplaced (t : Tree) : t.unplaced.text = t.text :=
  text_mapTokens (g := Token.unplaced) (fun _ => rfl) t

/-- Where tokens are moved to does not show without places. -/
theorem unplaced_relocate (f : Relocation) (t : Tree) : (t.relocate f).unplaced = t.unplaced :=
  mapTokens_mapTokens Token.unplaced t

theorem unplaced_node (r : Rule) (first : Token) (last : Option Token)
    (labels : List (Label × String)) (children : List Tree) :
    (node r first last labels children).unplaced =
      node r first.unplaced (last.map Token.unplaced) labels (children.map unplaced) :=
  mapTokens_node r first last labels children

theorem unplaced_leaf {t : Tree} (h : t.rule? = none) : t.unplaced.rule? = none := by
  cases t with
  | node => cases h
  | token | skipped | missing => simp [unplaced, mapTokens, rule?]

@[simp] theorem children_unplaced (t : Tree) : t.unplaced.children = t.children.map unplaced := by
  cases t with
  | node => rw [unplaced_node]; rfl
  | token | skipped | missing => simp [unplaced, mapTokens, children]

@[simp] theorem rule?_unplaced (t : Tree) : t.unplaced.rule? = t.rule? := by
  cases t with
  | node => rw [unplaced_node]; rfl
  | token | skipped | missing => exact unplaced_leaf rfl

end Tree

def Call.unplaced (c : Call) : Call := { c with line := 0, column := 0 }

def Method.unplaced (m : Method) : Method :=
  { m with start := 0, stop := 0, calls := m.calls.map Call.unplaced }

def ClassEntry.unplaced (e : ClassEntry) : ClassEntry :=
  { e with methods := e.methods.mapValues Method.unplaced, calls := e.calls.map Call.unplaced }

/-- The outline with all lines and columns erased. -/
def Outline.unplaced (o : Outline) : Outline :=
  { o with classes := o.classes.mapValues ClassEntry.unplaced }

def Visit.unplaced : Visit → Visit
  | enter t around => enter t.unplaced (around.map Tree.unplaced)
  | exit t around => exit t.unplaced (around.map Tree.unplaced)
  | leaf t => leaf t.unplaced

namespace Outline

theorem dotMethod_unplaced (owner key : String) (m : Method) :
    dotMethod owner key m.unplaced = dotMethod owner key m := by
  simp [dotMethod, Method.unplaced, Call.unplaced]

theorem dotClass_unplaced (key : String) (e : ClassEntry) :
    dotClass key e.unplaced = dotClass key e := by
  simp [dotClass, ClassEntry.unplaced, Table.mapValues, List.flatMap_map, dotMethod_unplaced,
    Call.unplaced]

/-- A graph has no places in it. -/
theorem dot_unplaced (o : Outline) : o.unplaced.dot = o.dot := by
  simp [dot, dotLines, Outline.unplaced, Table.mapValues, List.flatMap_map, dotClass_unplaced]

end Outline

namespace Tree

theorem visits_unplaced (t : Tree) : ∀ around : List Tree,
    t.unplaced.visits (around.map unplaced) = (t.visits around).map Visit.unplaced := by
  induction t using Collector.forest_induction (Q := fun ts => ∀ around : List Tree,
    visitsAll (around.map unplaced) (ts.map unplaced) =
      (visitsAll around ts).map Visit.unplaced) with
  | hleaf t ht =>
    intro around
    rw [Collector.visits_leaf ht, Collector.visits_leaf (unplaced_leaf ht)]
    rfl
  | hnode r first last labels children ih =>
    intro around
    have hself := ih (node r first last labels children :: around)
    rw [List.map_cons] at hself
    rw [Collector.visits_node, List.map_cons, List.map_append, ← hself]
    simp only [unplaced_node, Collector.visits_node, List.map_cons, List.map_nil, Visit.unplaced]
  | hnil around =>
    rw [List.map_nil, Collector.visitsAll_nil, Collector.visitsAll_nil, List.map_nil]
  | hcons t ts iht ihts around =>
    rw [List.map_cons, Collector.visitsAll_cons, Collector.visitsAll_cons, List.map_append, iht,
      ihts]

theorem walk_unplaced (t : Tree) : t.unplaced.walk = t.walk.map Visit.unplaced :=
  visits_unplaced t []

end Tree

namespace Collector

/-! ## Parts of a declaration -/

theorem child?_unplaced (t : Tree) (i : Nat) :
    child? t.unplaced i = (child? t i).map (Option.map Tree.unplaced) := by
  cases t with
  | node r first last labels children =>
    rw [Tree.unplaced_node]
    cases children with
    | nil => rfl
    | cons u us =>
      rw [List.map_cons]
      simp only [child?, Tree.children, ← List.map_cons, List.getElem?_map]
      rfl
  | token | skipped | missing => simp [Tree.unplaced, Tree.mapTokens, child?, Tree.children, Except.map]

theorem child_unplaced (t : Tree) (i : Nat) :
    child t.unplaced i = (child t i).map Tree.unplaced := by
  rw [child, child, child?_unplaced]
  cases child? t i with
  | error e => rfl
  | ok u => cases u <;> rfl

theorem child_bind_unplaced {α : Type} (t : Tree) (i : Nat) (g : Tree → Except Fault α) :
    (child t.unplaced i >>= g) = child t i >>= fun u => g u.unplaced := by
  rw [child_unplaced]
  cases child t i <;> rfl

theorem childText_unplaced (t : Tree) (i : Nat) : childText t.unplaced i = childText t i := by
  rw [childText, childText, child_unplaced]
  cases child t i with
  | error e => rfl
  | ok u => exact congrArg Except.ok (Tree.text_unplaced u)

theorem phraseText_unplaced (r : Rule) (t : Tree) : phraseText r t.unplaced = phraseText r t := by
  have hfind : (t.children.map Tree.unplaced).find? (fun c => c.rule? = some r) =
      (t.children.find? fun c => c.rule? = some r).map Tree.unplaced := by
    rw [List.find?_map]
    congr 2
    funext c
    simp
  rw [phraseText, phraseText, Tree.children_unplaced, hfind]
  cases t.children.find? fun c => c.rule? = some r <;> simp

/-! ## Collectors -/

/-- The collector with all lines and columns erased. -/
def unplaced (c : Collector) : Collector := { c with pool := c.pool.map ClassEntry.unplaced }

section Unplaced

variable (c : Collector) (t : Tree)

theorem entry_unplaced (i : Nat) : c.unplaced.entry i = (c.entry i).unplaced := by
  simp only [entry, unplaced, List.getD_eq_getElem?_getD, List.getElem?_map]
  cases c.pool[i]? <;> rfl

theorem outline_unplaced : c.unplaced.outline = c.outline.unplaced := by
  simp only [outline, Outline.unplaced, Table.mapValues, List.map_map, Function.comp_def,
    entry_unplaced]
  rfl

theorem innermost_unplaced : c.unplaced.innermost = c.innermost := rfl

theorem classNamed_unplaced (name : String) : c.unplaced.classNamed name = c.classNamed name := rfl

theorem implementsPart_unplaced :
    (c.unplaced.implementsPart t.unplaced).result = (c.implementsPart t).result := by
  simp only [implementsPart, stage, Noted.result_bind, Noted.result_note, Noted.result_pure,
    Noted.ok_bind, Tree.children_unplaced, everyOther_map, List.map_map, Function.comp_def,
    Tree.text_unplaced]

theorem headParts_unplaced (second : String) :
    (c.unplaced.headParts t.unplaced second).result = (c.headParts t second).result := by
  unfold headParts
  rw [Tree.children_unplaced, List.length_map]
  split
  · simp only [Noted.result_bind, Noted.result_lift, Noted.result_pure, child_bind_unplaced,
      childText_unplaced, implementsPart_unplaced]
  · simp only [Noted.result_bind, Noted.result_lift, childText_unplaced]
    congr 1
    funext third
    split
    · simp only [Noted.result_bind, Noted.result_lift, Noted.result_pure, child_bind_unplaced,
        implementsPart_unplaced]
    · simp only [Noted.result_bind, Noted.result_lift, Noted.result_pure, child_bind_unplaced,
        childText_unplaced]
    · rfl
  · rfl
  · simp only [Noted.result_bind, Noted.result_lift, Noted.result_pure, innermost_unplaced,
      entry_unplaced]
    rfl
  · rfl

theorem classHead_unplaced : (c.unplaced.classHead t.unplaced).result = (c.classHead t).result := by
  simp only [result_classHead, childText_unplaced, headParts_unplaced]

theorem parametersPart_unplaced :
    (c.unplaced.parametersPart t.unplaced).result = (c.parametersPart t).result := by
  simp only [parametersPart, stage, Noted.result_bind, Noted.result_note, Noted.ok_bind,
    Tree.children_unplaced]
  rcases t.children with _ | ⟨opening, _ | ⟨list, _ | ⟨closing, _ | ⟨more, rest⟩⟩⟩⟩
  · rfl
  · rfl
  · rfl
  · simp only [List.map_cons, List.map_nil, Noted.result_lift, Tree.children_unplaced,
      everyOther_map, List.mapM_map, Function.comp_def, childText_unplaced]
  · rfl

/-- What is kept of a method but for its lines. -/
theorem methodPart_unplaced (around : List Tree) (name : String) :
    (c.unplaced.methodPart t.unplaced (around.map Tree.unplaced) name).result =
      (c.methodPart t around name).result.map Method.unplaced := by
  have hlast : lastToken? t.unplaced = (lastToken? t).map Token.unplaced := by
    cases t with
    | node => rw [Tree.unplaced_node]; rfl
    | token | skipped | missing => simp [Tree.unplaced, Tree.mapTokens, lastToken?]
  have hfirst : (firstToken t.unplaced).line = 0 := by
    cases t with
    | node => rw [Tree.unplaced_node]; rfl
    | token | skipped | missing => simp [Tree.unplaced, Tree.mapTokens, firstToken]; rfl
  simp only [methodPart, Noted.result_bind, Noted.result_lift, childText_unplaced, hlast, hfirst]
  cases childText t 0 with
  | error e => rfl
  | ok returnType =>
    simp only [Noted.ok_bind]
    cases lastToken? t with
    | none => rfl
    | some last =>
      simp only [Option.map_some, Noted.result_bind, Noted.result_lift, Noted.result_pure,
        child_bind_unplaced, parametersPart_unplaced, List.length_map]
      cases child t 2 with
      | error e => rfl
      | ok brackets =>
        simp only [Noted.ok_bind]
        cases (c.parametersPart brackets).result <;> rfl

/-! ## Changes of a collector -/

theorem onClass_unplaced (i : Nat) {f g : ClassEntry → ClassEntry}
    (h : ∀ e, (f e).unplaced = g e.unplaced) : (c.onClass i f).unplaced = c.unplaced.onClass i g := by
  have hpool : (c.pool.modify i f).map ClassEntry.unplaced =
      (c.pool.map ClassEntry.unplaced).modify i g := by
    apply List.ext_getElem?
    intro j
    simp only [List.getElem?_map, List.getElem?_modify]
    by_cases hij : i = j <;> cases c.pool[j]? <;> simp [hij, h]
  simp only [onClass, unplaced, hpool]

theorem opening_unplaced (head : ClassHead) :
    (c.opening head).unplaced = c.unplaced.opening head := by
  simp only [opening, declare, unplaced, List.map_append, List.length_map]
  rfl

theorem withField_unplaced (i : Nat) (field : Field) :
    (c.withField i field).unplaced = c.unplaced.withField i field :=
  onClass_unplaced c i fun _ => rfl

theorem inMethod_unplaced (i : Nat) (name : String) (m : Method) :
    (c.inMethod i name m).unplaced = c.unplaced.inMethod i name m.unplaced := by
  have hclass := onClass_unplaced c i (f := fun e => { e with methods := e.methods.put name m })
    (g := fun e => { e with methods := e.methods.put name m.unplaced })
    fun e => by simp only [ClassEntry.unplaced, Table.mapValues_put]
  rw [inMethod, inMethod, ← hclass]
  rfl

theorem withClassCall_unplaced (i : Nat) (call : Call) :
    (c.withClassCall i call).unplaced = c.unplaced.withClassCall i call.unplaced :=
  onClass_unplaced c i fun e => by simp [ClassEntry.unplaced]

theorem withMethodCall_unplaced (m : MethodRef) (call : Call) :
    (c.withMethodCall m call).unplaced = c.unplaced.withMethodCall m call.unplaced := by
  refine onClass_unplaced c m.owner fun e => ?_
  have hmethods := Table.mapValues_modify (f := Method.unplaced)
    (g := fun m => { m with calls := m.calls ++ [call] })
    (h := fun m => { m with calls := m.calls ++ [call.unplaced] })
    (fun m => by simp [Method.unplaced]) e.methods m.name
  simp only [ClassEntry.unplaced, hmethods]

theorem callOf_unplaced (value : String) : callOf t.unplaced value = (callOf t value).unplaced := by
  have hplace : (firstToken t.unplaced).place = ⟨0, 0, 0⟩ := by
    cases t with
    | node => rw [Tree.unplaced_node]; rfl
    | token | skipped | missing => simp [Tree.unplaced, Tree.mapTokens, firstToken]; rfl
  rw [callOf, Token.line, Token.column, hplace]
  rfl

/-! ## Visits and walks -/

theorem fieldOutcome_unplaced (around : List Tree) :
    c.unplaced.fieldOutcome t.unplaced (around.map Tree.unplaced) =
      (c.fieldOutcome t around).map unplaced := by
  simp only [fieldOutcome, List.getElem?_map, innermost_unplaced, childText_unplaced]
  cases around[3]? with
  | none => rfl
  | some owner =>
    simp only [Option.map_some, classHead_unplaced]
    cases (c.classHead owner).result with
    | error e => rfl
    | ok head =>
      cases c.innermost with
      | error e => rfl
      | ok j =>
        have hname : (c.unplaced.entry j).name = (c.entry j).name := by rw [entry_unplaced]; rfl
        simp only [Noted.ok_bind, hname, classNamed_unplaced]
        split
        · rfl
        · cases c.classNamed (c.entry j).name with
          | error e => rfl
          | ok i =>
            cases childText t 0 with
            | error e => rfl
            | ok type =>
              cases childText t 1 with
              | error e => rfl
              | ok define => exact congrArg Except.ok (withField_unplaced c i _).symm

theorem has_method_unplaced (j : Nat) (name : String) :
    (c.unplaced.entry j).methods.has name = (c.entry j).methods.has name := by
  rw [entry_unplaced]
  exact Table.has_mapValues _ _ _

theorem methodOutcome_unplaced (around : List Tree) :
    c.unplaced.methodOutcome t.unplaced (around.map Tree.unplaced) =
      (c.methodOutcome t around).map unplaced := by
  simp only [methodOutcome, childText_unplaced, innermost_unplaced]
  cases childText t 1 with
  | error e => rfl
  | ok name =>
    cases c.innermost with
    | error e => rfl
    | ok j =>
      have hname : (c.unplaced.entry j).name = (c.entry j).name := by rw [entry_unplaced]; rfl
      simp only [Noted.ok_bind, has_method_unplaced, hname, classNamed_unplaced,
        methodPart_unplaced]
      split
      · rfl
      · cases (c.methodPart t around name).result with
        | error e => rfl
        | ok m =>
          cases c.classNamed (c.entry j).name with
          | error e => rfl
          | ok i => exact congrArg Except.ok (inMethod_unplaced c i name m).symm

theorem callOutcome_unplaced :
    c.unplaced.callOutcome t.unplaced = (c.callOutcome t).map unplaced := by
  have hmethod : c.unplaced.method = c.method := rfl
  simp only [callOutcome, childText_unplaced, innermost_unplaced, hmethod, callOf_unplaced]
  cases childText t 0 with
  | error e => rfl
  | ok value =>
    cases c.method with
    | some m => exact congrArg Except.ok (withMethodCall_unplaced c m _).symm
    | none =>
      cases c.innermost with
      | error e => rfl
      | ok j =>
        have hname : (c.unplaced.entry j).name = (c.entry j).name := by rw [entry_unplaced]; rfl
        simp only [Noted.ok_bind, hname, classNamed_unplaced]
        cases c.classNamed (c.entry j).name with
        | error e => rfl
        | ok i => exact congrArg Except.ok (withClassCall_unplaced c i _).symm

/-- A visit does the same whether places are erased before it or after it. -/
theorem outcome_unplaced (v : Visit) : c.unplaced.outcome v.unplaced = (c.outcome v).map unplaced := by
  cases v with
  | leaf t => rfl
  | enter t around =>
    simp only [Visit.unplaced, outcome, Tree.rule?_unplaced, phraseText_unplaced,
      classHead_unplaced]
    split
    · cases phraseText .qualifiedName t <;> rfl
    · cases phraseText .qualifiedName t <;> rfl
    · cases (c.classHead t).result with
      | error e => rfl
      | ok head => exact congrArg Except.ok (opening_unplaced c head).symm
    · cases (c.classHead t).result with
      | error e => rfl
      | ok head => exact congrArg Except.ok (opening_unplaced c head).symm
    · exact fieldOutcome_unplaced c t around
    · exact methodOutcome_unplaced c t around
    · exact callOutcome_unplaced c t
    · rfl
  | exit t around =>
    simp only [Visit.unplaced, outcome, Tree.rule?_unplaced, childText_unplaced,
      innermost_unplaced]
    split
    · cases childText t 1 <;> cases c.innermost <;> rfl
    · cases childText t 1 <;> cases c.innermost <;> rfl
    · cases childText t 1 <;> rfl
    · rfl

theorem warningsOf_unplaced (v : Visit) : c.unplaced.warningsOf v.unplaced = c.warningsOf v := by
  cases v with
  | leaf t => rfl
  | exit t around => rfl
  | enter t around =>
    simp only [Visit.unplaced, warningsOf, methodWarnings, Tree.rule?_unplaced,
      childText_unplaced, innermost_unplaced, has_method_unplaced]

/-- A walk ends at the same visit, with the same fault and the same warnings. -/
theorem follow_unplaced (vs : List Visit) :
    (c.unplaced.follow (vs.map Visit.unplaced)).fault = (c.follow vs).fault ∧
    (c.unplaced.follow (vs.map Visit.unplaced)).warnings = (c.follow vs).warnings ∧
    (c.unplaced.follow (vs.map Visit.unplaced)).collector = (c.follow vs).collector.unplaced := by
  induction vs generalizing c with
  | nil => exact ⟨rfl, rfl, rfl⟩
  | cons v vs ih =>
    have hstep := outcome_unplaced c v
    rw [List.map_cons]
    cases h : c.outcome v with
    | error f =>
      rw [h] at hstep
      obtain ⟨log, hf⟩ := follow_cons_error h vs
      obtain ⟨log', hf'⟩ := follow_cons_error hstep (vs.map Visit.unplaced)
      rw [warnings_follow_error h, warnings_follow_error hstep, warningsOf_unplaced, hf, hf']
      exact ⟨rfl, rfl, rfl⟩
    | ok d =>
      rw [h] at hstep
      obtain ⟨log, hf⟩ := follow_cons_ok h vs
      obtain ⟨log', hf'⟩ := follow_cons_ok hstep (vs.map Visit.unplaced)
      obtain ⟨hfault, hwarnings, hcollector⟩ := ih d
      rw [warnings_follow_ok h, warnings_follow_ok hstep, warningsOf_unplaced, hwarnings, hf, hf']
      exact ⟨hfault, rfl, hcollector⟩

end Unplaced

/-! ## What collecting shows -/

/-- What collecting a tree shows of it, lines and columns aside. -/
structure Findings where
  dot : String
  warnings : List LogLine
  fault : Option Fault
  outline : Outline

def Walked.findings (w : Walked) : Findings :=
  { dot := w.collector.outline.dot, warnings := w.warnings, fault := w.fault
    outline := w.collector.outline.unplaced }

/-- They are those of the tree without places. -/
theorem findings_collect (t : Tree) : (collect {} t).findings =
    { dot := (collect {} t.unplaced).collector.outline.dot
      warnings := (collect {} t.unplaced).warnings
      fault := (collect {} t.unplaced).fault
      outline := (collect {} t.unplaced).collector.outline } := by
  obtain ⟨hfault, hwarnings, hcollector⟩ := follow_unplaced {} t.walk
  rw [← Tree.walk_unplaced] at hfault hwarnings hcollector
  have hfresh : ({} : Collector).unplaced = {} := rfl
  rw [hfresh] at hfault hwarnings hcollector
  rw [Walked.findings, collect, collect, hfault, hwarnings, hcollector, outline_unplaced,
    Outline.dot_unplaced]

theorem findings_relocate (f : Relocation) (t : Tree) :
    (collect {} (t.relocate f)).findings = (collect {} t).findings := by
  rw [findings_collect, findings_collect, Tree.unplaced_relocate]

/-- What a text shows is what the contents of its visible tokens show. -/
theorem findings_ofText? (text : String) (rule : Rule) (level : Nat) :
    (Parse.ofText? text rule level).map (fun p => (collect {} p.tree).findings) =
      (Parse.treeOf? rule level (Token.ranked ((Lexed.ofText text).visible.map Token.content))).map
        fun t => (collect {} t).findings := by
  obtain ⟨f, hf⟩ := Parse.tree_ofText? text rule level
  calc (Parse.ofText? text rule level).map (fun p => (collect {} p.tree).findings)
      = ((Parse.ofText? text rule level).map Parse.tree).map
          (fun t => (collect {} t).findings) := by rw [Option.map_map]; rfl
    _ = _ := by
        rw [hf, Option.map_map]
        congr 1
        funext t
        exact findings_relocate f t

/-- Two texts with the same visible tokens, whatever stands between these and with or without errors,
are both read or neither is, and then show the same: the same graph, the same warnings, the same fault
or none, and the same outline but for lines and columns. -/
theorem layout_insensitive (text₁ text₂ : String) (rule : Rule) (level : Nat)
    (h : (Lexed.ofText text₁).visible.map Token.content =
      (Lexed.ofText text₂).visible.map Token.content) :
    (Parse.ofText? text₁ rule level).map (fun p => (collect {} p.tree).findings) =
      (Parse.ofText? text₂ rule level).map fun p => (collect {} p.tree).findings := by
  rw [findings_ofText?, findings_ofText?, h]

/-- A class that is not closed, in one line and in three lines with a comment. -/
theorem layout_insensitive_comment :
    let narrow := "class A\x7bint x=f();"
    let wide := "class A \x7b\n  int x = // f\n    f ( ) ;"
    (Lexed.ofText narrow).visible.map Token.content =
      (Lexed.ofText wide).visible.map Token.content ∧
    (Parse.ofText? narrow .compilationUnit 0).map (fun p => (collect {} p.tree).findings) =
      (Parse.ofText? wide .compilationUnit 0).map fun p => (collect {} p.tree).findings := by
  intro narrow wide
  have hsame : (Lexed.ofText narrow).visible.map Token.content =
      (Lexed.ofText wide).visible.map Token.content := by decide +kernel
  exact ⟨hsame, layout_insensitive narrow wide .compilationUnit 0 hsame⟩

end Collector

end Callscope
