import Callscope.Outline.Dot
import Callscope.Proofs.Outline.Coherence

/-!
# One walk after another

A collector that comes from a walk without a fault is outside of all classes, and the next walk never
reads what is already there: every class that it asks for is one that it has opened itself. So the walk
goes as it would with a fresh collector. `above` puts what a fresh collector finds on top of what is
there; one visit commutes with it, and by induction every walk does.
-/

namespace Callscope

/-- Whether a visit is that of a package declaration. -/
def Visit.isPackage : Visit → Bool
  | .enter t _ => t.rule? = some .packageDeclaration
  | _ => false

namespace Collector

/-- The open classes with their contents. -/
def openClasses (c : Collector) : Table Int ClassEntry := c.opened.mapValues c.entry

/-- The method that calls belong to, with its class. -/
def openMethod (c : Collector) : Option (ClassEntry × String) :=
  c.method.map fun m => (c.entry m.owner, m.name)

/-- A collector on top of what was collected before it. Its package counts if it came across one. -/
def above (base : Collector) (packaged : Bool) (c : Collector) : Collector :=
  { package := if packaged then c.package else base.package
    imports := base.imports ++ c.imports
    pool := base.pool ++ c.pool
    classes := base.classes.merge (c.classes.mapValues (base.pool.length + ·))
    depth := c.depth
    opened := c.opened.mapValues (base.pool.length + ·)
    method := c.method.map fun m => ⟨base.pool.length + m.owner, m.name⟩ }

section Above

variable {base c : Collector} {packaged : Bool} {stack : List Nat} {t : Tree}

/-! ## What is read -/

theorem entry_above (packaged : Bool) (i : Nat) :
    (above base packaged c).entry (base.pool.length + i) = c.entry i := by
  simp only [entry, above, List.getD_eq_getElem?_getD]
  rw [List.getElem?_append_right (Nat.le_add_right _ _), Nat.add_sub_cancel_left]

theorem entry_above_of_lt {i : Nat} (h : i < base.pool.length) :
    (above base packaged c).entry i = base.entry i := by
  simp [entry, above, List.getD_eq_getElem?_getD, List.getElem?_append_left h]

theorem innermost_above :
    (above base packaged c).innermost = c.innermost.map (base.pool.length + ·) := by
  simp only [innermost, above, Table.get?_mapValues]
  cases c.opened.get? c.depth <;> rfl

theorem classNamed_above {name : String} {i : Nat} (h : c.classNamed name = .ok i) :
    (above base packaged c).classNamed name = .ok (base.pool.length + i) := by
  have hi : c.classes.get? name = some i := by
    rw [classNamed] at h
    split at h
    · rename_i j hj
      cases h
      exact hj
    · cases h
  simp [classNamed, above, Table.get?_merge, Table.get?_mapValues, hi]

theorem classHead_above : (above base packaged c).classHead t = c.classHead t := by
  have hparts : ∀ second, (above base packaged c).headParts t second = c.headParts t second := by
    intro second
    unfold headParts
    split
    · rfl
    · rfl
    · rfl
    · rw [innermost_above]
      cases c.innermost with
      | error e => rfl
      | ok i =>
        have hname : ((above base packaged c).entry (base.pool.length + i)).name =
            (c.entry i).name := by rw [entry_above]
        exact congrArg (fun name => (pure ⟨name, "", none⟩ : Noted Fault ClassHead)) hname
    · rfl
  simp only [classHead, hparts]
  rfl

/-! ## What is changed -/

theorem onClass_above (i : Nat) (f : ClassEntry → ClassEntry) :
    (above base packaged c).onClass (base.pool.length + i) f =
      above base packaged (c.onClass i f) := by
  have hpool : (base.pool ++ c.pool).modify (base.pool.length + i) f =
      base.pool ++ c.pool.modify i f := by
    apply List.ext_getElem?
    intro k
    rw [List.getElem?_modify]
    by_cases hk : k < base.pool.length
    · have hik : ¬ base.pool.length + i = k := by omega
      rw [List.getElem?_append_left hk, List.getElem?_append_left hk]
      simp [hik]
    · rw [List.getElem?_append_right (by omega), List.getElem?_append_right (by omega),
        List.getElem?_modify]
      have hki : base.pool.length + i = k ↔ i = k - base.pool.length := by omega
      simp [hki]
  simp only [onClass, above, hpool]

theorem opening_above (hbase : base.classes.keys.Nodup) (head : ClassHead) :
    (above base packaged c).opening head = above base packaged (c.opening head) := by
  simp only [opening, declare, above, Table.mapValues_put, Table.merge_put hbase,
    List.length_append, List.append_assoc]

theorem closing_above : (above base packaged c).closing = above base packaged c.closing := by
  simp only [closing, above, Table.mapValues_erase]

/-! ## One visit -/

theorem fieldOutcome_above (hc : Coherent c stack) (around : List Tree) :
    (above base packaged c).fieldOutcome t around =
      (c.fieldOutcome t around).map (above base packaged) := by
  unfold fieldOutcome
  split
  · rfl
  · rename_i owner _
    rw [classHead_above, innermost_above]
    cases (c.classHead owner).result with
    | error e => rfl
    | ok head =>
      cases hj : c.innermost with
      | error e => rfl
      | ok j =>
        obtain ⟨below, rfl⟩ := hc.stack_of_innermost hj
        obtain ⟨i, hi⟩ := hc.classNamed_entry
        simp only [Except.map, Noted.ok_bind, entry_above, hi, classNamed_above hi]
        split
        · rfl
        · cases childText t 0 with
          | error e => rfl
          | ok type =>
            cases childText t 1 with
            | error e => rfl
            | ok define => exact congrArg Except.ok (onClass_above i _)

theorem methodOutcome_above (hc : Coherent c stack) (around : List Tree) :
    (above base packaged c).methodOutcome t around =
      (c.methodOutcome t around).map (above base packaged) := by
  unfold methodOutcome
  cases childText t 1 with
  | error e => rfl
  | ok name =>
    rw [innermost_above]
    cases hj : c.innermost with
    | error e => rfl
    | ok j =>
      obtain ⟨below, rfl⟩ := hc.stack_of_innermost hj
      obtain ⟨i, hi⟩ := hc.classNamed_entry
      simp only [Except.map, Noted.ok_bind, entry_above, hi, classNamed_above hi]
      split
      · rfl
      · have hpart : (above base packaged c).methodPart t around name =
            c.methodPart t around name := rfl
        rw [hpart]
        cases (c.methodPart t around name).result with
        | error e => rfl
        | ok m =>
          simp only [Noted.ok_bind, Noted.pure_eq_ok, inMethod, onClass_above]
          rfl

theorem callOutcome_above (hc : Coherent c stack) :
    (above base packaged c).callOutcome t = (c.callOutcome t).map (above base packaged) := by
  unfold callOutcome
  cases childText t 0 with
  | error e => rfl
  | ok value =>
    have hmethod : (above base packaged c).method =
        c.method.map fun m => ⟨base.pool.length + m.owner, m.name⟩ := rfl
    rw [hmethod]
    cases c.method with
    | some m => exact congrArg Except.ok (onClass_above m.owner _)
    | none =>
      rw [innermost_above]
      cases hj : c.innermost with
      | error e => rfl
      | ok j =>
        obtain ⟨below, rfl⟩ := hc.stack_of_innermost hj
        obtain ⟨i, hi⟩ := hc.classNamed_entry
        simp only [Except.map, Option.map_none, Noted.ok_bind, entry_above, hi,
          classNamed_above hi]
        exact congrArg Except.ok (onClass_above i _)

/-- A visit does the same to a collector on top of another one as it does to the collector alone. -/
theorem outcome_above (hbase : base.classes.keys.Nodup) (hc : Coherent c stack) (packaged : Bool)
    (v : Visit) :
    (above base packaged c).outcome v =
      (c.outcome v).map (above base (packaged || v.isPackage)) := by
  cases v with
  | leaf t => simp [outcome, Visit.isPackage, Except.map]
  | enter t around =>
    simp only [outcome]
    split
    · rename_i hr
      have hv : Visit.isPackage (.enter t around) = true := by simp [Visit.isPackage, hr]
      rw [hv, Bool.or_true]
      cases phraseText .qualifiedName t <;> rfl
    all_goals
      have hv : Visit.isPackage (.enter t around) = false := by simp_all [Visit.isPackage]
      rw [hv, Bool.or_false]
    · cases phraseText .qualifiedName t with
      | error e => rfl
      | ok name => simp [Except.map, above]
    · rw [classHead_above]
      cases (c.classHead t).result with
      | error e => rfl
      | ok head => exact congrArg Except.ok (opening_above hbase head)
    · rw [classHead_above]
      cases (c.classHead t).result with
      | error e => rfl
      | ok head => exact congrArg Except.ok (opening_above hbase head)
    · exact fieldOutcome_above hc around
    · exact methodOutcome_above hc around
    · exact callOutcome_above hc
    · rfl
  | exit t around =>
    have hv : Visit.isPackage (.exit t around) = false := rfl
    rw [hv, Bool.or_false]
    have hclass : (do
        let _ ← childText t 1
        let _ ← (above base packaged c).innermost
        return (above base packaged c).closing : Except Fault Collector) =
        (do
          let _ ← childText t 1
          let _ ← c.innermost
          return c.closing).map (above base packaged) := by
      rw [innermost_above, closing_above]
      cases childText t 1 with
      | error e => rfl
      | ok second => cases c.innermost <;> rfl
    simp only [outcome]
    split
    · exact hclass
    · exact hclass
    · cases childText t 1 <;> rfl
    · rfl

end Above

/-! ## Whole walks -/

/-- A walk goes on top of another collector as it goes alone: it ends at the same visit with the same
fault, and what it leaves behind is on top of what was there. -/
theorem follow_above {base c : Collector} (hbase : base.classes.keys.Nodup) {stack : List Nat}
    (hc : Coherent c stack) (packaged : Bool) (vs : List Visit) :
    ((above base packaged c).follow vs).fault = (c.follow vs).fault ∧
    ((above base packaged c).follow vs).done = (c.follow vs).done ∧
    ((above base packaged c).follow vs).collector =
      above base (packaged || (vs.take (c.follow vs).done).any Visit.isPackage)
        (c.follow vs).collector := by
  induction vs generalizing c packaged stack with
  | nil => simp [follow_nil]
  | cons v vs ih =>
    have hstep := outcome_above hbase hc packaged v
    cases h : c.outcome v with
    | error f =>
      rw [h] at hstep
      obtain ⟨log, hf⟩ := follow_cons_error h vs
      obtain ⟨log', hf'⟩ := follow_cons_error hstep vs
      simp [hf, hf']
    | ok c' =>
      rw [h] at hstep
      obtain ⟨log, hf⟩ := follow_cons_ok h vs
      obtain ⟨log', hf'⟩ := follow_cons_ok hstep vs
      obtain ⟨stack', hc'⟩ := hc.change (change_of_outcome h)
      obtain ⟨hfault, hdone, hcollector⟩ := ih hc' (packaged || v.isPackage)
      rw [hf, hf']
      simp only [hfault, hdone, hcollector, List.take_succ_cons, List.any_cons, Bool.or_assoc,
        and_self]

theorem openClasses_above {base c : Collector} {packaged : Bool} :
    (above base packaged c).openClasses = c.openClasses := by
  simp only [openClasses, above, Table.mapValues, List.map_map]
  apply List.map_congr_left
  intro x _
  exact congrArg (Prod.mk x.1) (entry_above packaged x.2)

theorem openMethod_above {base c : Collector} {packaged : Bool} :
    (above base packaged c).openMethod = c.openMethod := by
  have hm : (above base packaged c).method =
      c.method.map fun m => ⟨base.pool.length + m.owner, m.name⟩ := rfl
  rw [openMethod, hm, openMethod]
  cases c.method with
  | none => rfl
  | some m => simp only [Option.map_some, entry_above]

theorem outline_classes (c : Collector) : c.outline.classes = c.classes.mapValues c.entry := rfl

theorem outline_above {base c : Collector} {packaged : Bool} {below : List Nat}
    (hbase : Coherent base below) :
    (above base packaged c).outline.classes =
      base.outline.classes.merge c.outline.classes := by
  have hold : base.classes.mapValues (above base packaged c).entry =
      base.classes.mapValues base.entry := by
    apply List.map_congr_left
    intro x hx
    rw [entry_above_of_lt (hbase.named x.1 x.2 hx).1]
  have hnew : (c.classes.mapValues (base.pool.length + ·)).mapValues
      (above base packaged c).entry = c.classes.mapValues c.entry := by
    simp only [Table.mapValues, List.map_map]
    apply List.map_congr_left
    intro x _
    exact congrArg (Prod.mk x.1) (entry_above packaged x.2)
  have hclasses : (above base packaged c).classes =
      base.classes.merge (c.classes.mapValues (base.pool.length + ·)) := rfl
  rw [outline_classes, outline_classes, outline_classes, hclasses, Table.mapValues_merge, hold,
    hnew]

/-- Outside of all classes and methods a collector is on top of itself. -/
theorem above_fresh {base : Collector} (h : Coherent base []) (hm : base.method = none) :
    above base false {} = base := by
  have hd : base.depth = 0 := h.depth
  have ho : base.opened = [] := h.opened
  cases base
  simp only at hd ho hm
  subst hd ho hm
  simp [above, Table.mapValues, Table.merge_nil]

/-- A walk after one without a fault ends as it does with a fresh collector, at the same visit, and
leaves the same classes and the same method open. The imports come one after the other, the later
package counts, and the later classes take the place of the earlier ones of the same name. Walking the
same tree again changes nothing in the graph. -/
theorem collect_collect (t₁ t₂ : Tree) (h : (collect {} t₁).fault = none) :
    let first := (collect {} t₁).collector
    let fresh := collect {} t₂
    let second := first.collect t₂
    (second.fault = fresh.fault ∧ second.done = fresh.done) ∧
    second.collector.depth = fresh.collector.depth ∧
    second.collector.openClasses = fresh.collector.openClasses ∧
    second.collector.openMethod = fresh.collector.openMethod ∧
    second.collector.imports = first.imports ++ fresh.collector.imports ∧
    second.collector.package =
      (if (t₂.walk.take fresh.done).any Visit.isPackage then fresh.collector.package
        else first.package) ∧
    second.collector.outline.classes =
      first.outline.classes.merge fresh.collector.outline.classes ∧
    (first.collect t₁).collector.outline.dot = first.outline.dot := by
  intro first fresh second
  have hpass : Passes {} t₁.walk first := ⟨h, rfl⟩
  have hfirst : Coherent first [] := coherent_fresh.passes hpass
  have hbase := above_fresh hfirst (method_of_passes rfl hpass)
  have hwalk := fun t : Tree => follow_above hfirst.unique coherent_fresh false t.walk
  simp only [hbase, Bool.false_or] at hwalk
  obtain ⟨hfault, hdone, hcollector⟩ := hwalk t₂
  refine ⟨⟨hfault, hdone⟩, ?_⟩
  have hsecond : second.collector = above first
      ((t₂.walk.take fresh.done).any Visit.isPackage) fresh.collector := hcollector
  rw [hsecond]
  refine ⟨rfl, openClasses_above, openMethod_above, rfl, rfl, outline_above hfirst, ?_⟩
  have hagain : (first.collect t₁).collector.outline.classes = first.outline.classes := by
    rw [collect, (hwalk t₁).2.2, outline_above hfirst]
    apply Table.merge_self
    rw [outline_classes, Table.keys_mapValues]
    exact hfirst.unique
  rw [Outline.dot, Outline.dotLines, hagain]
  rfl

open Callscope.Tree in
/-- The second text declares `B` anew: the new class stands at the place of the old one. -/
theorem collect_collect_renewed :
    let earlier := unitOf [classOf "A" [], classOf "B" [methodOf "m" [] [calling "f"]]]
    let later := unitOf [classOf "C" [], classOf "B" [methodOf "n" [] []]]
    (collect {} earlier).fault = none ∧
    ((collect {} earlier).collector.collect later).collector.outline.classes.map
        (fun x => (x.1, x.2.methods.keys)) =
      [("A", []), ("B", ["n"]), ("C", [])] := by
  intro earlier later
  have hfault : (collect {} earlier).fault = none := by decide +kernel
  obtain ⟨_, _, _, _, _, _, hclasses, _⟩ := collect_collect earlier later hfault
  refine ⟨hfault, ?_⟩
  rw [hclasses]
  decide +kernel

end Collector

end Callscope
