import Callscope.Proofs.Outline.Composition
import Callscope.Proofs.Outline.Grouping

/-!
# When a visit loses what was recorded

Most visits only add to the outline. Two can take something away. A class under a known name takes the
place of the one that had the name, whatever that one has. A method is looked for in the innermost open
class but put into the class that has its name now, where there may be another one of the same name.
`recorded_kept_iff` says that at every point of every session a visit keeps all that was recorded
exactly if it does neither; while all classes get different names, none does.
-/

namespace Callscope

/-- A method is still what it was, with all calls that it had. -/
def Method.Kept (m m' : Method) : Prop :=
  m' = { m with calls := m'.calls } ∧ m.calls.Sublist m'.calls

/-- A class still has all fields, methods and calls that it had. -/
structure ClassEntry.Kept (e e' : ClassEntry) : Prop where
  fields : e.fields.Sublist e'.fields
  methods : ∀ n m, e.methods.get? n = some m → ∃ m', e'.methods.get? n = some m' ∧ m.Kept m'
  calls : e.calls.Sublist e'.calls

/-- All that an outline had is still there, in the same class and method. -/
def Outline.Kept (o o' : Outline) : Prop :=
  ∀ k e, o.classes.get? k = some e → ∃ e', o'.classes.get? k = some e' ∧ e.Kept e'

/-- A class that has nothing. -/
def ClassEntry.Blank (e : ClassEntry) : Prop := e.fields = [] ∧ e.methods = [] ∧ e.calls = []

theorem Method.Kept.refl (m : Method) : m.Kept m := ⟨rfl, List.Sublist.refl _⟩

theorem Method.Kept.trans {a b c : Method} (hab : a.Kept b) (hbc : b.Kept c) : a.Kept c := by
  refine ⟨?_, hab.2.trans hbc.2⟩
  rw [hbc.1, hab.1]

namespace ClassEntry

theorem Kept.refl (e : ClassEntry) : e.Kept e :=
  ⟨List.Sublist.refl _, fun _ m hm => ⟨m, hm, .refl m⟩, List.Sublist.refl _⟩

theorem Kept.trans {a b c : ClassEntry} (hab : a.Kept b) (hbc : b.Kept c) : a.Kept c := by
  refine ⟨hab.fields.trans hbc.fields, ?_, hab.calls.trans hbc.calls⟩
  intro n m hm
  obtain ⟨m', hm', hkept⟩ := hab.methods n m hm
  obtain ⟨m'', hm'', hkept'⟩ := hbc.methods n m' hm'
  exact ⟨m'', hm'', hkept.trans hkept'⟩

/-- A class is kept by one that has nothing just if it has nothing. -/
theorem kept_iff_of_blank {e e' : ClassEntry} (h : e'.Blank) : e.Kept e' ↔ e.Blank := by
  obtain ⟨hfields, hmethods, hcalls⟩ := h
  constructor
  · intro hk
    refine ⟨?_, ?_, ?_⟩
    · exact List.sublist_nil.mp (hfields ▸ hk.fields)
    · cases hm : e.methods with
      | nil => rfl
      | cons x rest =>
        obtain ⟨m', hm', _⟩ := hk.methods x.1 x.2 (by rw [hm, Table.get?_cons, if_pos rfl])
        rw [hmethods, Table.get?_nil] at hm'
        cases hm'
    · exact List.sublist_nil.mp (hcalls ▸ hk.calls)
  · rintro ⟨hf, hm, hc⟩
    refine ⟨hf ▸ List.nil_sublist _, ?_, hc ▸ List.nil_sublist _⟩
    intro n m hn
    rw [hm, Table.get?_nil] at hn
    cases hn

/-- A method that is put into a class takes nothing from it just if no other method has its name. -/
theorem kept_put_iff {e : ClassEntry} {name : String} {m : Method} (hm : m.calls = []) :
    e.Kept { e with methods := e.methods.put name m } ↔
      ∀ m', e.methods.get? name = some m' → m' = m := by
  constructor
  · intro hk m' hm'
    obtain ⟨m'', hget, hsame, hcalls⟩ := hk.methods name m' hm'
    rw [Table.get?_put, if_pos rfl] at hget
    obtain rfl := Option.some.inj hget
    rw [hm] at hsame hcalls
    rw [hsame, ← List.sublist_nil.mp hcalls]
  · intro h
    refine ⟨List.Sublist.refl _, ?_, List.Sublist.refl _⟩
    intro n m' hm'
    rw [Table.get?_put]
    by_cases hn : name = n
    · subst hn
      rw [if_pos rfl, h m' hm']
      exact ⟨m, rfl, .refl m⟩
    · rw [if_neg hn]
      exact ⟨m', hm', .refl m'⟩

end ClassEntry

namespace Outline

theorem Kept.refl (o : Outline) : o.Kept o := fun _ e he => ⟨e, he, .refl e⟩

theorem Kept.trans {a b c : Outline} (hab : a.Kept b) (hbc : b.Kept c) : a.Kept c := by
  intro k e he
  obtain ⟨e', he', hkept⟩ := hab k e he
  obtain ⟨e'', he'', hkept'⟩ := hbc k e' he'
  exact ⟨e'', he'', hkept.trans hkept'⟩

end Outline

namespace Collector

variable {c c' : Collector} {stack : List Nat} {i : Nat} {t : Tree} {around : List Tree} {v : Visit}

theorem get?_outline (c : Collector) (k : String) :
    c.outline.classes.get? k = (c.classes.get? k).map c.entry := by
  rw [outline_classes, Table.get?_mapValues]

/-- A visit takes something out of the outline. Either it declares a class under a name that is known,
and the class that had the name has something. Or it declares a method that the innermost open class
does not know, and the class that has the name of that class now has another method of this name. -/
inductive Overwrites (c : Collector) : Visit → Prop
  | declaration {t : Tree} {around : List Tree} {head : ClassHead} {e : ClassEntry}
      (declares : t.declaresClass = true) (read : (c.classHead t).result = .ok head)
      (known : c.outline.classes.get? head.name = some e) (filled : ¬ e.Blank) :
      Overwrites c (.enter t around)
  | method {t : Tree} {around : List Tree} {name : String} {j : Nat} {e : ClassEntry}
      {old new : Method} (declares : t.rule? = some .methodDeclaration)
      (named : childText t 1 = .ok name) (inner : c.innermost = .ok j)
      (unknown : (c.entry j).methods.has name = false)
      (home : c.outline.classes.get? (c.entry j).name = some e)
      (known : e.methods.get? name = some old)
      (read : (c.methodPart t around name).result = .ok new) (other : old ≠ new) :
      Overwrites c (.enter t around)

/-! ## Changes of one class -/

/-- A change that keeps what a class has keeps the outline. -/
theorem kept_onClass {f : ClassEntry → ClassEntry} (h : (c.entry i).Kept (f (c.entry i))) :
    c.outline.Kept (c.onClass i f).outline := by
  intro k e he
  rw [get?_outline] at he ⊢
  obtain ⟨j, hj, rfl⟩ := Option.map_eq_some_iff.mp he
  have hclasses : (c.onClass i f).classes.get? k = some j := hj
  refine ⟨_, by rw [hclasses, Option.map_some], ?_⟩
  rw [entry_onClass]
  split
  · rename_i hij
    exact hij.1 ▸ h
  · exact .refl _

/-- The converse for a class that has a name. -/
theorem kept_of_kept_onClass {f : ClassEntry → ClassEntry} {k : String}
    (hk : c.classes.get? k = some i) (hi : i < c.pool.length)
    (h : c.outline.Kept (c.onClass i f).outline) : (c.entry i).Kept (f (c.entry i)) := by
  obtain ⟨e', he', hkept⟩ := h k (c.entry i) (by rw [get?_outline, hk, Option.map_some])
  have hclasses : (c.onClass i f).classes.get? k = some i := hk
  rw [get?_outline, hclasses, Option.map_some, entry_onClass, if_pos ⟨rfl, hi⟩] at he'
  exact Option.some.inj he' ▸ hkept

theorem kept_of_classes (hclasses : c'.classes = c.classes) (hpool : c'.pool = c.pool) :
    c.outline.Kept c'.outline := by
  have hsame : c'.outline.classes = c.outline.classes := by
    simp only [outline, entry, hclasses, hpool]
  intro k e he
  exact ⟨e, hsame ▸ he, .refl e⟩

theorem kept_withMethodCall (c : Collector) (m : MethodRef) (call : Call) :
    c.outline.Kept (c.withMethodCall m call).outline := by
  refine kept_onClass ⟨List.Sublist.refl _, ?_, List.Sublist.refl _⟩
  intro n old hold
  rw [Table.get?_modify, hold]
  split
  · exact ⟨_, rfl, rfl, List.sublist_append_left _ _⟩
  · exact ⟨old, rfl, .refl old⟩

theorem get?_of_classNamed {k : String} (h : c.classNamed k = .ok i) :
    c.classes.get? k = some i := by
  rw [classNamed] at h
  split at h
  · rename_i j hj
    cases h
    exact hj
  · cases h

/-! ## Visits -/

/-- A class keeps what was recorded just if the class that had its name has nothing. -/
theorem kept_opening_iff (h : Coherent c stack) (head : ClassHead) :
    c.outline.Kept (c.opening head).outline ↔
      ∀ e, c.outline.classes.get? head.name = some e → e.Blank := by
  have hget : ∀ k, (c.opening head).outline.classes.get? k = if head.name = k then
      some { name := head.name, extends_ := head.extends_, implements := head.implements }
      else c.outline.classes.get? k := by
    intro k
    have hclasses : (c.opening head).classes = c.classes.put head.name c.pool.length := rfl
    rw [get?_outline, get?_outline, hclasses, Table.get?_put]
    split
    · rw [Option.map_some, entry_opening_self]
    · cases hk : c.classes.get? k with
      | none => rfl
      | some j =>
        have hlt := (h.named k j (Table.mem_of_get? hk)).1
        rw [Option.map_some, Option.map_some, entry_opening_of_lt head hlt]
  constructor
  · intro hkept e he
    obtain ⟨e', he', hk⟩ := hkept head.name e he
    rw [hget, if_pos rfl] at he'
    obtain rfl := Option.some.inj he'
    exact (ClassEntry.kept_iff_of_blank ⟨rfl, rfl, rfl⟩).mp hk
  · intro hblank k e he
    rw [hget]
    split
    · rename_i hk
      exact ⟨_, rfl, (ClassEntry.kept_iff_of_blank ⟨rfl, rfl, rfl⟩).mpr (hblank e (hk ▸ he))⟩
    · exact ⟨e, he, .refl e⟩

/-- A method keeps what was recorded just if its class had no other of its name. -/
theorem kept_inMethod_iff (h : Coherent c stack) {name k : String} {m : Method}
    (hm : m.calls = []) (hi : c.classNamed k = .ok i) :
    c.outline.Kept (c.inMethod i name m).outline ↔
      ∀ m', (c.entry i).methods.get? name = some m' → m' = m := by
  have hlt := (h.lt_of_classNamed hi).1
  have houtline : (c.inMethod i name m).outline =
      (c.onClass i fun e => { e with methods := e.methods.put name m }).outline := rfl
  rw [houtline, ← ClassEntry.kept_put_iff hm]
  exact ⟨kept_of_kept_onClass (get?_of_classNamed hi) hlt, fun hkept => kept_onClass hkept⟩

/-- Visits other than those of classes and methods only add. -/
theorem kept_of_enter (hclass : t.declaresClass = false)
    (hmethod : t.rule? ≠ some .methodDeclaration)
    (h : c.outcome (.enter t around) = .ok c') : c.outline.Kept c'.outline := by
  simp only [outcome] at h
  split at h
  · obtain ⟨name, _, h⟩ := Noted.bind_eq_ok.mp h
    cases h
    exact kept_of_classes rfl rfl
  · obtain ⟨name, _, h⟩ := Noted.bind_eq_ok.mp h
    cases h
    exact kept_of_classes rfl rfl
  · rename_i hr
    simp [Tree.declaresClass, hr] at hclass
  · rename_i hr
    simp [Tree.declaresClass, hr] at hclass
  · obtain ⟨j, i, type, define, _, _, _, _, rfl⟩ := fieldOutcome_ok h
    exact kept_onClass ⟨List.sublist_append_left _ _, fun _ m hm => ⟨m, hm, .refl m⟩,
      List.Sublist.refl _⟩
  · contradiction
  · obtain ⟨value, _, ⟨_, j, i, _, _, rfl⟩ | ⟨m, _, rfl⟩⟩ := callOutcome_ok h
    · exact kept_onClass ⟨List.Sublist.refl _, fun _ m hm => ⟨m, hm, .refl m⟩,
        List.sublist_append_left _ _⟩
    · exact kept_withMethodCall c m _
  · cases h
    exact .refl _

theorem kept_of_exit (h : c.outcome (.exit t around) = .ok c') : c.outline.Kept c'.outline :=
  kept_of_classes (classes_pool_of_exit h).1 (classes_pool_of_exit h).2

theorem kept_iff_of_enterClass (h : Coherent c stack) (hclass : t.declaresClass = true)
    (hv : c.outcome (.enter t around) = .ok c') :
    c.outline.Kept c'.outline ↔ ¬ c.Overwrites (.enter t around) := by
  rw [outcome_enterClass hclass] at hv
  obtain ⟨head, hhead, hv⟩ := Noted.bind_eq_ok.mp hv
  cases hv
  rw [kept_opening_iff h]
  constructor
  · intro hblank ho
    cases ho with
    | declaration _ read known filled =>
      obtain rfl := Except.ok.inj (hhead.symm.trans read)
      exact filled (hblank _ known)
    | method declares => simp [Tree.declaresClass, declares] at hclass
  · intro ho e he
    exact Classical.byContradiction fun hfilled => ho (.declaration hclass hhead he hfilled)

theorem kept_iff_of_enterMethod (h : Coherent c stack)
    (hmethod : t.rule? = some .methodDeclaration) (hv : c.methodOutcome t around = .ok c') :
    c.outline.Kept c'.outline ↔ ¬ c.Overwrites (.enter t around) := by
  obtain ⟨name, j, hname, hj, ⟨hold, rfl⟩ | ⟨hnew, m, i, hpart, hi, rfl⟩⟩ := methodOutcome_ok hv
  · -- An overload changes nothing.
    refine ⟨fun _ ho => ?_, fun _ => .refl _⟩
    cases ho with
    | declaration declares => simp [Tree.declaresClass, hmethod] at declares
    | method _ named inner unknown =>
      obtain rfl := Except.ok.inj (hname.symm.trans named)
      obtain rfl := Except.ok.inj (hj.symm.trans inner)
      simp [hold] at unknown
  · have hhome : c.outline.classes.get? (c.entry j).name = some (c.entry i) := by
      rw [get?_outline, get?_of_classNamed hi, Option.map_some]
    rw [kept_inMethod_iff h (name_calls_of_methodPart hpart).2 hi]
    constructor
    · intro hsame ho
      cases ho with
      | declaration declares => simp [Tree.declaresClass, hmethod] at declares
      | method _ named inner _ home known read other =>
        obtain rfl := Except.ok.inj (hname.symm.trans named)
        obtain rfl := Except.ok.inj (hj.symm.trans inner)
        obtain rfl := Except.ok.inj (hpart.symm.trans read)
        obtain rfl := Option.some.inj (hhome.symm.trans home)
        exact other (hsame _ known)
    · intro ho old hold
      exact Classical.byContradiction fun hother =>
        ho (.method hmethod hname hj hnew hhome hold hpart hother)

/-- A visit keeps all that was recorded exactly if it does not overwrite any of it. -/
theorem kept_iff_of_outcome (h : Coherent c stack) (hv : c.outcome v = .ok c') :
    c.outline.Kept c'.outline ↔ ¬ c.Overwrites v := by
  cases v with
  | leaf t =>
    cases hv
    exact ⟨fun _ ho => (nomatch ho), fun _ => .refl _⟩
  | exit t around => exact ⟨fun _ ho => (nomatch ho), fun _ => kept_of_exit hv⟩
  | enter t around =>
    cases hclass : t.declaresClass with
    | true => exact kept_iff_of_enterClass h hclass hv
    | false =>
      by_cases hmethod : t.rule? = some .methodDeclaration
      · simp only [outcome, hmethod] at hv
        exact kept_iff_of_enterMethod h hmethod hv
      · refine ⟨fun _ ho => ?_, fun _ => kept_of_enter hclass hmethod hv⟩
        cases ho with
        | declaration declares => simp [hclass] at declares
        | method declares => exact hmethod declares

/-! ## Different names -/

theorem eq_of_name {i j : Nat} (hn : (c.pool.map ClassEntry.name).Nodup) (hi : i < c.pool.length)
    (hj : j < c.pool.length) (h : (c.entry i).name = (c.entry j).name) : i = j := by
  have hget : ∀ {k}, k < c.pool.length →
      (c.pool.map ClassEntry.name)[k]? = some (c.entry k).name := by
    intro k hk
    rw [List.getElem?_map, entry, List.getD_eq_getElem?_getD, List.getElem?_eq_getElem hk]
    rfl
  refine (List.getElem?_inj (by simpa using hi) hn).mp ?_
  rw [hget hi, hget hj, h]

/-- While all classes get different names, no visit overwrites. -/
theorem not_overwrites_of_nodup (h : Coherent c stack) (hv : c.outcome v = .ok c')
    (hn : (c'.pool.map ClassEntry.name).Nodup) : ¬ c.Overwrites v := by
  intro ho
  cases ho with
  | declaration declares read known filled =>
    rw [outcome_enterClass declares, read] at hv
    cases hv
    rw [get?_outline] at known
    obtain ⟨i, hi, rfl⟩ := Option.map_eq_some_iff.mp known
    obtain ⟨hlt, hname, -⟩ := h.named _ i (Table.mem_of_get? hi)
    rw [pool_opening, List.map_append, List.nodup_append] at hn
    exact hn.2.2 _ (List.mem_map_of_mem (entry_of_lt hlt)) _ List.mem_cons_self hname
  | method declares named inner unknown home known read other =>
    obtain ⟨below, rfl⟩ := h.stack_of_innermost inner
    obtain ⟨more, hmore⟩ := names_of_outcome hv
    rw [hmore, List.nodup_append] at hn
    rw [get?_outline] at home
    obtain ⟨i, hi, rfl⟩ := Option.map_eq_some_iff.mp home
    -- The class that has the name is the innermost one itself, which does not know the method.
    have hj := (h.stacked _ List.mem_cons_self).1
    obtain ⟨hlt, hname, -⟩ := h.named _ i (Table.mem_of_get? hi)
    obtain rfl := eq_of_name hn.1 hlt hj hname
    rw [Table.has, known] at unknown
    cases unknown

/-- What is recorded stays recorded along every chain of visits, also one that a fault cuts short, if
all classes get different names. -/
theorem kept_follow (h : Coherent c stack) (vs : List Visit)
    (hn : ((c.follow vs).collector.pool.map ClassEntry.name).Nodup) :
    c.outline.Kept (c.follow vs).collector.outline := by
  induction vs generalizing c stack with
  | nil => exact .refl _
  | cons v vs ih =>
    cases hv : c.outcome v with
    | error f =>
      obtain ⟨log, hf⟩ := follow_cons_error hv vs
      rw [hf]
      exact .refl _
    | ok d =>
      obtain ⟨log, hf⟩ := follow_cons_ok hv vs
      rw [hf] at hn ⊢
      obtain ⟨stack', hd⟩ := h.change (change_of_outcome hv)
      obtain ⟨more, hmore⟩ := names_of_follow d vs
      have hnd : (d.pool.map ClassEntry.name).Nodup := by
        rw [hmore, List.nodup_append] at hn
        exact hn.1
      exact ((kept_iff_of_outcome h hv).mpr (not_overwrites_of_nodup h hv hnd)).trans (ih hd hn)

theorem names_of_afterWalks (c : Collector) (walks : List (Tree × Nat)) : ∃ more,
    (c.afterWalks walks).pool.map ClassEntry.name = c.pool.map ClassEntry.name ++ more := by
  induction walks generalizing c with
  | nil => exact ⟨[], (List.append_nil _).symm⟩
  | cons w walks ih =>
    obtain ⟨first, hfirst⟩ := names_of_follow c (w.1.walk.take w.2)
    obtain ⟨rest, hrest⟩ := ih (c.follow (w.1.walk.take w.2)).collector
    exact ⟨first ++ rest, by rw [← List.append_assoc, ← hfirst]; exact hrest⟩

theorem kept_afterWalks (h : Coherent c stack) (walks : List (Tree × Nat))
    (hn : ((c.afterWalks walks).pool.map ClassEntry.name).Nodup) :
    c.outline.Kept (c.afterWalks walks).outline := by
  induction walks generalizing c stack with
  | nil => exact .refl _
  | cons w walks ih =>
    obtain ⟨stack', hd⟩ := coherent_follow h (w.1.walk.take w.2)
    obtain ⟨more, hmore⟩ := names_of_afterWalks (c.follow (w.1.walk.take w.2)).collector walks
    have hnd : ((c.follow (w.1.walk.take w.2)).collector.pool.map ClassEntry.name).Nodup := by
      have hall : (((c.follow (w.1.walk.take w.2)).collector.afterWalks walks).pool.map
        ClassEntry.name).Nodup := hn
      rw [hmore, List.nodup_append] at hall
      exact hall.1
    exact (kept_follow h _ hnd).trans (ih hd hn)

/-- At every point of every session, a visit that succeeds keeps all that was recorded exactly if it
does not overwrite any of it. As long as all classes get different names, nothing is lost however the
session goes on. -/
theorem recorded_kept_iff (walks : List (Tree × Nat)) :
    let c := afterWalks {} walks
    (∀ v, (visit v c).1.result = .ok () →
      (c.outline.Kept (visit v c).2.outline ↔ ¬ c.Overwrites v)) ∧
    ∀ more, ((c.afterWalks more).pool.map ClassEntry.name).Nodup →
      c.outline.Kept (c.afterWalks more).outline := by
  intro c
  obtain ⟨stack, h⟩ : ∃ stack, Coherent c stack := coherent_afterWalks coherent_fresh walks
  refine ⟨?_, fun more hn => kept_afterWalks h more hn⟩
  intro v hv
  have hends := ends_visit v c
  cases ho : c.outcome v with
  | error f =>
    rw [ho] at hends
    have hresult : (visit v c).1.result = .error f := congrArg Prod.fst hends
    rw [hv] at hresult
    cases hresult
  | ok d =>
    rw [ho] at hends
    have hd : (visit v c).2 = d := congrArg Prod.snd hends
    rw [hd]
    exact kept_iff_of_outcome h ho

open Callscope.Tree in
/-- A class declared again after it was filled. -/
theorem recorded_kept_iff_again :
    let t := unitOf [classOf "A" [methodOf "m" [] [calling "f"]]]
    let c := afterWalks {} [(t, t.walk.length)]
    let v := Visit.enter (classOf "A" []) [unitOf []]
    (visit v c).1.result = .ok () ∧ ¬ c.outline.Kept (visit v c).2.outline := by
  intro t c v
  have hok : (visit v c).1.result = .ok () := by
    have hisOk : (visit v c).1.result.isOk = true := by decide +kernel
    cases hr : (visit v c).1.result with
    | error f => simp [hr, Except.isOk, Except.toBool] at hisOk
    | ok u => rfl
  refine ⟨hok, fun hkept => ((recorded_kept_iff [(t, t.walk.length)]).1 v hok).mp hkept ?_⟩
  have hhead : ((c.classHead (classOf "A" [])).result.toOption.map ClassHead.name) = some "A" := by
    decide +kernel
  have hknown : (c.outline.classes.get? "A").map (fun e => e.methods.keys) = some ["m"] := by
    decide +kernel
  obtain ⟨e, he, hkeys⟩ := Option.map_eq_some_iff.mp hknown
  cases hr : (c.classHead (classOf "A" [])).result with
  | error f => simp [hr, Except.toOption] at hhead
  | ok head =>
    rw [hr] at hhead
    have hname : head.name = "A" := Option.some.inj hhead
    refine .declaration rfl hr (hname ▸ he) fun hblank => ?_
    rw [hblank.2.1] at hkeys
    cases hkeys

open Callscope.Tree in
/-- A class that is declared again loses its method and the call in it; a method that is declared in a
class around another one of the same name takes the place of a method of that one. -/
theorem redeclared_class_loses_calls :
    let shown := fun (t : Tree) (n : Nat) => (afterWalks {} [(t, n)]).outline.classes.map fun x =>
      (x.1, x.2.methods.map fun y => (y.1, y.2.calls.map Call.value))
    let after := unitOf [classOf "A" [methodOf "m" [] [calling "f"]], classOf "A" []]
    let within := unitOf [classOf "A" [classOf "A" [methodOf "m" [] [calling "f"]],
      methodOf "m" [] [calling "g"]]]
    (collect {} after).fault = none ∧ shown after 50 = [("A", [("m", ["f"])])] ∧
      shown after 51 = [("A", [])] ∧
    (collect {} within).fault = none ∧ shown within 61 = [("A", [("m", ["f"])])] ∧
      shown within 62 = [("A", [("m", [])])] := by
  decide +kernel

end Collector

end Callscope
