import Callscope.Proofs.Outline.Ancestry
import Callscope.Proofs.Outline.Grouping

/-!
# Which method a call is recorded with

A collector knows one method that calls belong to. A method that begins takes this place if it is the
first of its name in its class, and the end of any method clears it. `calls_attributed` says for every
call where that puts it, and exactly when this is the innermost method around the call: an overload and
a method of an anonymous class that has ended both get in the way.
-/

namespace Callscope

namespace Collector

/-! ## The classes of the outline -/

theorem Surveyed.outline_getElem? {c : Collector} {s : Survey} {stack inside : List Nat}
    (h : Surveyed c s stack inside) {i : Nat} {k : Tree} (hk : s.classes[i]? = some k) :
    c.outline.classes[i]? = some (k.partText 1, c.entry i) := by
  have hi : i < c.pool.length := by
    rw [h.count]
    exact (List.getElem?_eq_some_iff.mp hk).1
  have hentry : c.pool[i]? = some (c.entry i) := by
    rw [entry, List.getD_eq_getElem?_getD, List.getElem?_eq_getElem hi]
    rfl
  rw [outline, h.classes]
  simp [hentry, h.names i k hk]

/-- The classes of the outline are those of the pool, in order. -/
theorem Grouped.classes_outline {c : Collector} {s : Survey} (h : Grouped c s) :
    c.outline.classes = (List.range c.pool.length).map fun i => ((c.entry i).name, c.entry i) := by
  have hname : ∀ x ∈ c.pool.zipIdx, x.1 = c.entry x.2 := by
    rintro ⟨e, i⟩ hx
    rw [entry, List.getD_eq_getElem?_getD, List.mk_mem_zipIdx_iff_getElem?.mp hx]
    rfl
  have hranks : List.range c.pool.length = c.pool.zipIdx.map Prod.snd := by
    rw [List.zipIdx_map_snd, List.range_eq_range']
  rw [outline, h.classes, hranks, List.map_map, List.map_map]
  apply List.map_congr_left
  intro x hx
  simp only [Function.comp_apply, hname x hx]

/-- A class of the outline is one that the survey has met. -/
theorem Grouped.mem_outline {c : Collector} {s : Survey} (h : Grouped c s) {k : String}
    {e : ClassEntry} (he : (k, e) ∈ c.outline.classes) : ∃ i u, s.classes[i]? = some u ∧
      i < c.pool.length ∧ k = u.partText 1 ∧ e = c.entry i := by
  rw [h.classes_outline] at he
  obtain ⟨i, hi, heq⟩ := List.mem_map.mp he
  obtain ⟨rfl, rfl⟩ := Prod.mk.inj heq
  have hlt := List.mem_range.mp hi
  have hu := List.getElem?_eq_getElem (h.count ▸ hlt)
  exact ⟨i, _, hu, hlt, h.names i _ hu, rfl⟩

/-- A method that is recorded has the calls of its place. -/
theorem Surveyed.calls_of_method {c : Collector} {s : Survey} {stack inside : List Nat}
    (h : Surveyed c s stack inside) {i : Nat} (hi : i < s.classes.length) {name : String}
    {m : Method} (hm : (name, m) ∈ (c.entry i).methods) :
    m.calls = s.callsAt (some i, some name) := by
  rw [h.methods i (h.count ▸ hi), Survey.methodsOf] at hm
  obtain ⟨x, _, hx⟩ := List.mem_map.mp hm
  obtain ⟨rfl, rfl⟩ := Prod.mk.inj hx
  rfl

/-- Every call is recorded with a class that there is, or with a method that its class has. -/
theorem Surveyed.exists_place {c : Collector} {s : Survey} {stack inside : List Nat}
    (h : Surveyed c s stack inside) {k : CallSite} (hk : k ∈ s.calls) :
    ∃ i name, s.place k = (some i, name) ∧ i < s.classes.length ∧
      ∀ n, name = some n → n ∈ (c.entry i).methods.keys := by
  obtain ⟨i, hi⟩ := Option.isSome_iff_exists.mp (h.placed k hk)
  have hplace : s.place k = (some i, (s.place k).2) := Prod.ext hi rfl
  have hlt := Survey.lt_of_place h.sound hk hplace
  refine ⟨i, (s.place k).2, hplace, hlt, ?_⟩
  intro n hn
  rw [hn] at hplace
  rw [h.methods i (h.count ▸ hlt), Survey.mem_keys_methodsOf]
  exact Survey.exists_method_of_place hplace

/-- Where the calls of a tree are recorded, if its walk ends without a fault and its classes get
different names. Every call is recorded in one place, in order, with a class or with a method of it.
A call inside of methods is recorded with the innermost one just if that one, or another method of the
same name and class, holds it; it is recorded with the innermost class itself just if no method holds
it. -/
theorem calls_attributed (t : Tree) (h : (collect {} t).fault = none)
    (hn : ((collect {} t).collector.pool.map ClassEntry.name).Nodup) :
    let c := (collect {} t).collector
    let s := t.survey
    s.calls.map CallSite.node = t.phrasesOf .methodCall ∧
    c.outline.classes.length = s.classes.length ∧
    (∀ i k, s.classes[i]? = some k → ∃ e, c.outline.classes[i]? = some (k.partText 1, e) ∧
      e.calls = s.callsAt (some i, none) ∧
      ∀ name m, (name, m) ∈ e.methods → m.calls = s.callsAt (some i, some name)) ∧
    (∀ k ∈ s.calls, ∃ i name key e, s.place k = (some i, name) ∧
      c.outline.classes[i]? = some (key, e) ∧ ∀ n, name = some n → n ∈ e.methods.keys) ∧
    (∀ k ∈ s.calls, ∀ j rest m, k.inside = j :: rest → s.methods[j]? = some m →
      (s.place k = (m.owner, some m.name) ↔
        ∃ d m', s.Holds k d ∧ s.methods[d]? = some m' ∧ m'.key = m.key)) ∧
    (∀ k ∈ s.calls, s.place k = (k.owner, none) ↔ ∀ d, ¬ s.Holds k d) := by
  intro c s
  have hs : Surveyed c s [] [] := surveyed_collect h hn
  refine ⟨t.calls_survey, ?_, ?_, ?_, ?_, ?_⟩
  · have hclasses := congrArg List.length hs.classes
    rw [List.length_map, List.length_zipIdx, hs.count] at hclasses
    rw [outline, List.length_map, hclasses]
  · intro i k hk
    have hi := (List.getElem?_eq_some_iff.mp hk).1
    exact ⟨c.entry i, hs.outline_getElem? hk, hs.calls i (hs.count ▸ hi),
      fun name m hm => hs.calls_of_method hi hm⟩
  · intro k hk
    obtain ⟨i, name, hplace, hi, hkeys⟩ := hs.exists_place hk
    exact ⟨i, name, _, _, hplace, hs.outline_getElem? (List.getElem?_eq_getElem hi), hkeys⟩
  · intro k hk j rest m _ _
    exact Survey.place_eq_method_iff hs.sound hk
  · intro k hk
    exact Survey.place_eq_class_iff hs.sound hk

open Callscope.Tree in
/-- A call after a class inside of `m` whose method has ended is not recorded with `m` any more. -/
theorem calls_attributed_nested :
    let t := unitOf [classOf "A"
      [methodOf "m" [] [calling "f", classOf "B" [methodOf "n" [] []], calling "g"]]]
    (collect {} t).fault = none ∧
    ((collect {} t).collector.pool.map ClassEntry.name).Nodup ∧
    ∃ e, (collect {} t).collector.outline.classes[0]? = some ("A", e) ∧
      e.calls.map Call.value = ["g"] ∧
      ∀ m, ("m", m) ∈ e.methods → m.calls.map Call.value = ["f"] := by
  intro t
  have hfault : (collect {} t).fault = none := by decide +kernel
  have hnames : ((collect {} t).collector.pool.map ClassEntry.name).Nodup := by decide +kernel
  have hclass : (t.survey.classes.map fun k => k.partText 1)[0]? = some "A" := by decide +kernel
  obtain ⟨k, hk, hname⟩ := Option.map_eq_some_iff.mp (List.getElem?_map.symm.trans hclass)
  obtain ⟨-, -, hclasses, -⟩ := calls_attributed t hfault hnames
  obtain ⟨e, he, hcalls, hmethods⟩ := hclasses 0 k hk
  refine ⟨hfault, hnames, e, hname ▸ he, ?_, ?_⟩
  · rw [hcalls]
    decide +kernel
  · intro m hm
    rw [hmethods "m" m hm]
    decide +kernel

open Callscope.Tree in
/-- The call in the second method of a name is recorded with the class, not with the method. -/
theorem overload_call_recorded_with_class :
    let t := unitOf [classOf "A"
      [methodOf "m" [] [], methodOf "m" [parameter "x"] [calling "f"]]]
    (collect {} t).fault = none ∧
    ((collect {} t).collector.pool.map ClassEntry.name).Nodup ∧
    t.survey.calls.map (fun k => (k.node.partText 0, k.inside)) = [("f", [1])] ∧
    t.survey.methods[1]?.map MethodSite.key = some (some 0, "m") ∧
    (collect {} t).collector.outline.classes.map (fun x => (x.1, x.2.calls.map Call.value,
      x.2.methods.map fun y => (y.1, y.2.calls.map Call.value))) =
        [("A", ["f"], [("m", [])])] := by
  decide +kernel

end Collector

end Callscope
