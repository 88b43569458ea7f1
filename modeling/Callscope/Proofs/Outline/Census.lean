import Mathlib.Data.List.Nodup
import Mathlib.Data.List.Perm.Basic
import Callscope.Proofs.Outline.Attribution

/-!
# Every call is recorded once

The calls of an outline stand in many lists, one for each class and one for each of its methods. The
places of these lists are all different and every call of the tree goes to one of them, so the lists
together have the calls of the tree, each as often as the tree has it, and each list has its calls in the
order of the tree.
-/

namespace Callscope

open Collector

/-- All calls of an outline, those of each class followed by those of its methods. -/
def Outline.calls (o : Outline) : List Call :=
  o.classes.flatMap fun x => x.2.calls ++ x.2.methods.flatMap fun y => y.2.calls

/-- The calls of a tree in the order in which they begin. -/
def Tree.calls (t : Tree) : List Call :=
  (t.phrasesOf .methodCall).map fun u => callOf u (u.partText 0)

/-- Members that are sorted into places that are all different are all there again. -/
theorem flatMap_filter_perm {α β : Type} [DecidableEq β] (place : α → β) {ps : List β}
    (hn : ps.Nodup) {ks : List α} (h : ∀ k ∈ ks, place k ∈ ps) :
    (ps.flatMap fun p => ks.filter fun k => place k = p).Perm ks := by
  induction ps generalizing ks with
  | nil =>
    obtain rfl := List.eq_nil_iff_forall_not_mem.mpr fun k hk => List.not_mem_nil (h k hk)
    exact List.Perm.refl _
  | cons p ps ih =>
    obtain ⟨hp, hn⟩ := List.nodup_cons.mp hn
    -- What is not in the first place is in the others.
    have hrest : ∀ k ∈ ks.filter fun k => !decide (place k = p), place k ∈ ps := by
      intro k hk
      obtain ⟨hmem, hne⟩ := List.mem_filter.mp hk
      exact (List.mem_cons.mp (h k hmem)).resolve_left (by simpa using hne)
    have hsame : (ps.flatMap fun q => ks.filter fun k => place k = q) =
        ps.flatMap fun q => (ks.filter fun k => !decide (place k = p)).filter
          fun k => place k = q := by
      apply List.flatMap_congr
      intro q hq
      rw [List.filter_filter]
      apply List.filter_congr
      intro k _
      have hne : q ≠ p := fun e => hp (e ▸ hq)
      by_cases hk : place k = q <;> simp [hk, hne]
    rw [List.flatMap_cons, hsame]
    exact ((ih hn hrest).append_left _).trans (List.filter_append_perm _ ks)

namespace Survey

variable {s : Survey}

/-- The places of calls: each class, and each method of it. -/
def places (s : Survey) : List (Option Nat × Option String) :=
  (List.range s.classes.length).flatMap fun i =>
    (some i, none) :: (s.methodsOf i).keys.map fun n => (some i, some n)

theorem nodup_places : s.places.Nodup := by
  rw [places, List.nodup_flatMap]
  refine ⟨fun i _ => ?_, ?_⟩
  · rw [List.nodup_cons]
    refine ⟨by simp, (nodup_keys_methodsOf i).map fun a b hab => ?_⟩
    exact Option.some.inj (Prod.mk.inj hab).2
  · refine List.nodup_range.imp fun {i j} hij => ?_
    -- Places in different classes differ in the class.
    have howner : ∀ {i : Nat} {p : Option Nat × Option String},
        p ∈ (some i, none) :: (s.methodsOf i).keys.map (fun n => (some i, some n)) →
          p.1 = some i := by
      intro i p hp
      rcases List.mem_cons.mp hp with rfl | hp
      · rfl
      · obtain ⟨n, _, rfl⟩ := List.mem_map.mp hp
        rfl
    intro p hi hj
    exact hij (Option.some.inj ((howner hi).symm.trans (howner hj)))

end Survey

namespace Collector

variable {c : Collector} {s : Survey} {stack inside : List Nat}

theorem Surveyed.mem_places (h : Surveyed c s stack inside) {k : CallSite} (hk : k ∈ s.calls) :
    s.place k ∈ s.places := by
  obtain ⟨i, name, hplace, hlt, hname⟩ := h.exists_place hk
  rw [hplace, Survey.places, List.mem_flatMap]
  refine ⟨i, List.mem_range.mpr hlt, ?_⟩
  cases name with
  | none => exact List.mem_cons_self
  | some n =>
    have hn := hname n rfl
    rw [h.methods i (h.count ▸ hlt)] at hn
    exact List.mem_cons_of_mem _ (List.mem_map_of_mem hn)

/-- The calls of the outline are those at the places, one place after the other. -/
theorem Surveyed.calls_outline (h : Surveyed c s stack inside) :
    c.outline.calls = s.places.flatMap s.callsAt := by
  rw [Outline.calls, h.classes_outline, Survey.places, List.flatMap_map, List.flatMap_assoc, h.count]
  apply List.flatMap_congr
  intro i hi
  have hlt := List.mem_range.mp hi
  have hpool : i < c.pool.length := h.count ▸ hlt
  have hmethods : (c.entry i).methods.flatMap (fun y => y.2.calls) =
      (c.entry i).methods.flatMap fun y => s.callsAt (some i, some y.1) := by
    apply List.flatMap_congr
    rintro ⟨name, m⟩ hm
    exact h.calls_of_method hlt hm
  rw [List.flatMap_cons, hmethods, h.calls i hpool, h.methods i hpool, Table.keys, List.map_map,
    List.flatMap_map]
  rfl

/-- The calls at one place come in the order of the tree. -/
theorem callsAt_sublist (t : Tree) (p : Option Nat × Option String) :
    (t.survey.callsAt p).Sublist t.calls := by
  rw [Tree.calls, ← Tree.calls_survey, List.map_map]
  exact List.filter_sublist.map _

/-- No call is lost, made up or recorded twice, if a walk ends without a fault and the classes get
different names: the lists of calls in the outline have together the calls of the tree, each as often as
it stands there, and each list has its calls in the order of the tree. -/
theorem calls_perm (t : Tree) (h : (collect {} t).fault = none)
    (hn : ((collect {} t).collector.pool.map ClassEntry.name).Nodup) :
    let o := (collect {} t).collector.outline
    o.calls.Perm t.calls ∧
    ∀ k e, (k, e) ∈ o.classes → e.calls.Sublist t.calls ∧
      ∀ n m, (n, m) ∈ e.methods → m.calls.Sublist t.calls := by
  intro o
  have hs := surveyed_collect h hn
  refine ⟨?_, ?_⟩
  · have hperm := flatMap_filter_perm t.survey.place t.survey.nodup_places
      (fun k hk => hs.mem_places hk)
    have hcalls : t.survey.calls.map CallSite.call = t.calls := by
      rw [Tree.calls, ← Tree.calls_survey, List.map_map]
      rfl
    have hall := hperm.map CallSite.call
    rw [List.map_flatMap, hcalls] at hall
    rw [hs.calls_outline]
    exact hall
  · intro k e he
    obtain ⟨i, u, hu, hlt, -, rfl⟩ := hs.mem_outline he
    refine ⟨?_, ?_⟩
    · rw [hs.calls i hlt]
      exact callsAt_sublist t _
    · intro n m hm
      rw [hs.calls_of_method (hs.count ▸ hlt) hm]
      exact callsAt_sublist t _

open Callscope.Tree in
/-- Calls of one name in a method, after a class inside of it and in an overload. -/
theorem calls_perm_nested :
    let t := unitOf [classOf "A"
      [methodOf "m" [] [calling "f", classOf "B" [methodOf "n" [] [calling "f"]], calling "f"],
        methodOf "m" [parameter "x"] [calling "g"]]]
    (collect {} t).fault = none ∧
    ((collect {} t).collector.pool.map ClassEntry.name).Nodup ∧
    ((collect {} t).collector.outline.calls.map Call.value).Perm ["f", "f", "f", "g"] := by
  intro t
  have hfault : (collect {} t).fault = none := by decide +kernel
  have hnames : ((collect {} t).collector.pool.map ClassEntry.name).Nodup := by decide +kernel
  have hvalues : t.calls.map Call.value = ["f", "f", "f", "g"] := by decide +kernel
  exact ⟨hfault, hnames, hvalues ▸ (calls_perm t hfault hnames).1.map Call.value⟩

end Collector

end Callscope
