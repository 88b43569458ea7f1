import Callscope.Proofs.Outline.Coherence
import Callscope.Proofs.Outline.Survey

/-!
# Walks group what a survey finds

As long as no two classes get the same name, a collector has at every point of a walk exactly what the
survey of the tree has found so far, grouped by class and method. One visit keeps this; by induction
over the tree a whole walk does.
-/

namespace Callscope.Collector

open MethodSite (held holder holder_after holder_append holder_enter held_append isFirst_last)

/-- The classes of a collector have what a survey has found. -/
structure Grouped (c : Collector) (s : Survey) : Prop where
  count : c.pool.length = s.classes.length
  names : ∀ i k, s.classes[i]? = some k → (c.entry i).name = k.partText 1
  classes : c.classes = c.pool.zipIdx.map fun x => (x.1.name, x.2)
  fields : ∀ i < c.pool.length, (c.entry i).fields = s.fieldsOf i
  methods : ∀ i < c.pool.length, (c.entry i).methods = s.methodsOf i
  calls : ∀ i < c.pool.length, (c.entry i).calls = s.callsAt (some i, none)

/-- The same of a collector inside of the classes on the stack and of some methods. -/
structure Surveyed (c : Collector) (s : Survey) (stack inside : List Nat) : Prop
    extends Grouped c s where
  coherent : Coherent c stack
  sound : s.Sound
  placed : ∀ k ∈ s.calls, (s.place k).1.isSome
  method : c.method.map (fun r => (some r.owner, r.name)) =
    (held s.methods s.methods.length inside).map MethodSite.key
  sorted : inside.Pairwise (· > ·)
  inside : ∀ j ∈ inside, j < s.methods.length

theorem surveyed_fresh : Surveyed {} {} [] [] where
  count := rfl
  names := by simp
  classes := rfl
  fields := by simp
  methods := by simp
  calls := by simp
  coherent := coherent_fresh
  sound := ⟨by simp, by simp, by simp, by simp, by simp⟩
  placed := by simp
  method := rfl
  sorted := List.Pairwise.nil
  inside := by simp

section Surveyed

variable {c c' : Collector} {s s' : Survey} {stack inside : List Nat} {t : Tree} {around : List Tree}

/-- Every class is known by its own name. -/
theorem Surveyed.classNamed (h : Surveyed c s stack inside) {i : Nat} (hi : i < c.pool.length) :
    c.classNamed (c.entry i).name = .ok i := by
  have hmem : ((c.entry i).name, i) ∈ c.classes := by
    rw [h.classes, List.mem_map]
    refine ⟨(c.entry i, i), ?_, rfl⟩
    rw [List.mk_mem_zipIdx_iff_getElem?, entry, List.getD_eq_getElem?_getD,
      List.getElem?_eq_getElem hi]
    rfl
  rw [Collector.classNamed, Table.get?_of_mem h.coherent.unique hmem]

/-- Fields, methods and calls go to the class that is open innermost. -/
theorem Surveyed.home (h : Surveyed c s stack inside) {j i : Nat} (hj : c.innermost = .ok j)
    (hi : c.classNamed (c.entry j).name = .ok i) :
    i = j ∧ stack.head? = some j ∧ j < c.pool.length := by
  obtain ⟨below, rfl⟩ := h.coherent.stack_of_innermost hj
  have hlt := (h.coherent.stacked j List.mem_cons_self).1
  rw [h.classNamed hlt] at hi
  cases hi
  exact ⟨rfl, rfl, hlt⟩

/-- A change of one class that keeps its name, next to what it adds to the survey. -/
theorem Grouped.onClass (h : Grouped c s) {i : Nat} {f : ClassEntry → ClassEntry}
    (hname : ∀ e, (f e).name = e.name) (hclasses : s'.classes = s.classes)
    (hsame : ∀ j < c.pool.length, j ≠ i → s'.fieldsOf j = s.fieldsOf j ∧
      s'.methodsOf j = s.methodsOf j ∧ s'.callsAt (some j, none) = s.callsAt (some j, none))
    (hself : i < c.pool.length → (f (c.entry i)).fields = s'.fieldsOf i ∧
      (f (c.entry i)).methods = s'.methodsOf i ∧
      (f (c.entry i)).calls = s'.callsAt (some i, none)) : Grouped (c.onClass i f) s' := by
  have hlen : (c.onClass i f).pool.length = c.pool.length := by simp [Collector.onClass]
  have hentry : ∀ j < c.pool.length, ((c.onClass i f).entry j).fields = s'.fieldsOf j ∧
      ((c.onClass i f).entry j).methods = s'.methodsOf j ∧
      ((c.onClass i f).entry j).calls = s'.callsAt (some j, none) := by
    intro j hj
    rw [entry_onClass]
    by_cases hij : i = j
    · subst hij
      rw [if_pos ⟨rfl, hj⟩]
      exact hself hj
    · obtain ⟨hf, hm, hc⟩ := hsame j hj (Ne.symm hij)
      rw [if_neg (fun hx => hij hx.1), hf, hm, hc]
      exact ⟨h.fields j hj, h.methods j hj, h.calls j hj⟩
  refine ⟨by rw [hlen, hclasses, h.count], ?_, ?_, ?_, ?_, ?_⟩
  · intro j k hk
    rw [name_onClass hname]
    exact h.names j k (hclasses ▸ hk)
  · have hpool : (c.onClass i f).pool.zipIdx.map (fun x => (x.1.name, x.2)) =
        c.pool.zipIdx.map fun x => (x.1.name, x.2) := by
      apply List.ext_getElem?
      intro j
      simp only [Collector.onClass, List.getElem?_map, List.getElem?_zipIdx, List.getElem?_modify]
      by_cases hij : i = j <;> cases c.pool[j]? <;> simp [hij, hname]
    rw [hpool]
    exact h.classes
  · exact fun j hj => (hentry j (hlen ▸ hj)).1
  · exact fun j hj => (hentry j (hlen ▸ hj)).2.1
  · exact fun j hj => (hentry j (hlen ▸ hj)).2.2

/-! ## Entering a class -/

/-- The name of a class is its second part, unless it goes by the name of the class around it. -/
theorem name_of_classHead {head : ClassHead} (h : (c.classHead t).result = .ok head) :
    head.name = t.partText 1 ∨ ∃ j, c.innermost = .ok j ∧ head.name = (c.entry j).name := by
  rw [result_classHead] at h
  obtain ⟨second, hsecond, h⟩ := Noted.bind_eq_ok.mp h
  obtain ⟨found, hfound, h⟩ := Noted.bind_eq_ok.mp h
  split at h
  · cases h
  · rename_i hname
    cases h
    rw [Tree.partText_of_childText hsecond]
    unfold headParts at hfound
    split at hfound
    · simp only [Noted.result_bind, Noted.result_lift, Noted.result_pure] at hfound
      obtain ⟨extends_, _, hfound⟩ := Noted.bind_eq_ok.mp hfound
      obtain ⟨part, _, hfound⟩ := Noted.bind_eq_ok.mp hfound
      obtain ⟨names, _, hfound⟩ := Noted.bind_eq_ok.mp hfound
      cases hfound
      exact Or.inl rfl
    · simp only [Noted.result_bind, Noted.result_lift] at hfound
      obtain ⟨third, _, hfound⟩ := Noted.bind_eq_ok.mp hfound
      split at hfound
      · simp only [Noted.result_bind, Noted.result_lift, Noted.result_pure] at hfound
        obtain ⟨part, _, hfound⟩ := Noted.bind_eq_ok.mp hfound
        obtain ⟨names, _, hfound⟩ := Noted.bind_eq_ok.mp hfound
        cases hfound
        exact Or.inl rfl
      · simp only [Noted.result_bind, Noted.result_lift, Noted.result_pure] at hfound
        obtain ⟨extends_, _, hfound⟩ := Noted.bind_eq_ok.mp hfound
        cases hfound
        exact Or.inl rfl
      · cases hfound
        exact Or.inl rfl
    · cases hfound
      exact Or.inl rfl
    · simp only [Noted.result_bind, Noted.result_lift, Noted.result_pure] at hfound
      obtain ⟨j, hj, hfound⟩ := Noted.bind_eq_ok.mp hfound
      cases hfound
      exact Or.inr ⟨j, hj, rfl⟩
    · cases hfound
      exact absurd rfl hname

theorem pool_opening (c : Collector) (head : ClassHead) : (c.opening head).pool = c.pool ++
    [{ name := head.name, extends_ := head.extends_, implements := head.implements }] := rfl

/-- A class with a name of its own has it from its second part: the class around it would have the
name already. -/
theorem Surveyed.name_of_new (h : Surveyed c s stack inside) {head : ClassHead}
    (hhead : (c.classHead t).result = .ok head) (hnew : head.name ∉ c.pool.map ClassEntry.name) :
    head.name = t.partText 1 := by
  rcases name_of_classHead hhead with hn | ⟨j, hj, hn⟩
  · exact hn
  · obtain ⟨below, rfl⟩ := h.coherent.stack_of_innermost hj
    have hlt := (h.coherent.stacked j List.mem_cons_self).1
    exact absurd (hn ▸ List.mem_map_of_mem (entry_of_lt hlt)) hnew

/-- A new class has nothing yet, and the survey has found nothing of it. -/
theorem Grouped.opening (h : Grouped c s) (hs : s.Sound) {head : ClassHead}
    (hnew : head.name ∉ c.pool.map ClassEntry.name) (hname : head.name = t.partText 1) :
    Grouped (c.opening head) { s with classes := s.classes ++ [t] } := by
  have hlen : (c.opening head).pool.length = c.pool.length + 1 := by simp [pool_opening]
  have hcases : ∀ i < (c.opening head).pool.length,
      i < c.pool.length ∨ i = c.pool.length := by
    intro i hi
    omega
  have hge : s.classes.length ≤ c.pool.length := Nat.le_of_eq h.count.symm
  refine ⟨by simp [hlen, h.count], ?_, ?_, ?_, ?_, ?_⟩
  · intro i k hk
    rcases Nat.lt_or_ge i s.classes.length with hi | hi
    · rw [List.getElem?_append_left hi] at hk
      rw [entry_opening_of_lt head (h.count ▸ hi)]
      exact h.names i k hk
    · rw [List.getElem?_append_right hi, List.getElem?_singleton] at hk
      split at hk
      · cases hk
        have hi' : i = c.pool.length := by rw [h.count]; omega
        rw [hi', entry_opening_self]
        exact hname
      · cases hk
  · have hclasses : (c.opening head).classes = c.classes.put head.name c.pool.length := rfl
    have hkeys : head.name ∉ c.classes.keys := by
      rw [h.classes, Table.keys, List.map_map]
      intro hmem
      obtain ⟨x, hx, hxn⟩ := List.mem_map.mp hmem
      exact hnew (List.mem_map.mpr ⟨x.1, List.fst_mem_of_mem_zipIdx hx, hxn⟩)
    rw [hclasses, Table.put_of_not_mem hkeys, h.classes, pool_opening, List.zipIdx_append,
      List.map_append]
    simp
  · intro i hi
    rcases hcases i hi with hi | rfl
    · rw [entry_opening_of_lt head hi]
      exact h.fields i hi
    · rw [entry_opening_self]
      exact (Survey.fieldsOf_of_le hs hge).symm
  · intro i hi
    rcases hcases i hi with hi | rfl
    · rw [entry_opening_of_lt head hi]
      exact h.methods i hi
    · rw [entry_opening_self]
      exact (Survey.methodsOf_of_le hs hge).symm
  · intro i hi
    rcases hcases i hi with hi | rfl
    · rw [entry_opening_of_lt head hi]
      exact h.calls i hi
    · rw [entry_opening_self]
      exact (Survey.callsAt_of_le hs hge none).symm

theorem Surveyed.opening (h : Surveyed c s stack inside) {head : ClassHead}
    (hhead : (c.classHead t).result = .ok head)
    (hnodup : ((c.opening head).pool.map ClassEntry.name).Nodup) :
    Surveyed (c.opening head) { s with classes := s.classes ++ [t] } (s.classes.length :: stack)
      inside := by
  have hnew : head.name ∉ c.pool.map ClassEntry.name := by
    rw [pool_opening, List.map_append, List.nodup_append] at hnodup
    exact fun hmem => hnodup.2.2 _ hmem _ List.mem_cons_self rfl
  have hcoherent := h.coherent.opening (name_ne_of_classHead hhead)
  rw [h.count] at hcoherent
  exact ⟨h.toGrouped.opening h.sound hnew (h.name_of_new hhead hnew), hcoherent,
    h.sound.addClass t, h.placed, h.method, h.sorted, h.inside⟩

/-! ## Entering a field -/

theorem Surveyed.field (h : Surveyed c s stack inside) (hf : c.fieldOutcome t around = .ok c') :
    Surveyed c' { s with fields := s.fields ++ [⟨t, stack.head?⟩] } stack inside := by
  obtain ⟨j, i, type, define, hj, hi, htype, hdefine, rfl⟩ := fieldOutcome_ok hf
  have hcoherent := h.coherent.update (.field ⟨type, define⟩ hj hi)
  obtain ⟨rfl, hhead, hlt⟩ := h.home hj hi
  rw [hhead]
  have hfield : FieldSite.field ⟨t, some i⟩ = ⟨type, define⟩ := by
    rw [FieldSite.field, Tree.partText_of_childText htype, Tree.partText_of_childText hdefine]
  have hsound : Survey.Sound { s with fields := s.fields ++ [⟨t, some i⟩] } := by
    refine h.sound.addField fun j hj => ?_
    cases hj
    exact h.count ▸ hlt
  refine ⟨h.toGrouped.onClass (fun _ => rfl) rfl ?_ ?_, hcoherent, hsound, h.placed, h.method,
    h.sorted, h.inside⟩
  · intro j _ hne
    rw [Survey.fieldsOf_addField, if_neg (fun he => hne (Option.some.inj he).symm),
      List.append_nil]
    exact ⟨rfl, rfl, rfl⟩
  · intro _
    rw [Survey.fieldsOf_addField, if_pos rfl, hfield]
    exact ⟨congrArg (· ++ [_]) (h.fields i hlt), h.methods i hlt, h.calls i hlt⟩

/-! ## Entering a method -/

/-- What is kept of a method does not depend on the collector. -/
theorem info_of_methodPart {name : String} {m : Method}
    (hname : childText t 1 = .ok name) (hm : (c.methodPart t around name).result = .ok m)
    (owner : Option Nat) :
    { (MethodSite.info ⟨t, owner, around⟩) with calls := [] } = m := by
  have hsame : (({} : Collector).methodPart t around name).result =
      (c.methodPart t around name).result := by
    simp only [methodPart, parametersPart, stage, Noted.result_bind, Noted.result_lift]
    congr 1
    funext returnType
    split
    · rfl
    · simp only [Noted.result_bind, Noted.result_lift, Noted.result_note]
  have hinfo : MethodSite.info ⟨t, owner, around⟩ = m := by
    rw [MethodSite.info, MethodSite.name, Tree.partText_of_childText hname, hsame, hm]
  rw [hinfo, ← (name_calls_of_methodPart hm).2]

/-- A class knows a name just if a method of this key was met before. -/
theorem Grouped.has_method (h : Grouped c s) {m : MethodSite} {j : Nat} {name : String}
    (hj : j < c.pool.length) (hkey : m.key = (some j, name)) :
    (c.entry j).methods.has name = s.methods.any fun m' => m'.key = m.key := by
  rw [Bool.eq_iff_iff, Table.has_iff, h.methods j hj, Survey.mem_keys_methodsOf,
    List.any_eq_true, hkey]
  simp only [decide_eq_true_eq]

/-- The first method of a key is put into its class. -/
theorem Grouped.putMethod (h : Grouped c s) (hs : s.Sound) {i : Nat} {name : String} {m : Method}
    (hi : i < c.pool.length) (hname : childText t 1 = .ok name)
    (hnew : (c.entry i).methods.has name = false)
    (hpart : (c.methodPart t around name).result = .ok m) :
    Grouped (c.onClass i fun e => { e with methods := e.methods.put name m })
      { s with methods := s.methods ++ [⟨t, some i, around⟩] } := by
  have hkey : MethodSite.key ⟨t, some i, around⟩ = (some i, name) :=
    Prod.ext rfl (Tree.partText_of_childText hname)
  have hput : name ∉ (s.methodsOf i).keys := by
    rw [← h.methods i hi, ← Table.has_iff, hnew]
    simp
  refine h.onClass (fun _ => rfl) rfl ?_ ?_
  · intro j _ hne
    rw [Survey.methodsOf_addMethod hs, Survey.callsAt_addMethod hs,
      if_neg (fun hx => hne (Option.some.inj hx.1).symm), List.append_nil]
    exact ⟨rfl, rfl, rfl⟩
  · intro _
    rw [h.has_method hi hkey] at hnew
    rw [Survey.methodsOf_addMethod hs, Survey.callsAt_addMethod hs, if_pos (And.intro rfl hnew),
      info_of_methodPart hname hpart]
    refine ⟨h.fields i hi, ?_, h.calls i hi⟩
    simp only [h.methods i hi]
    rw [Table.put_of_not_mem hput, MethodSite.name, Tree.partText_of_childText hname]

theorem Surveyed.enterMethod (h : Surveyed c s stack inside)
    (hm : c.methodOutcome t around = .ok c') :
    Surveyed c' { s with methods := s.methods ++ [⟨t, stack.head?, around⟩] } stack
      (s.methods.length :: inside) := by
  obtain ⟨name, j, hname, hj, hcase⟩ := methodOutcome_ok hm
  obtain ⟨below, rfl⟩ := h.coherent.stack_of_innermost hj
  have hlt := (h.coherent.stacked j List.mem_cons_self).1
  have hkey : MethodSite.key ⟨t, some j, around⟩ = (some j, name) :=
    Prod.ext rfl (Tree.partText_of_childText hname)
  have hsound : Survey.Sound { s with methods := s.methods ++ [⟨t, some j, around⟩] } := by
    refine h.sound.addMethod fun i hi => ?_
    cases hi
    exact h.count ▸ hlt
  have hplaced : ∀ k ∈ s.calls, (Survey.place
      { s with methods := s.methods ++ [⟨t, some j, around⟩] } k).1.isSome := by
    intro k hk
    rw [Survey.place_addMethod (h.sound.before k hk)]
    exact h.placed k hk
  have hsorted : (s.methods.length :: inside).Pairwise (· > ·) :=
    List.pairwise_cons.mpr ⟨h.inside, h.sorted⟩
  have hinside : ∀ i ∈ s.methods.length :: inside,
      i < (s.methods ++ [(⟨t, some j, around⟩ : MethodSite)]).length := by
    intro i hi
    rw [List.length_append, List.length_singleton]
    rcases List.mem_cons.mp hi with rfl | hi
    · omega
    · have hlt := h.inside i hi
      omega
  have hhas := h.has_method hlt hkey
  have hheld := MethodSite.held_enter s.methods ⟨t, some j, around⟩ inside
  rcases hcase with ⟨hold, rfl⟩ | ⟨hnew, m, i, hpart, hi, rfl⟩
  · rw [hhas] at hold
    have hmethods : ∀ i, Survey.methodsOf
        { s with methods := s.methods ++ [⟨t, some j, around⟩] } i = s.methodsOf i := by
      intro i
      rw [Survey.methodsOf_addMethod h.sound, if_neg (by simp [hold]), List.append_nil]
    refine ⟨⟨h.count, h.names, h.classes, h.fields, ?_, ?_⟩, h.coherent, hsound, hplaced, ?_,
      hsorted, hinside⟩
    · exact fun i hi => (h.methods i hi).trans (hmethods i).symm
    · exact fun i hi => (h.calls i hi).trans (Survey.callsAt_addMethod h.sound _ _).symm
    · rw [hold, if_pos rfl] at hheld
      rw [List.length_append, List.length_singleton]
      exact h.method.trans (congrArg (Option.map MethodSite.key) hheld.symm)
  · obtain ⟨hmname, hmcalls⟩ := name_calls_of_methodPart hpart
    have hcoherent := h.coherent.update (.method hj hnew hi hmname hmcalls)
    obtain ⟨rfl, -, -⟩ := h.home hj hi
    have hgrouped := h.toGrouped.putMethod h.sound hlt hname hnew hpart
    refine ⟨⟨hgrouped.count, hgrouped.names, hgrouped.classes, hgrouped.fields,
      hgrouped.methods, hgrouped.calls⟩, hcoherent, hsound, hplaced, ?_, hsorted, hinside⟩
    rw [← hhas, hnew, if_neg (by simp)] at hheld
    rw [List.length_append, List.length_singleton]
    exact (congrArg some hkey.symm).trans (congrArg (Option.map MethodSite.key) hheld.symm)

/-! ## Entering a call -/

/-- A call is recorded with the method that the collector is in, or else with the innermost class. -/
theorem Surveyed.place_here (h : Surveyed c s stack inside) (t : Tree) :
    s.place ⟨t, stack.head?, inside, s.methods.length⟩ =
      match c.method with
      | some r => (some r.owner, some r.name)
      | none => (stack.head?, none) := by
  have hmethod := h.method
  rw [Survey.place]
  cases hheld : held s.methods s.methods.length inside with
  | none =>
    rw [hheld, Option.map_none, Option.map_eq_none_iff] at hmethod
    rw [hmethod]
  | some m =>
    rw [hheld, Option.map_some] at hmethod
    obtain ⟨r, hr, hkey⟩ := Option.map_eq_some_iff.mp hmethod
    obtain ⟨howner, hname⟩ := Prod.mk.inj hkey
    rw [hr]
    exact Prod.ext howner.symm (congrArg some hname.symm)

theorem Surveyed.enterCall (h : Surveyed c s stack inside) (hc : c.callOutcome t = .ok c') :
    Surveyed c' { s with calls := s.calls ++ [⟨t, stack.head?, inside, s.methods.length⟩] } stack
      inside := by
  have hsound : Survey.Sound
      { s with calls := s.calls ++ [⟨t, stack.head?, inside, s.methods.length⟩] } := by
    refine h.sound.addCall ?_ (Nat.le_refl _) ⟨h.sorted, h.inside⟩
    intro i hi
    exact h.count ▸ (h.coherent.stacked i (List.mem_of_mem_head? hi)).1
  have hplace := h.place_here t
  have hplaced : ∀ p, s.place ⟨t, stack.head?, inside, s.methods.length⟩ = p → p.1.isSome →
      ∀ k ∈ s.calls ++ [⟨t, stack.head?, inside, s.methods.length⟩], (s.place k).1.isSome := by
    intro p hp hsome k hk
    rcases List.mem_append.mp hk with hk | hk
    · exact h.placed k hk
    · rw [List.mem_singleton.mp hk, hp]
      exact hsome
  obtain ⟨value, hvalue, ⟨hm, j, i, hj, hi, rfl⟩ | ⟨r, hr, rfl⟩⟩ := callOutcome_ok hc
  · have hcoherent := h.coherent.update (.classCall (callOf t value) hm hj hi)
    obtain ⟨rfl, hhead, hlt⟩ := h.home hj hi
    rw [hm, hhead] at hplace
    rw [hhead] at hsound hplaced ⊢
    refine ⟨h.toGrouped.onClass (fun _ => rfl) rfl ?_ ?_, hcoherent, hsound,
      hplaced _ hplace rfl, h.method, h.sorted, h.inside⟩
    · intro j _ hne
      rw [Survey.methodsOf_addCall_of_ne (by simp [hplace]), Survey.callsAt_addCall, hplace,
        if_neg (by simp [Ne.symm hne]), List.append_nil]
      exact ⟨rfl, rfl, rfl⟩
    · intro _
      rw [Survey.methodsOf_addCall_of_ne (by simp [hplace]), Survey.callsAt_addCall, hplace,
        if_pos rfl, CallSite.call, Tree.partText_of_childText hvalue]
      exact ⟨h.fields i hlt, h.methods i hlt, congrArg (· ++ [_]) (h.calls i hlt)⟩
  · have hcoherent := h.coherent.update (.methodCall (callOf t value) hr)
    have hlt := h.coherent.inside r hr
    rw [hr] at hplace
    refine ⟨h.toGrouped.onClass (fun _ => rfl) rfl ?_ ?_, hcoherent, hsound,
      hplaced _ hplace rfl, h.method, h.sorted, h.inside⟩
    · intro j _ hne
      rw [Survey.methodsOf_addCall_of_ne (by simp [hplace, Ne.symm hne]), Survey.callsAt_addCall,
        hplace, if_neg (by simp), List.append_nil]
      exact ⟨rfl, rfl, rfl⟩
    · intro _
      rw [Survey.methodsOf_addCall hplace, Survey.callsAt_addCall, hplace, if_neg (by simp),
        List.append_nil, CallSite.call, Tree.partText_of_childText hvalue]
      exact ⟨h.fields _ hlt, congrArg (Table.modify r.name _) (h.methods _ hlt), h.calls _ hlt⟩

/-! ## Leaving a class or a method -/

theorem Surveyed.closing {i : Nat} (h : Surveyed c s (i :: stack) inside) :
    Surveyed c.closing s stack inside :=
  ⟨⟨h.count, h.names, h.classes, h.fields, h.methods, h.calls⟩, h.coherent.closing, h.sound,
    h.placed, h.method, h.sorted, h.inside⟩

theorem Surveyed.exitMethod {n : Nat} (h : Surveyed c s stack (n :: inside)) :
    Surveyed { c with method := none } s stack inside := by
  obtain ⟨hbelow, hsorted⟩ := List.pairwise_cons.mp h.sorted
  have hn := h.inside n List.mem_cons_self
  refine ⟨⟨h.count, h.names, h.classes, h.fields, h.methods, h.calls⟩,
    h.coherent.update .left, h.sound, h.placed, ?_, hsorted,
    fun j hj => h.inside j (List.mem_cons_of_mem _ hj)⟩
  rw [MethodSite.held_after fun j hj => by have hlt := hbelow j hj; omega]
  rfl

/-! ## Whole walks -/

/-- A walk only adds to the names of the classes. -/
theorem names_of_outcome {v : Visit} (h : c.outcome v = .ok c') :
    ∃ more, c'.pool.map ClassEntry.name = c.pool.map ClassEntry.name ++ more := by
  have hkeeps : ∀ i (f : ClassEntry → ClassEntry), (∀ e, (f e).name = e.name) →
      (c.onClass i f).pool.map ClassEntry.name = c.pool.map ClassEntry.name ++ [] := by
    intro i f hf
    rw [List.append_nil]
    apply List.ext_getElem?
    intro j
    simp only [Collector.onClass, List.getElem?_map, List.getElem?_modify]
    by_cases hij : i = j <;> cases c.pool[j]? <;> simp [hij, hf]
  cases change_of_outcome h with
  | opened head named => exact ⟨[head.name], by rw [pool_opening, List.map_append]; rfl⟩
  | closed inner => exact ⟨[], (List.append_nil _).symm⟩
  | updated update =>
    cases update with
    | same | package | importName | left => exact ⟨[], (List.append_nil _).symm⟩
    | field | method | classCall | methodCall => exact ⟨[], hkeeps _ _ fun _ => rfl⟩

theorem names_of_follow (c : Collector) (vs : List Visit) : ∃ more,
    (c.follow vs).collector.pool.map ClassEntry.name = c.pool.map ClassEntry.name ++ more :=
  follow_keeps (P := fun d => ∃ more,
      d.pool.map ClassEntry.name = c.pool.map ClassEntry.name ++ more)
    (fun hv ⟨more, hmore⟩ => by
      obtain ⟨next, hnext⟩ := names_of_outcome hv
      exact ⟨more ++ next, by rw [hnext, hmore, List.append_assoc]⟩) vs ⟨[], by simp⟩

theorem names_of_passes {vs : List Visit} (h : Passes c vs c') :
    ∃ more, c'.pool.map ClassEntry.name = c.pool.map ClassEntry.name ++ more :=
  h.2 ▸ names_of_follow c vs

theorem nodup_of_passes {vs : List Visit} (h : Passes c vs c')
    (hn : (c'.pool.map ClassEntry.name).Nodup) : (c.pool.map ClassEntry.name).Nodup := by
  obtain ⟨more, hmore⟩ := names_of_passes h
  rw [hmore, List.nodup_append] at hn
  exact hn.1

/-- The classes open around the parts of a node. -/
def stackIn (s : Survey) (stack : List Nat) (t : Tree) : List Nat :=
  if t.declaresClass then s.classes.length :: stack else stack

theorem head?_stackIn (s : Survey) (stack : List Nat) (t : Tree) :
    (stackIn s stack t).head? = s.ownerIn stack.head? t := by
  rw [stackIn, Survey.ownerIn]
  split <;> rfl

theorem Surveyed.enter (h : Surveyed c s stack inside)
    (hd : c.outcome (.enter t around) = .ok c') (hn : (c'.pool.map ClassEntry.name).Nodup) :
    Surveyed c' (s.note stack.head? inside around t) (stackIn s stack t) (s.insideIn inside t) := by
  cases ht : t.declaresClass with
  | true =>
    rw [outcome_enterClass ht] at hd
    obtain ⟨head, hhead, hd⟩ := Noted.bind_eq_ok.mp hd
    cases hd
    have hstep := h.opening hhead hn
    rcases Tree.declaresClass_iff.mp ht with hr | hr <;>
      simpa [Survey.note, stackIn, Survey.insideIn, ht, hr] using hstep
  | false =>
    rw [stackIn, ht, if_neg (by simp)]
    simp only [outcome] at hd
    simp only [Survey.note, Survey.insideIn]
    split at hd
    · rename_i hr
      obtain ⟨name, _, hd⟩ := Noted.bind_eq_ok.mp hd
      cases hd
      simp only [hr]
      exact ⟨⟨h.count, h.names, h.classes, h.fields, h.methods, h.calls⟩,
        h.coherent.update (.package name), h.sound, h.placed, h.method, h.sorted, h.inside⟩
    · rename_i hr
      obtain ⟨name, _, hd⟩ := Noted.bind_eq_ok.mp hd
      cases hd
      simp only [hr]
      exact ⟨⟨h.count, h.names, h.classes, h.fields, h.methods, h.calls⟩,
        h.coherent.update (.importName name), h.sound, h.placed, h.method, h.sorted,
        h.inside⟩
    · rename_i hr
      simp [Tree.declaresClass, hr] at ht
    · rename_i hr
      simp [Tree.declaresClass, hr] at ht
    · rename_i hr
      simp only [hr]
      exact h.field hd
    · rename_i hr
      simp only [hr]
      exact h.enterMethod hd
    · rename_i hr
      simp only [hr]
      exact h.enterCall hd
    · rename_i hmethod _
      cases hd
      rw [if_neg hmethod]
      split <;> first | contradiction | exact h

theorem Surveyed.exit {before : Survey} (h : Surveyed c s (stackIn before stack t)
    (before.insideIn inside t)) (he : c.outcome (.exit t around) = .ok c') :
    Surveyed c' s stack inside := by
  cases ht : t.declaresClass with
  | true =>
    rw [outcome_exitClass ht] at he
    obtain ⟨_, _, he⟩ := Noted.bind_eq_ok.mp he
    obtain ⟨_, _, he⟩ := Noted.bind_eq_ok.mp he
    cases he
    have hr : t.rule? ≠ some .methodDeclaration := by
      intro hr
      simp [Tree.declaresClass, hr] at ht
    rw [stackIn, ht, if_pos rfl, Survey.insideIn, if_neg hr] at h
    exact h.closing
  | false =>
    rw [stackIn, ht, if_neg (by simp)] at h
    simp only [outcome] at he
    split at he
    · rename_i hr
      simp [Tree.declaresClass, hr] at ht
    · rename_i hr
      simp [Tree.declaresClass, hr] at ht
    · rename_i hr
      obtain ⟨_, _, he⟩ := Noted.bind_eq_ok.mp he
      cases he
      rw [Survey.insideIn, if_pos hr] at h
      exact h.exitMethod
    · rename_i hr
      cases he
      rw [Survey.insideIn, if_neg hr] at h
      exact h

end Surveyed

/-- A walk that passes groups what the survey of the tree finds. -/
theorem surveyed_of_passes (t : Tree) :
    ∀ {around c c' s stack inside}, Surveyed c s stack inside → Passes c (t.visits around) c' →
      (c'.pool.map ClassEntry.name).Nodup →
      Surveyed c' (t.surveyFrom stack.head? inside around s) stack inside := by
  induction t using tree_induction with
  | hleaf t ht =>
    intro around c c' s stack inside h hp hn
    rw [passes_leaf ht] at hp
    subst hp
    cases t with
    | node => simp [Tree.rule?] at ht
    | token | skipped | missing => simpa only [Tree.surveyFrom] using h
  | hnode r first last labels children ih =>
    intro around c c' s stack inside h hp hn
    obtain ⟨d, e, hd, hchildren, he⟩ := passes_node.mp hp
    have hexit : Passes e [.exit (.node r first last labels children) around] c' :=
      passes_cons.mpr ⟨c', he, passes_nil.mpr rfl⟩
    have hne := nodup_of_passes hexit hn
    have hall : ∀ (ts : List Tree), (∀ t ∈ ts, t ∈ children) →
        ∀ {around d s stack inside}, Surveyed d s stack inside →
        Passes d (Tree.visitsAll around ts) e →
        Surveyed e (Tree.surveyAll stack.head? inside around s ts) stack inside := by
      intro ts
      induction ts with
      | nil =>
        intro _ around d s stack inside hd hp
        rw [visitsAll_nil, passes_nil] at hp
        subst hp
        simpa only [Tree.surveyAll] using hd
      | cons t ts iht =>
        intro hmem around d s stack inside hd hp
        obtain ⟨d', ht, hts⟩ := passes_visitsAll_cons.mp hp
        rw [Tree.surveyAll]
        exact iht (fun u hu => hmem u (List.mem_cons_of_mem _ hu))
          (ih t (hmem t List.mem_cons_self) hd ht (nodup_of_passes hts hne)) hts
    have henter := h.enter hd (nodup_of_passes hchildren hne)
    have hinner := hall children (fun _ ht => ht) henter hchildren
    rw [head?_stackIn] at hinner
    rw [Tree.surveyFrom]
    exact hinner.exit he

/-- The same of a walk through a whole tree. -/
theorem surveyed_collect {t : Tree} (h : (collect {} t).fault = none)
    (hn : ((collect {} t).collector.pool.map ClassEntry.name).Nodup) :
    Surveyed (collect {} t).collector t.survey [] [] :=
  surveyed_of_passes t surveyed_fresh ⟨h, rfl⟩ hn

end Callscope.Collector
