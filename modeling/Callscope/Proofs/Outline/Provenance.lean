import Callscope.Proofs.Outline.Census

/-!
# Where names and calls come from

A collector makes up neither names nor calls: the key of a class or a method is the text of the name in
some declaration, and a call is what some call phrase says. So whatever is true of the names and calls of
all the nodes that a walk enters is true of all that it records. One visit keeps this, and so does every
walk, also one that a fault cuts short.
-/

namespace Callscope

open Collector

/-- The name of a class or of a method that a node declares, and the call that it is, are of given
sorts. -/
structure Tree.Brings (name : String → Prop) (call : Call → Prop) (t : Tree) : Prop where
  declared : t.declaresClass = true ∨ t.rule? = some .methodDeclaration → name (t.partText 1)
  called : t.rule? = some .methodCall → call (callOf t (t.partText 0))

/-- The method keys and the calls of a class are of given sorts. -/
structure ClassEntry.Holds (name : String → Prop) (call : Call → Prop) (e : ClassEntry) : Prop where
  methods : ∀ n m, (n, m) ∈ e.methods → name n ∧ ∀ k ∈ m.calls, call k
  calls : ∀ k ∈ e.calls, call k

/-- A class without methods and calls has nothing of any other sort. -/
theorem ClassEntry.holds_of_nil {name : String → Prop} {call : Call → Prop} {e : ClassEntry}
    (hmethods : e.methods = []) (hcalls : e.calls = []) : e.Holds name call := by
  refine ⟨fun n m hm => ?_, fun k hk => ?_⟩
  · rw [hmethods] at hm
    cases hm
  · rw [hcalls] at hk
    cases hk

/-- All keys and calls of an outline are of given sorts. -/
structure Outline.Holds (name : String → Prop) (call : Call → Prop) (o : Outline) : Prop where
  classes : ∀ k e, (k, e) ∈ o.classes → name k
  methods : ∀ k e, (k, e) ∈ o.classes → ∀ n m, (n, m) ∈ e.methods → name n
  calls : ∀ k ∈ o.calls, call k

namespace Collector

variable {name : String → Prop} {call : Call → Prop} {c c' : Collector} {t : Tree}
  {around : List Tree}

/-- All names and calls in a collector are of given sorts. -/
structure Holds (name : String → Prop) (call : Call → Prop) (c : Collector) : Prop where
  keys : ∀ k ∈ c.classes.keys, name k
  names : ∀ e ∈ c.pool, name e.name
  entries : ∀ e ∈ c.pool, e.Holds name call

theorem holds_fresh : Holds name call {} := ⟨nofun, nofun, nofun⟩

/-- Only the class of the number is changed. -/
theorem mem_pool_onClass {i : Nat} {f : ClassEntry → ClassEntry} {e : ClassEntry}
    (h : e ∈ (c.onClass i f).pool) : e ∈ c.pool ∨ i < c.pool.length ∧ e = f (c.entry i) := by
  obtain ⟨j, hj⟩ := List.mem_iff_getElem?.mp h
  rw [onClass, List.getElem?_modify] at hj
  obtain ⟨d, hd, rfl⟩ := Option.map_eq_some_iff.mp hj
  split
  · rename_i hij
    subst hij
    refine .inr ⟨(List.getElem?_eq_some_iff.mp hd).1, ?_⟩
    rw [entry, List.getD_eq_getElem?_getD, hd, Option.getD_some]
  · exact .inl (List.mem_of_getElem? hd)

theorem Holds.onClass (h : Holds name call c) {i : Nat} {f : ClassEntry → ClassEntry}
    (hname : ∀ e, (f e).name = e.name) (hf : ∀ e, e.Holds name call → (f e).Holds name call) :
    Holds name call (c.onClass i f) := by
  refine ⟨h.keys, fun e he => ?_, fun e he => ?_⟩
  · rcases mem_pool_onClass he with he | ⟨hi, rfl⟩
    · exact h.names e he
    · rw [hname]
      exact h.names _ (entry_of_lt hi)
  · rcases mem_pool_onClass he with he | ⟨hi, rfl⟩
    · exact h.entries e he
    · exact hf _ (h.entries _ (entry_of_lt hi))

theorem Holds.opening (h : Holds name call c) {head : ClassHead} (hname : name head.name) :
    Holds name call (c.opening head) := by
  refine ⟨fun k hk => ?_, fun e he => ?_, fun e he => ?_⟩
  · obtain ⟨⟨k', i⟩, hmem, rfl⟩ := List.mem_map.mp hk
    rcases Table.mem_put hmem with ⟨rfl, _⟩ | hmem
    · exact hname
    · exact h.keys _ (Table.mem_keys_of_mem hmem)
  · rw [pool_opening] at he
    rcases List.mem_append.mp he with he | he
    · exact h.names e he
    · rw [List.mem_singleton.mp he]
      exact hname
  · rw [pool_opening] at he
    rcases List.mem_append.mp he with he | he
    · exact h.entries e he
    · rw [List.mem_singleton.mp he]
      exact ClassEntry.holds_of_nil rfl rfl

/-- A class goes by the name in its declaration or by that of a class that is there already. -/
theorem Holds.classHead (h : Holds name call c) (hdeclared : name (t.partText 1))
    {head : ClassHead} (hhead : (c.classHead t).result = .ok head) : name head.name := by
  rcases name_of_classHead hhead with hn | ⟨j, _, hn⟩
  · rw [hn]
    exact hdeclared
  · by_cases hj : j < c.pool.length
    · rw [hn]
      exact h.names _ (entry_of_lt hj)
    · -- A number without a class has no name.
      rw [entry_of_le (Nat.le_of_not_lt hj)] at hn
      exact absurd hn (name_ne_of_classHead hhead)

theorem Holds.addMethod (h : Holds name call c) (hdeclared : name (t.partText 1))
    (hc : c.methodOutcome t around = .ok c') : Holds name call c' := by
  obtain ⟨n, j, hn, _, ⟨_, rfl⟩ | ⟨_, m, i, hm, _, rfl⟩⟩ := methodOutcome_ok hc
  · exact h
  · rw [Tree.partText_of_childText hn] at hdeclared
    have hput : Holds name call
        (c.onClass i fun e => { e with methods := e.methods.put n m }) := by
      refine h.onClass (fun _ => rfl) fun e he => ⟨fun n' m' hmem => ?_, he.calls⟩
      rcases Table.mem_put hmem with ⟨rfl, rfl⟩ | hmem
      · rw [(name_calls_of_methodPart hm).2]
        exact ⟨hdeclared, nofun⟩
      · exact he.methods n' m' hmem
    exact ⟨hput.keys, hput.names, hput.entries⟩

theorem Holds.addCall (h : Holds name call c) (hcalled : call (callOf t (t.partText 0)))
    (hc : c.callOutcome t = .ok c') : Holds name call c' := by
  -- The call is added at the end of a list of calls.
  have hadd : ∀ {ks : List Call}, (∀ k ∈ ks, call k) →
      ∀ k ∈ ks ++ [callOf t (t.partText 0)], call k := by
    intro ks hks k hk
    rcases List.mem_append.mp hk with hk | hk
    · exact hks k hk
    · rw [List.mem_singleton.mp hk]
      exact hcalled
  obtain ⟨value, hvalue, ⟨_, j, i, _, _, rfl⟩ | ⟨m, _, rfl⟩⟩ := callOutcome_ok hc
  · rw [Tree.partText_of_childText hvalue] at hadd
    exact h.onClass (fun _ => rfl) fun e he => ⟨he.methods, hadd he.calls⟩
  · rw [Tree.partText_of_childText hvalue] at hadd
    refine h.onClass (fun _ => rfl) fun e he => ⟨fun n m' hmem => ?_, he.calls⟩
    obtain ⟨old, hold, hnew⟩ := Table.mem_modify hmem
    obtain ⟨hn, hcalls⟩ := he.methods n old hold
    rcases hnew with rfl | rfl
    · exact ⟨hn, hcalls⟩
    · exact ⟨hn, hadd hcalls⟩

/-- A visit records nothing but what the node brings. -/
theorem Holds.enter (h : Holds name call c) (ht : t.Brings name call)
    (hc : c.outcome (.enter t around) = .ok c') : Holds name call c' := by
  cases hd : t.declaresClass with
  | true =>
    rw [outcome_enterClass hd] at hc
    obtain ⟨head, hhead, hc⟩ := Noted.bind_eq_ok.mp hc
    cases hc
    exact h.opening (h.classHead (ht.declared (.inl hd)) hhead)
  | false =>
    simp only [outcome] at hc
    split at hc
    · obtain ⟨_, _, hc⟩ := Noted.bind_eq_ok.mp hc
      cases hc
      exact ⟨h.keys, h.names, h.entries⟩
    · obtain ⟨_, _, hc⟩ := Noted.bind_eq_ok.mp hc
      cases hc
      exact ⟨h.keys, h.names, h.entries⟩
    · rename_i hr
      rw [Tree.declaresClass_iff.mpr (.inl hr)] at hd
      cases hd
    · rename_i hr
      rw [Tree.declaresClass_iff.mpr (.inr hr)] at hd
      cases hd
    · obtain ⟨_, i, _, _, _, _, _, _, rfl⟩ := fieldOutcome_ok hc
      exact h.onClass (fun _ => rfl) fun e he => ⟨he.methods, he.calls⟩
    · rename_i hr
      exact h.addMethod (ht.declared (.inr hr)) hc
    · rename_i hr
      exact h.addCall (ht.called hr) hc
    · cases hc
      exact h

theorem Holds.exit (h : Holds name call c) (hc : c.outcome (.exit t around) = .ok c') :
    Holds name call c' := by
  obtain ⟨hclasses, hpool⟩ := classes_pool_of_exit hc
  refine ⟨?_, ?_, ?_⟩
  · rw [hclasses]
    exact h.keys
  · rw [hpool]
    exact h.names
  · rw [hpool]
    exact h.entries

theorem Holds.outline (h : Holds name call c) : c.outline.Holds name call := by
  have hentry : ∀ k e, (k, e) ∈ c.outline.classes → name k ∧ e.Holds name call := by
    intro k e hmem
    obtain ⟨⟨k', i⟩, hk, heq⟩ := List.mem_map.mp hmem
    cases heq
    refine ⟨h.keys k (Table.mem_keys_of_mem hk), ?_⟩
    by_cases hi : i < c.pool.length
    · exact h.entries _ (entry_of_lt hi)
    · rw [entry_of_le (Nat.le_of_not_lt hi)]
      exact ClassEntry.holds_of_nil rfl rfl
  refine ⟨fun k e hmem => (hentry k e hmem).1,
    fun k e hmem n m hm => ((hentry k e hmem).2.methods n m hm).1, fun k hk => ?_⟩
  obtain ⟨⟨key, e⟩, hmem, hk⟩ := List.mem_flatMap.mp hk
  obtain ⟨_, hmethods, hcalls⟩ := hentry key e hmem
  rcases List.mem_append.mp hk with hk | hk
  · exact hcalls k hk
  · obtain ⟨⟨n, m⟩, hm, hk⟩ := List.mem_flatMap.mp hk
    exact (hmethods n m hm).2 k hk

/-- An outline has nothing but what the nodes of the walk bring. -/
theorem holds_collect (h : ∀ u above, .enter u above ∈ t.walk → u.Brings name call) :
    (collect {} t).collector.outline.Holds name call := by
  refine Holds.outline (follow_keeps_of_mem (P := Holds name call) ?_ holds_fresh)
  intro c c' v hv hc hholds
  cases v with
  | leaf u =>
    cases hc
    exact hholds
  | enter u above => exact hholds.enter (h u above hv) hc
  | exit u above => exact hholds.exit hc

end Collector

end Callscope
