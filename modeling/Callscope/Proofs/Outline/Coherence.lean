import Callscope.Proofs.Outline.Change

/-!
# Coherent collectors

The counter of a collector and its table of open classes belong together: a class is open at each depth
from 1 to the counter and at no other. Every open class has a name under which some class is known, every
known class goes by the name it is known under, and every method too. One visit keeps this, so it holds
at every point of every session, also one in which walks were broken off.
-/

namespace Callscope.Collector

/-! ## Tables by depth -/

/-- Numbers at the depths from `d` on. -/
def levels (d : Int) : List Nat → Table Int Nat
  | [] => []
  | i :: is => (d, i) :: levels (d + 1) is

theorem levels_concat (d : Int) (is : List Nat) (i : Nat) :
    levels d (is ++ [i]) = levels d is ++ [(d + is.length, i)] := by
  induction is generalizing d with
  | nil => simp [levels]
  | cons j is ih =>
    rw [List.cons_append, levels, ih, levels, List.cons_append]
    have hd : d + 1 + (is.length : Int) = d + ((j :: is).length : Int) := by
      rw [List.length_cons]
      omega
    rw [hd]

theorem mem_keys_levels (d k : Int) (is : List Nat) :
    k ∈ (levels d is).keys ↔ d ≤ k ∧ k < d + is.length := by
  induction is generalizing d with
  | nil =>
    simp only [levels, Table.keys, List.map_nil, List.not_mem_nil, List.length_nil, false_iff]
    omega
  | cons j is ih =>
    rw [levels, Table.keys_cons, List.mem_cons, ih, List.length_cons]
    omega

theorem mem_of_mem_levels {d k : Int} {i : Nat} {is : List Nat} (h : (k, i) ∈ levels d is) :
    i ∈ is := by
  induction is generalizing d with
  | nil => simp [levels] at h
  | cons j is ih =>
    rw [levels, List.mem_cons] at h
    rcases h with h | h
    · exact (Prod.mk.inj h).2 ▸ List.mem_cons_self
    · exact List.mem_cons_of_mem _ (ih h)

theorem nodup_keys_levels (d : Int) (is : List Nat) : (levels d is).keys.Nodup := by
  induction is generalizing d with
  | nil => exact List.nodup_nil
  | cons j is ih =>
    rw [levels, Table.keys_cons, List.nodup_cons, mem_keys_levels]
    exact ⟨by omega, ih (d + 1)⟩

/-- The entry at the greatest depth. -/
theorem get?_levels_last (d : Int) (is : List Nat) :
    (levels d is).get? (d + is.length - 1) = is.getLast? := by
  induction is generalizing d with
  | nil => rfl
  | cons j is ih =>
    rw [levels, Table.get?_cons]
    cases is with
    | nil => simp
    | cons i is =>
      have hd : d + ((j :: i :: is).length : Int) - 1 = d + 1 + ((i :: is).length : Int) - 1 := by
        simp only [List.length_cons]
        omega
      rw [hd, ih (d + 1), if_neg (by rw [List.length_cons]; omega), List.getLast?_cons_cons]

/-! ## Classes by number -/

theorem entry_of_lt {c : Collector} {i : Nat} (h : i < c.pool.length) : c.entry i ∈ c.pool := by
  rw [entry, List.getD_eq_getElem?_getD, List.getElem?_eq_getElem h]
  exact List.getElem_mem h

theorem entry_of_le {c : Collector} {i : Nat} (h : c.pool.length ≤ i) : c.entry i = {} := by
  rw [entry, List.getD_eq_getElem?_getD, List.getElem?_eq_none h]
  rfl

theorem entry_onClass (c : Collector) (i j : Nat) (f : ClassEntry → ClassEntry) :
    (c.onClass i f).entry j = if i = j ∧ j < c.pool.length then f (c.entry j) else c.entry j := by
  simp only [entry, onClass, List.getD_eq_getElem?_getD, List.getElem?_modify]
  by_cases hj : j < c.pool.length
  · by_cases hi : i = j <;> simp [hi, hj]
  · simp [hj]

theorem name_onClass {f : ClassEntry → ClassEntry} (hf : ∀ e, (f e).name = e.name)
    (c : Collector) (i j : Nat) : ((c.onClass i f).entry j).name = (c.entry j).name := by
  rw [entry_onClass]
  split
  · exact hf _
  · rfl

theorem entry_opening_of_lt {c : Collector} {j : Nat} (head : ClassHead) (h : j < c.pool.length) :
    (c.opening head).entry j = c.entry j := by
  simp only [entry, opening, declare, List.getD_eq_getElem?_getD, List.getElem?_append_left h]

theorem entry_opening_self (c : Collector) (head : ClassHead) :
    (c.opening head).entry c.pool.length =
      { name := head.name, extends_ := head.extends_, implements := head.implements } := by
  simp [entry, opening, declare]

/-! ## Coherence -/

/-- The collector is inside of the classes on the stack, innermost first, and goes by its names. -/
structure Coherent (c : Collector) (stack : List Nat) : Prop where
  opened : c.opened = levels 1 stack.reverse
  depth : c.depth = stack.length
  stacked : ∀ i ∈ stack, i < c.pool.length ∧ (c.entry i).name ∈ c.classes.keys
  unique : c.classes.keys.Nodup
  named : ∀ k i, (k, i) ∈ c.classes → i < c.pool.length ∧ (c.entry i).name = k ∧ k ≠ ""
  methods : ∀ e ∈ c.pool, ∀ n m, (n, m) ∈ e.methods → m.name = n
  inside : ∀ m, c.method = some m → m.owner < c.pool.length

theorem coherent_fresh : Coherent {} [] where
  opened := rfl
  depth := rfl
  stacked := by simp
  unique := List.nodup_nil
  named := by simp
  methods := by simp
  inside := by simp

section Coherent

variable {c c' : Collector} {stack : List Nat} {i : Nat}

theorem Coherent.innermost_nil (h : Coherent c []) : c.innermost = .error (.noOpenClass 0) := by
  have hd : c.depth = 0 := h.depth
  simp [innermost, h.opened, hd, levels, Table.get?_nil]

theorem Coherent.innermost_cons (h : Coherent c (i :: stack)) : c.innermost = .ok i := by
  have hl := get?_levels_last 1 (i :: stack).reverse
  have hd : (1 : Int) + ((i :: stack).reverse.length : Int) - 1 = c.depth := by
    rw [h.depth, List.length_reverse]
    omega
  rw [hd, List.getLast?_reverse, List.head?_cons] at hl
  rw [innermost, h.opened, hl]

/-- The class that is open innermost is the top of the stack. -/
theorem Coherent.stack_of_innermost (h : Coherent c stack) (hi : c.innermost = .ok i) :
    ∃ below, stack = i :: below := by
  cases stack with
  | nil =>
    rw [h.innermost_nil] at hi
    cases hi
  | cons j below =>
    rw [h.innermost_cons] at hi
    cases hi
    exact ⟨below, rfl⟩

/-- The name of an open class is always known. -/
theorem Coherent.classNamed_entry (h : Coherent c (i :: stack)) :
    ∃ j, c.classNamed (c.entry i).name = .ok j := by
  obtain ⟨j, hj⟩ := Table.exists_get?_of_mem_keys (h.stacked i List.mem_cons_self).2
  exact ⟨j, by rw [classNamed, hj]⟩

theorem Coherent.opening (h : Coherent c stack) {head : ClassHead} (hn : head.name ≠ "") :
    Coherent (c.opening head) (c.pool.length :: stack) where
  opened := by
    have hk : c.depth + 1 ∉ c.opened.keys := by
      rw [h.opened, mem_keys_levels, List.length_reverse, h.depth]
      omega
    have hd : c.depth + 1 = 1 + (stack.reverse.length : Int) := by
      rw [h.depth, List.length_reverse]
      omega
    simp only [Collector.opening]
    rw [Table.put_of_not_mem hk, List.reverse_cons, levels_concat, ← hd, ← h.opened]
  depth := by
    simp only [Collector.opening, h.depth, List.length_cons]
    omega
  stacked := by
    intro i hi
    have hkeys : ∀ k ∈ c.classes.keys, k ∈ (c.opening head).classes.keys := by
      intro k hk
      simp only [Collector.opening, declare, Table.keys_put]
      split
      · exact hk
      · exact List.mem_append_left _ hk
    rcases List.mem_cons.mp hi with rfl | hi
    · refine ⟨by simp [Collector.opening, declare], ?_⟩
      rw [entry_opening_self]
      simp only [Collector.opening, declare, Table.keys_put]
      split
      · assumption
      · exact List.mem_append_right _ List.mem_cons_self
    · obtain ⟨hlt, hk⟩ := h.stacked i hi
      rw [entry_opening_of_lt head hlt]
      refine ⟨?_, hkeys _ hk⟩
      simp only [Collector.opening, declare, List.length_append, List.length_singleton]
      omega
  unique := by
    simp only [Collector.opening, declare, Table.keys_put]
    split
    · exact h.unique
    · rename_i hk
      exact List.nodup_append.mpr ⟨h.unique, by simp, by
        intro a ha b hb
        rw [List.mem_singleton.mp hb]
        rintro rfl
        exact hk ha⟩
  named := by
    intro k i hk
    have hlen : (c.opening head).pool.length = c.pool.length + 1 := by
      simp [Collector.opening, declare]
    rcases Table.mem_put hk with ⟨rfl, rfl⟩ | hk
    · rw [entry_opening_self, hlen]
      exact ⟨by omega, rfl, hn⟩
    · obtain ⟨hlt, hname, hne⟩ := h.named k i hk
      rw [entry_opening_of_lt head hlt, hlen]
      exact ⟨by omega, hname, hne⟩
  methods := by
    intro e he n m hm
    simp only [Collector.opening, declare, List.mem_append, List.mem_singleton] at he
    rcases he with he | rfl
    · exact h.methods e he n m hm
    · simp at hm
  inside := by
    intro m hm
    have hlt := h.inside m hm
    simp only [Collector.opening, declare, List.length_append, List.length_singleton]
    omega

theorem Coherent.closing (h : Coherent c (i :: stack)) : Coherent c.closing stack where
  opened := by
    have hd : c.depth = 1 + (stack.reverse.length : Int) := by
      rw [h.depth, List.length_reverse, List.length_cons]
      omega
    have hk : c.depth ∉ (levels 1 stack.reverse).keys := by
      rw [mem_keys_levels, hd]
      omega
    simp only [Collector.closing]
    rw [h.opened, List.reverse_cons, levels_concat, ← hd, Table.erase_append_singleton hk]
  depth := by
    simp only [Collector.closing, h.depth, List.length_cons]
    omega
  stacked := fun j hj => h.stacked j (List.mem_cons_of_mem _ hj)
  unique := h.unique
  named := h.named
  methods := h.methods
  inside := h.inside

/-- Changing a class keeps coherence as long as it keeps its name and those of its methods. -/
theorem Coherent.onClass (h : Coherent c stack) (i : Nat) {f : ClassEntry → ClassEntry}
    (hname : ∀ e, (f e).name = e.name)
    (hf : ∀ e, (∀ n m, (n, m) ∈ e.methods → m.name = n) →
      ∀ n m, (n, m) ∈ (f e).methods → m.name = n) :
    Coherent (c.onClass i f) stack where
  opened := h.opened
  depth := h.depth
  stacked := by
    intro j hj
    rw [name_onClass hname]
    simpa [Collector.onClass] using h.stacked j hj
  unique := h.unique
  named := by
    intro k j hk
    rw [name_onClass hname]
    simpa [Collector.onClass] using h.named k j hk
  methods := by
    intro e he
    obtain ⟨k, hlt, rfl⟩ := List.getElem_of_mem he
    have hk : k < c.pool.length := by simpa [Collector.onClass] using hlt
    have hold := h.methods c.pool[k] (List.getElem_mem hk)
    simp only [Collector.onClass, List.getElem_modify]
    split
    · exact hf _ hold
    · exact hold
  inside := by
    intro m hm
    simpa [Collector.onClass] using h.inside m hm

/-- A name stands for a class that there is. -/
theorem Coherent.lt_of_classNamed (h : Coherent c stack) {name : String}
    (hi : c.classNamed name = .ok i) :
    i < c.pool.length ∧ (c.entry i).name = name ∧ name ≠ "" := by
  rw [classNamed] at hi
  split at hi
  · rename_i j hj
    cases hi
    exact h.named name i (Table.mem_of_get? hj)
  · cases hi

end Coherent

/-- An update keeps coherence, and the same classes stay open. -/
theorem Coherent.update {c c' : Collector} {stack : List Nat} (h : Coherent c stack)
    (hu : Update c c') : Coherent c' stack := by
  cases hu with
  | same => exact h
  | package name =>
    exact ⟨h.opened, h.depth, h.stacked, h.unique, h.named, h.methods, h.inside⟩
  | importName name =>
    exact ⟨h.opened, h.depth, h.stacked, h.unique, h.named, h.methods, h.inside⟩
  | field field inner home => exact h.onClass _ (fun _ => rfl) fun _ he => he
  | @method j i name m inner new home named fresh =>
    have hput := h.onClass i (f := fun e => { e with methods := e.methods.put name m })
      (fun _ => rfl) fun e he n m' hm => by
        rcases Table.mem_put hm with ⟨rfl, rfl⟩ | hm
        · exact named
        · exact he n m' hm
    refine ⟨hput.opened, hput.depth, hput.stacked, hput.unique, hput.named, hput.methods, ?_⟩
    intro m' hm'
    cases hm'
    simpa [Collector.inMethod, Collector.onClass] using (h.lt_of_classNamed home).1
  | left =>
    exact ⟨h.opened, h.depth, h.stacked, h.unique, h.named, h.methods, by simp⟩
  | classCall call outside inner home => exact h.onClass _ (fun _ => rfl) fun _ he => he
  | methodCall call inside =>
    refine h.onClass _ (fun _ => rfl) fun e he n m' hm => ?_
    obtain ⟨m, hold, rfl | rfl⟩ := Table.mem_modify hm
    · exact he n m' hold
    · exact he n m hold

/-- Every change keeps coherence. -/
theorem Coherent.change {c c' : Collector} {stack : List Nat} (h : Coherent c stack)
    (hc : Change c c') : ∃ stack', Coherent c' stack' := by
  cases hc with
  | updated update => exact ⟨stack, h.update update⟩
  | opened head named => exact ⟨_, h.opening named⟩
  | closed inner =>
    obtain ⟨below, rfl⟩ := h.stack_of_innermost inner
    exact ⟨below, h.closing⟩

theorem coherent_follow {c : Collector} {stack : List Nat} (h : Coherent c stack)
    (vs : List Visit) : ∃ stack', Coherent (c.follow vs).collector stack' :=
  follow_keeps (P := fun c => ∃ stack, Coherent c stack)
    (fun hv ⟨_, hs⟩ => hs.change (change_of_outcome hv)) vs ⟨stack, h⟩

/-! ## Walks without a fault -/

/-- A walk through a tree that passes leaves the same classes open as before. -/
theorem Coherent.passes {t : Tree} {around : List Tree} {c c' : Collector} {stack : List Nat}
    (h : Coherent c stack) (hp : Passes c (t.visits around) c') : Coherent c' stack := by
  refine passes_rec (R := fun c c' => ∀ stack, Coherent c stack → Coherent c' stack)
    (fun _ _ h => h) (fun hab hbc stack h => hbc stack (hab stack h)) ?_ t hp stack h
  intro t around c d e c' hd hin he stack h
  cases ht : t.declaresClass with
  | false => exact (hin stack (h.update (update_of_enter ht hd))).update (update_of_exit ht he)
  | true =>
    rw [outcome_enterClass ht] at hd
    obtain ⟨head, hhead, hd⟩ := Noted.bind_eq_ok.mp hd
    cases hd
    rw [outcome_exitClass ht] at he
    obtain ⟨_, _, he⟩ := Noted.bind_eq_ok.mp he
    obtain ⟨i, _, he⟩ := Noted.bind_eq_ok.mp he
    cases he
    exact (hin _ (h.opening (name_ne_of_classHead hhead))).closing

/-- A walk that begins outside of any method ends there. -/
theorem method_of_passes {t : Tree} {around : List Tree} {c c' : Collector}
    (h : c.method = none) (hp : Passes c (t.visits around) c') : c'.method = none := by
  refine passes_rec (R := fun c c' => c.method = none → c'.method = none)
    (fun _ h => h) (fun hab hbc h => hbc (hab h)) ?_ t hp h
  intro t around c d e c' hd hin he h
  rw [method_of_exit he]
  split
  · rfl
  · rename_i ht
    exact hin ((method_of_enter ht hd).trans h)

/-! ## Sessions -/

/-- The collector after several walks, each broken off after some number of visits unless a fault
ends it before. -/
def afterWalks (c : Collector) (walks : List (Tree × Nat)) : Collector :=
  walks.foldl (fun c w => (c.follow (w.1.walk.take w.2)).collector) c

theorem coherent_afterWalks {c : Collector} {stack : List Nat} (h : Coherent c stack)
    (walks : List (Tree × Nat)) : ∃ stack', Coherent (c.afterWalks walks) stack' := by
  induction walks generalizing c stack with
  | nil => exact ⟨stack, h⟩
  | cons w walks ih =>
    obtain ⟨stack', h'⟩ := coherent_follow h (w.1.walk.take w.2)
    exact ih h'

/-- At every point of every session the depths of the open classes are the numbers from 1 to the
counter, every open class goes by a known name, and every class and method is kept under its own
name, which no class lacks. -/
theorem session_invariant (walks : List (Tree × Nat)) :
    let c := afterWalks {} walks
    (0 ≤ c.depth ∧ c.opened.keys.Nodup ∧ ∀ d, d ∈ c.opened.keys ↔ 1 ≤ d ∧ d ≤ c.depth) ∧
    (∀ d i, (d, i) ∈ c.opened → i < c.pool.length ∧ (c.entry i).name ∈ c.outline.classes.keys) ∧
    (∀ k e, (k, e) ∈ c.outline.classes → e ∈ c.pool ∧ e.name = k ∧ k ≠ "") ∧
    (∀ e ∈ c.pool, ∀ k m, (k, m) ∈ e.methods → m.name = k) := by
  intro c
  obtain ⟨stack, h⟩ : ∃ stack, Coherent c stack := coherent_afterWalks coherent_fresh walks
  refine ⟨⟨?_, ?_, ?_⟩, ?_, ?_, h.methods⟩
  · have hd := h.depth
    omega
  · rw [h.opened]
    exact nodup_keys_levels 1 _
  · intro d
    rw [h.opened, mem_keys_levels, List.length_reverse, h.depth]
    omega
  · intro d i hi
    have hkeys : c.outline.classes.keys = c.classes.keys := by
      simp [outline, Table.keys]
    rw [h.opened] at hi
    rw [hkeys]
    exact h.stacked i (List.mem_reverse.mp (mem_of_mem_levels hi))
  · intro k e he
    obtain ⟨⟨k', i⟩, hi, heq⟩ := List.mem_map.mp he
    obtain ⟨rfl, rfl⟩ := Prod.mk.inj heq
    obtain ⟨hlt, hname, hne⟩ := h.named _ _ hi
    exact ⟨entry_of_lt hlt, hname, hne⟩

end Callscope.Collector
