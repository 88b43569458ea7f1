import Mathlib.Data.Nat.Bitwise
import Callscope.Proofs.Grammar.Sites

/-!
# Looks of a grammar

What can come next at the sites of a grammar. Looks one after the other form a monoid, and the look of a
site has everything that can come after one step in the network. The tables hold at each site the look
and the decision that the grammar gives it.
-/

namespace Callscope

theorem Kind.all_ctorIdx (k : Kind) : Kind.all[k.ctorIdx]? = some k := by
  cases k <;> rfl

theorem Kind.ctorIdx_inj {k l : Kind} (h : k.ctorIdx = l.ctorIdx) : k = l := by
  have hk := Kind.all_ctorIdx k
  rw [h, Kind.all_ctorIdx l] at hk
  cases hk
  rfl

namespace KindSet

variable {s t : KindSet} {k l : Kind}

@[simp] theorem contains_empty (k : Kind) : empty.contains k = false := Nat.zero_testBit _

@[simp] theorem contains_union :
    (s.union t).contains k = (s.contains k || t.contains k) :=
  Nat.testBit_or ..

theorem contains_insert : (s.insert l).contains k = true ↔ s.contains k = true ∨ k = l := by
  have hbit : (1 <<< l.ctorIdx).testBit k.ctorIdx = true ↔ k = l := by
    rw [Nat.one_shiftLeft, Nat.testBit_two_pow, decide_eq_true_iff]
    exact ⟨fun h => Kind.ctorIdx_inj h.symm, fun h => by rw [h]⟩
  rw [contains, insert, Nat.testBit_or, Bool.or_eq_true, hbit]
  rfl

theorem contains_singleton : (singleton l).contains k = true ↔ k = l := by
  simp [singleton, contains_insert]

theorem contains_ofList {ks : List Kind} : (ofList ks).contains k = true ↔ k ∈ ks := by
  have hfold : ∀ (s : KindSet),
      (ks.foldl insert s).contains k = true ↔ s.contains k = true ∨ k ∈ ks := by
    induction ks with
    | nil => simp
    | cons l ks ih => intro s; rw [List.foldl_cons, ih, contains_insert, List.mem_cons, or_assoc]
  rw [ofList, hfold]
  simp

theorem union_assoc (s t u : KindSet) : (s.union t).union u = s.union (t.union u) :=
  congrArg mk (Nat.or_assoc ..)

@[simp] theorem union_empty (s : KindSet) : s.union empty = s := congrArg mk (Nat.or_zero _)

@[simp] theorem empty_union (s : KindSet) : empty.union s = s := congrArg mk (Nat.zero_or _)

end KindSet

/-! ## Looks one after the other -/

namespace Look

variable {a b c d : Look} {k : Kind}

@[simp] theorem done_andThen (a : Look) : done.andThen a = a := by
  simp [done, andThen]

@[simp] theorem andThen_done (a : Look) : a.andThen done = a := by
  obtain ⟨s, ends, guarded⟩ := a
  cases ends <;> simp [done, andThen]

theorem andThen_assoc (a b c : Look) : (a.andThen b).andThen c = a.andThen (b.andThen c) := by
  cases ha : a.ends <;> cases hb : b.ends <;>
    simp [andThen, ha, hb, KindSet.union_assoc, Bool.or_assoc]

theorem andThen_of_not_ends (ha : a.ends = false) (b : Look) : a.andThen b = a := by
  simp [andThen, ha]

@[simp] theorem ends_andThen : (a.andThen b).ends = (a.ends && b.ends) := by
  cases ha : a.ends <;> simp [andThen, ha]

theorem contains_andThen : (a.andThen b).kinds.contains k = true ↔
    a.kinds.contains k = true ∨ a.ends = true ∧ b.kinds.contains k = true := by
  cases ha : a.ends <;> simp [andThen, ha]

@[simp] theorem ends_or : (a.or b).ends = (a.ends || b.ends) := rfl

theorem contains_or : (a.or b).kinds.contains k = true ↔
    a.kinds.contains k = true ∨ b.kinds.contains k = true := by
  simp [or]

/-- What can come with one look can come with the other. -/
def Below (a b : Look) : Prop :=
  (∀ k, a.kinds.contains k = true → b.kinds.contains k = true) ∧ (a.ends = true → b.ends = true)

theorem Below.refl (a : Look) : a.Below a := ⟨fun _ h => h, fun h => h⟩

theorem Below.trans (h : a.Below b) (h' : b.Below c) : a.Below c :=
  ⟨fun k hk => h'.1 k (h.1 k hk), fun he => h'.2 (h.2 he)⟩

theorem Below.andThen (h : a.Below b) (h' : c.Below d) : (a.andThen c).Below (b.andThen d) := by
  refine ⟨fun k hk => ?_, fun he => ?_⟩
  · rcases contains_andThen.mp hk with hk | ⟨he, hk⟩
    · exact contains_andThen.mpr (.inl (h.1 k hk))
    · exact contains_andThen.mpr (.inr ⟨h.2 he, h'.1 k hk⟩)
  · simp only [ends_andThen, Bool.and_eq_true] at he ⊢
    exact ⟨h.2 he.1, h'.2 he.2⟩

theorem below_or_left (a b : Look) : a.Below (a.or b) :=
  ⟨fun _ hk => contains_or.mpr (.inl hk), fun he => by simp [he]⟩

theorem below_or_right (a b : Look) : b.Below (a.or b) :=
  ⟨fun _ hk => contains_or.mpr (.inr hk), fun he => by simp [he]⟩

/-- A token of the kind can come, or nothing. -/
def Admits (l : Look) (k : Kind) : Prop := l.kinds.contains k = true ∨ l.ends = true

theorem ofItems_below_ofAlts {rules : Rule → Look} {alts : List (List Item)} {a : List Item}
    (h : a ∈ alts) : (ofItems rules a).Below (ofAlts rules alts) := by
  induction alts with
  | nil => cases h
  | cons b alts ih =>
    rw [ofAlts]
    rcases List.mem_cons.mp h with rfl | h
    · exact below_or_left ..
    · exact (ih h).trans (below_or_right ..)

theorem ofItems_below_ofOps {rules : Rule → Look} {ops : List (Nat × List Item)}
    {op : Nat × List Item} (h : op ∈ ops) : (ofItems rules op.2).Below (ofOps rules ops) := by
  induction ops with
  | nil => cases h
  | cons o ops ih =>
    obtain ⟨v, a⟩ := o
    rw [ofOps]
    rcases List.mem_cons.mp h with rfl | h
    · exact below_or_left ..
    · exact (ih h).trans (below_or_right ..)

theorem exists_of_contains_ofAlts {rules : Rule → Look} {alts : List (List Item)}
    (h : (ofAlts rules alts).kinds.contains k = true) :
    ∃ a ∈ alts, (ofItems rules a).kinds.contains k = true := by
  induction alts with
  | nil => simp [ofAlts, none] at h
  | cons a alts ih =>
    rcases contains_or.mp h with h | h
    · exact ⟨a, List.mem_cons_self, h⟩
    · obtain ⟨b, hb, hk⟩ := ih h
      exact ⟨b, List.mem_cons_of_mem _ hb, hk⟩

theorem ofOps_not_ends {rules : Rule → Look} {ops : List (Nat × List Item)}
    (h : ∀ op ∈ ops, (ofItems rules op.2).ends = false) : (ofOps rules ops).ends = false := by
  induction ops with
  | nil => rfl
  | cons op ops ih =>
    obtain ⟨v, a⟩ := op
    have ha : (ofItems rules a).ends = false := h (v, a) List.mem_cons_self
    rw [ofOps, ends_or, ha, ih fun o ho => h o (List.mem_cons_of_mem _ ho)]
    rfl

end Look

end Callscope
