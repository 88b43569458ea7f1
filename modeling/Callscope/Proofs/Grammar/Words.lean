import Callscope.Proofs.Grammar.Form

/-!
# What can be told of a word

Facts about all words of a right-hand side that follow from a computation on it: how many symbols of
some sort a word has at least, which symbols can be in it, and the list of all words where there are
finitely many.
-/

namespace Callscope

namespace Item

/-! ## Symbols that must be there -/

mutual

/-- The fewest symbols of a sort in a word of an item. -/
def least (p : Symbol → Bool) : Item → Nat
  | terminal _ k _ => (p (.token k)).toNat
  | terminalOf _ ks _ => (ks.all fun k => p (.token k)).toNat
  | call _ r _ _ => (p (.phrase r)).toNat
  | branch _ alts => leastAlts p alts
  | loop .. | climb .. => 0
  | loopOnce _ body => leastAll p body

def leastAll (p : Symbol → Bool) : List Item → Nat
  | [] => 0
  | i :: is => least p i + leastAll p is

def leastAlts (p : Symbol → Bool) : List (List Item) → Nat
  | [] => 0
  | a :: as => if as.isEmpty then leastAll p a else min (leastAll p a) (leastAlts p as)

end

mutual

theorem least_le_countP (p : Symbol → Bool) (i : Item) {w : List Symbol} (h : Spells i w) :
    least p i ≤ w.countP p := by
  cases i with
  | terminal s k l =>
    rw [Spells] at h
    rw [h, least, List.countP_singleton]
    cases p (.token k) <;> decide
  | terminalOf s ks l =>
    rw [Spells] at h
    obtain ⟨k, hk, rfl⟩ := h
    rw [least, List.countP_singleton]
    cases hall : ks.all fun k => p (.token k) with
    | false => exact Nat.zero_le _
    | true =>
      rw [List.all_eq_true.mp hall k hk]
      exact Nat.le_refl _
  | call s r v l =>
    rw [Spells] at h
    rw [h, least, List.countP_singleton]
    cases p (.phrase r) <;> decide
  | branch s alts =>
    rw [Spells] at h
    rw [least]
    exact leastAlts_le_countP p alts h
  | loop s body => exact Nat.zero_le _
  | loopOnce s body =>
    rw [Spells] at h
    obtain ⟨ws, hne, rfl, hws⟩ := h
    obtain ⟨u, us, rfl⟩ := List.exists_cons_of_ne_nil hne
    rw [least, List.flatten_cons, List.countP_append]
    have hu := leastAll_le_countP p body (hws u List.mem_cons_self)
    omega
  | climb s ops => exact Nat.zero_le _

theorem leastAll_le_countP (p : Symbol → Bool) (is : List Item) {w : List Symbol}
    (h : SpellsAll is w) : leastAll p is ≤ w.countP p := by
  cases is with
  | nil => exact Nat.zero_le _
  | cons i is =>
    rw [SpellsAll] at h
    obtain ⟨u, v, rfl, hu, hv⟩ := h
    rw [leastAll, List.countP_append]
    have hi := least_le_countP p i hu
    have his := leastAll_le_countP p is hv
    omega

theorem leastAlts_le_countP (p : Symbol → Bool) (as : List (List Item)) {w : List Symbol}
    (h : SpellsOne as w) : leastAlts p as ≤ w.countP p := by
  cases as with
  | nil => exact Nat.zero_le _
  | cons a as =>
    rw [SpellsOne] at h
    rw [leastAlts]
    rcases h with h | h
    · have ha := leastAll_le_countP p a h
      split <;> omega
    · have has := leastAlts_le_countP p as h
      split
      · rename_i hempty
        rw [List.isEmpty_iff.mp hempty, SpellsOne] at h
        exact h.elim
      · omega

end

/-! ## Symbols that can be there -/

mutual

/-- Whether a symbol of a sort can be in a word of an item. -/
def mentions (p : Symbol → Bool) : Item → Bool
  | terminal _ k _ => p (.token k)
  | terminalOf _ ks _ => ks.any fun k => p (.token k)
  | call _ r _ _ => p (.phrase r)
  | branch _ alts => mentionsAlts p alts
  | loop _ body | loopOnce _ body => mentionsAll p body
  | climb .. => false

def mentionsAll (p : Symbol → Bool) : List Item → Bool
  | [] => false
  | i :: is => mentions p i || mentionsAll p is

def mentionsAlts (p : Symbol → Bool) : List (List Item) → Bool
  | [] => false
  | a :: as => mentionsAll p a || mentionsAlts p as

end

mutual

theorem mentions_of_mem (p : Symbol → Bool) (i : Item) {w : List Symbol} (h : Spells i w)
    {s : Symbol} (hs : s ∈ w) (hp : p s = true) : mentions p i = true := by
  cases i with
  | terminal n k l =>
    rw [Spells] at h
    rw [h, List.mem_singleton] at hs
    rw [mentions, ← hs, hp]
  | terminalOf n ks l =>
    rw [Spells] at h
    obtain ⟨k, hk, rfl⟩ := h
    rw [mentions, List.any_eq_true]
    exact ⟨k, hk, List.mem_singleton.mp hs ▸ hp⟩
  | call n r v l =>
    rw [Spells] at h
    rw [h, List.mem_singleton] at hs
    rw [mentions, ← hs, hp]
  | branch n alts =>
    rw [Spells] at h
    rw [mentions]
    exact mentionsAlts_of_mem p alts h hs hp
  | loop n body =>
    rw [Spells] at h
    obtain ⟨ws, rfl, hws⟩ := h
    obtain ⟨u, hu, hs⟩ := List.mem_flatten.mp hs
    rw [mentions]
    exact mentionsAll_of_mem p body (hws u hu) hs hp
  | loopOnce n body =>
    rw [Spells] at h
    obtain ⟨ws, _, rfl, hws⟩ := h
    obtain ⟨u, hu, hs⟩ := List.mem_flatten.mp hs
    rw [mentions]
    exact mentionsAll_of_mem p body (hws u hu) hs hp
  | climb n ops =>
    rw [Spells] at h
    rw [h] at hs
    cases hs

theorem mentionsAll_of_mem (p : Symbol → Bool) (is : List Item) {w : List Symbol}
    (h : SpellsAll is w) {s : Symbol} (hs : s ∈ w) (hp : p s = true) : mentionsAll p is = true := by
  cases is with
  | nil =>
    rw [spellsAll_nil.mp h] at hs
    cases hs
  | cons i is =>
    rw [SpellsAll] at h
    obtain ⟨u, v, rfl, hu, hv⟩ := h
    rw [mentionsAll, Bool.or_eq_true]
    rcases List.mem_append.mp hs with hs | hs
    · exact .inl (mentions_of_mem p i hu hs hp)
    · exact .inr (mentionsAll_of_mem p is hv hs hp)

theorem mentionsAlts_of_mem (p : Symbol → Bool) (as : List (List Item)) {w : List Symbol}
    (h : SpellsOne as w) {s : Symbol} (hs : s ∈ w) (hp : p s = true) :
    mentionsAlts p as = true := by
  cases as with
  | nil => exact h.elim
  | cons a as =>
    rw [SpellsOne] at h
    rw [mentionsAlts, Bool.or_eq_true]
    rcases h with h | h
    · exact .inl (mentionsAll_of_mem p a h hs hp)
    · exact .inr (mentionsAlts_of_mem p as h hs hp)

end

/-- All symbols in a word of an item are of a sort if it has no others. -/
theorem forall_of_spells {p : Symbol → Bool} {i : Item} {w : List Symbol} (h : Spells i w)
    (hi : mentions (fun s => !p s) i = false) : ∀ s ∈ w, p s = true := by
  intro s hs
  cases hp : p s with
  | true => rfl
  | false =>
    rw [mentions_of_mem (fun s => !p s) i h hs (by rw [hp]; rfl)] at hi
    cases hi

/-! ## All words -/

mutual

/-- The words of an item, if it has no loop. -/
def words? : Item → Option (List (List Symbol))
  | terminal _ k _ => some [[.token k]]
  | terminalOf _ ks _ => some (ks.map fun k => [.token k])
  | call _ r _ _ => some [[.phrase r]]
  | branch _ alts => wordsAlts? alts
  | loop .. | loopOnce .. => none
  | climb .. => some [[]]

def wordsAll? : List Item → Option (List (List Symbol))
  | [] => some [[]]
  | i :: is => (words? i).bind fun us => (wordsAll? is).map fun vs =>
    us.flatMap fun u => vs.map fun v => u ++ v

def wordsAlts? : List (List Item) → Option (List (List Symbol))
  | [] => some []
  | a :: as => (wordsAll? a).bind fun us => (wordsAlts? as).map fun vs => us ++ vs

end

mutual

theorem mem_words (i : Item) {w : List Symbol} (h : Spells i w) {ws : List (List Symbol)}
    (hws : words? i = some ws) : w ∈ ws := by
  cases i with
  | terminal s k l =>
    rw [Spells] at h
    cases hws
    exact List.mem_singleton.mpr h
  | terminalOf s ks l =>
    rw [Spells] at h
    obtain ⟨k, hk, rfl⟩ := h
    cases hws
    exact List.mem_map.mpr ⟨k, hk, rfl⟩
  | call s r v l =>
    rw [Spells] at h
    cases hws
    exact List.mem_singleton.mpr h
  | branch s alts =>
    rw [Spells] at h
    rw [words?] at hws
    exact mem_wordsAlts alts h hws
  | loop | loopOnce => cases hws
  | climb s ops =>
    rw [Spells] at h
    cases hws
    exact List.mem_singleton.mpr h

theorem mem_wordsAll (is : List Item) {w : List Symbol} (h : SpellsAll is w)
    {ws : List (List Symbol)} (hws : wordsAll? is = some ws) : w ∈ ws := by
  cases is with
  | nil =>
    cases hws
    exact List.mem_singleton.mpr (spellsAll_nil.mp h)
  | cons i is =>
    rw [SpellsAll] at h
    obtain ⟨u, v, rfl, hu, hv⟩ := h
    rw [wordsAll?] at hws
    obtain ⟨us, hus, hws⟩ := Option.bind_eq_some_iff.mp hws
    obtain ⟨vs, hvs, rfl⟩ := Option.map_eq_some_iff.mp hws
    refine List.mem_flatMap.mpr ⟨u, mem_words i hu hus, ?_⟩
    exact List.mem_map.mpr ⟨v, mem_wordsAll is hv hvs, rfl⟩

theorem mem_wordsAlts (as : List (List Item)) {w : List Symbol} (h : SpellsOne as w)
    {ws : List (List Symbol)} (hws : wordsAlts? as = some ws) : w ∈ ws := by
  cases as with
  | nil => exact h.elim
  | cons a as =>
    rw [SpellsOne] at h
    rw [wordsAlts?] at hws
    obtain ⟨us, hus, hws⟩ := Option.bind_eq_some_iff.mp hws
    obtain ⟨vs, hvs, rfl⟩ := Option.map_eq_some_iff.mp hws
    rcases h with h | h
    · exact List.mem_append_left _ (mem_wordsAll a h hus)
    · exact List.mem_append_right _ (mem_wordsAlts as h hvs)

end

end Item

end Callscope
