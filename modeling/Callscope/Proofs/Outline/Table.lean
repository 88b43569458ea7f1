import Callscope.Outline.Basic

/-!
# Tables

What a table holds after an entry was put in, changed or taken out, said through `get?`, through the
list of keys and through the list of entries. A key that is put in again keeps its place.
-/

namespace Callscope.Table

variable {κ α β : Type}

theorem keys_cons (k : κ) (a : α) (t : Table κ α) : keys ((k, a) :: t) = k :: keys t := rfl

theorem mem_keys_of_mem {t : Table κ α} {k : κ} {a : α} (h : (k, a) ∈ t) : k ∈ t.keys :=
  List.mem_map_of_mem h

/-- The table with all its entries changed. -/
def mapValues (f : α → β) (t : Table κ α) : Table κ β := t.map fun x => (x.1, f x.2)

theorem mapValues_cons (f : α → β) (k : κ) (a : α) (t : Table κ α) :
    mapValues f ((k, a) :: t) = (k, f a) :: mapValues f t := rfl

variable [DecidableEq κ]

theorem get?_nil (key : κ) : get? ([] : Table κ α) key = none := rfl

theorem get?_cons (k : κ) (a : α) (t : Table κ α) (key : κ) :
    get? ((k, a) :: t) key = if k = key then some a else get? t key := by
  by_cases h : k = key
  · simp [get?, h]
  · have hb : (key == k) = false := by simpa using fun e => h e.symm
    simp [get?, List.lookup_cons, hb, h]

theorem mem_of_get? {t : Table κ α} {key : κ} {a : α} (h : t.get? key = some a) :
    (key, a) ∈ t := by
  induction t with
  | nil => simp [get?_nil] at h
  | cons x t ih =>
    obtain ⟨k, b⟩ := x
    rw [get?_cons] at h
    by_cases hk : k = key
    · rw [if_pos hk] at h
      obtain rfl := Option.some.inj h
      exact hk ▸ List.mem_cons_self
    · rw [if_neg hk] at h
      exact List.mem_cons_of_mem _ (ih h)

theorem exists_get?_of_mem_keys {t : Table κ α} {key : κ} (h : key ∈ t.keys) :
    ∃ a, t.get? key = some a := by
  induction t with
  | nil => simp [keys] at h
  | cons x t ih =>
    obtain ⟨k, b⟩ := x
    rw [get?_cons]
    by_cases hk : k = key
    · exact ⟨b, if_pos hk⟩
    · rw [keys_cons, List.mem_cons] at h
      obtain ⟨a, ha⟩ := ih (h.resolve_left fun e => hk e.symm)
      exact ⟨a, by rw [if_neg hk]; exact ha⟩

theorem has_iff {t : Table κ α} {key : κ} : t.has key = true ↔ key ∈ t.keys := by
  constructor
  · intro h
    obtain ⟨a, ha⟩ := Option.isSome_iff_exists.mp h
    exact mem_keys_of_mem (mem_of_get? ha)
  · intro h
    obtain ⟨a, ha⟩ := exists_get?_of_mem_keys h
    simp [has, ha]

/-! ## Putting an entry in -/

theorem get?_put (t : Table κ α) (k : κ) (a : α) (key : κ) :
    (t.put k a).get? key = if k = key then some a else t.get? key := by
  induction t with
  | nil => rw [put, get?_cons]
  | cons x t ih =>
    obtain ⟨k', b⟩ := x
    rw [put]
    by_cases hk : k' = k
    · rw [if_pos hk, get?_cons, get?_cons, hk]
      by_cases hkey : k = key <;> simp [hkey]
    · rw [if_neg hk, get?_cons, get?_cons, ih]
      by_cases hkey : k' = key
      · rw [if_pos hkey, if_pos hkey, if_neg (fun e => hk (hkey.trans e.symm))]
      · rw [if_neg hkey, if_neg hkey]

theorem keys_put (t : Table κ α) (k : κ) (a : α) :
    (t.put k a).keys = if k ∈ t.keys then t.keys else t.keys ++ [k] := by
  induction t with
  | nil => rfl
  | cons x t ih =>
    obtain ⟨k', b⟩ := x
    rw [put]
    by_cases hk : k' = k
    · simp [hk, keys]
    · rw [if_neg hk, keys_cons, keys_cons, ih]
      by_cases hm : k ∈ keys t
      · simp [hm]
      · simp [hm, Ne.symm hk]

theorem mem_put {t : Table κ α} {k key : κ} {a b : α} (h : (key, b) ∈ t.put k a) :
    (key = k ∧ b = a) ∨ (key, b) ∈ t := by
  induction t with
  | nil => simpa [put] using h
  | cons x t ih =>
    obtain ⟨k', b'⟩ := x
    rw [put] at h
    by_cases hk : k' = k
    · rw [if_pos hk, List.mem_cons] at h
      rcases h with h | h
      · left; rw [← hk]; simpa using h
      · exact Or.inr (List.mem_cons_of_mem _ h)
    · rw [if_neg hk, List.mem_cons] at h
      rcases h with h | h
      · exact Or.inr (h ▸ List.mem_cons_self)
      · exact (ih h).imp id (List.mem_cons_of_mem _)

/-- A new key goes to the end. -/
theorem put_of_not_mem {t : Table κ α} {k : κ} (h : k ∉ t.keys) (a : α) :
    t.put k a = t ++ [(k, a)] := by
  induction t with
  | nil => rfl
  | cons x t ih =>
    obtain ⟨k', b⟩ := x
    rw [keys_cons, List.mem_cons, not_or] at h
    rw [put, if_neg (fun e => h.1 e.symm), ih h.2, List.cons_append]

/-! ## Changing an entry and taking one out -/

theorem mem_modify {t : Table κ α} {k key : κ} {f : α → α} {b : α}
    (h : (key, b) ∈ t.modify k f) : ∃ a, (key, a) ∈ t ∧ (b = a ∨ b = f a) := by
  induction t with
  | nil => simp [modify] at h
  | cons x t ih =>
    obtain ⟨k', b'⟩ := x
    rw [modify] at h
    by_cases hk : k' = k
    · rw [if_pos hk, List.mem_cons] at h
      rcases h with h | h
      · obtain ⟨rfl, rfl⟩ := Prod.mk.inj h
        exact ⟨b', List.mem_cons_self, Or.inr rfl⟩
      · exact ⟨b, List.mem_cons_of_mem _ h, Or.inl rfl⟩
    · rw [if_neg hk, List.mem_cons] at h
      rcases h with h | h
      · obtain ⟨rfl, rfl⟩ := Prod.mk.inj h
        exact ⟨b, List.mem_cons_self, Or.inl rfl⟩
      · obtain ⟨a, ha, hb⟩ := ih h
        exact ⟨a, List.mem_cons_of_mem _ ha, hb⟩

/-- Only the entry that is found under the key is changed. -/
theorem mem_or_get?_of_mem_modify {t : Table κ α} {k key : κ} {f : α → α} {b : α}
    (h : (key, b) ∈ t.modify k f) : (key, b) ∈ t ∨ ∃ a, t.get? k = some a ∧ b = f a := by
  induction t with
  | nil => cases h
  | cons x t ih =>
    obtain ⟨k', b'⟩ := x
    rw [modify] at h
    rw [get?_cons]
    by_cases hk : k' = k
    · rw [if_pos hk, List.mem_cons] at h
      rcases h with h | h
      · obtain ⟨rfl, rfl⟩ := Prod.mk.inj h
        exact .inr ⟨b', if_pos hk, rfl⟩
      · exact .inl (List.mem_cons_of_mem _ h)
    · rw [if_neg hk, List.mem_cons] at h
      rw [if_neg hk]
      rcases h with h | h
      · rw [h]
        exact .inl List.mem_cons_self
      · rcases ih h with h | h
        · exact .inl (List.mem_cons_of_mem _ h)
        · exact .inr h

theorem get?_modify (t : Table κ α) (k : κ) (f : α → α) (key : κ) :
    (t.modify k f).get? key = if k = key then (t.get? key).map f else t.get? key := by
  induction t with
  | nil => simp [modify, get?_nil]
  | cons x t ih =>
    obtain ⟨k', b⟩ := x
    rw [modify]
    by_cases hk : k' = k
    · subst hk
      rw [if_pos rfl, get?_cons, get?_cons]
      by_cases hkey : k' = key <;> simp [hkey]
    · rw [if_neg hk, get?_cons, get?_cons, ih]
      by_cases hkey : k' = key
      · rw [if_pos hkey, if_pos hkey, if_neg (fun e => hk (hkey.trans e.symm))]
      · rw [if_neg hkey, if_neg hkey]

/-- The last entry is taken out if its key stands nowhere else. -/
theorem keys_erase (t : Table κ α) (k : κ) : (t.erase k).keys = t.keys.erase k := by
  induction t with
  | nil => rfl
  | cons x t ih =>
    obtain ⟨k', a⟩ := x
    rw [erase, keys_cons, List.erase_cons]
    by_cases hk : k' = k
    · rw [if_pos hk, if_pos (by simpa using hk)]
    · rw [if_neg hk, if_neg (by simpa using hk), keys_cons, ih]

theorem erase_append_singleton {t : Table κ α} {k : κ} (h : k ∉ t.keys) (a : α) :
    erase k (t ++ [(k, a)]) = t := by
  induction t with
  | nil => simp [erase]
  | cons x t ih =>
    obtain ⟨k', b⟩ := x
    rw [keys_cons, List.mem_cons, not_or] at h
    rw [List.cons_append, erase, if_neg (fun e => h.1 e.symm), ih h.2]

/-! ## Changing all entries -/

omit [DecidableEq κ] in
theorem keys_mapValues (f : α → β) (t : Table κ α) : (t.mapValues f).keys = t.keys := by
  simp [mapValues, keys]

theorem get?_mapValues (f : α → β) (t : Table κ α) (key : κ) :
    (t.mapValues f).get? key = (t.get? key).map f := by
  induction t with
  | nil => rfl
  | cons x t ih =>
    obtain ⟨k, a⟩ := x
    rw [mapValues_cons, get?_cons, get?_cons, ih]
    split <;> rfl

theorem mapValues_put (f : α → β) (t : Table κ α) (k : κ) (a : α) :
    (t.put k a).mapValues f = (t.mapValues f).put k (f a) := by
  induction t with
  | nil => rfl
  | cons x t ih =>
    obtain ⟨k', b⟩ := x
    rw [mapValues_cons, put, put]
    by_cases hk : k' = k
    · rw [if_pos hk, if_pos hk, mapValues_cons]
    · rw [if_neg hk, if_neg hk, mapValues_cons, ih]

theorem mapValues_erase (f : α → β) (t : Table κ α) (k : κ) :
    (t.erase k).mapValues f = (t.mapValues f).erase k := by
  induction t with
  | nil => rfl
  | cons x t ih =>
    obtain ⟨k', b⟩ := x
    rw [mapValues_cons, erase, erase]
    by_cases hk : k' = k
    · rw [if_pos hk, if_pos hk]
    · rw [if_neg hk, if_neg hk, mapValues_cons, ih]

theorem mapValues_modify {f : α → β} {g : α → α} {h : β → β} (hg : ∀ a, f (g a) = h (f a))
    (t : Table κ α) (k : κ) : (t.modify k g).mapValues f = (t.mapValues f).modify k h := by
  induction t with
  | nil => rfl
  | cons x t ih =>
    obtain ⟨k', b⟩ := x
    rw [mapValues_cons, modify, modify]
    by_cases hk : k' = k
    · rw [if_pos hk, if_pos hk, mapValues_cons, hg]
    · rw [if_neg hk, if_neg hk, mapValues_cons, ih]

theorem has_mapValues (f : α → β) (t : Table κ α) (key : κ) :
    (t.mapValues f).has key = t.has key := by
  simp [has, get?_mapValues]

/-! ## One table over another -/

/-- The entries of a table, with those of a second one in their place, and then the entries of the
second one under new keys. -/
def merge (t u : Table κ α) : Table κ α :=
  (t.map fun x => (x.1, (u.get? x.1).getD x.2)) ++ u.filter fun x => !t.has x.1

theorem merge_nil (t : Table κ α) : merge t [] = t := by
  simp [merge, get?_nil]

theorem get?_append (t u : Table κ α) (key : κ) :
    get? (t ++ u) key = (t.get? key).or (u.get? key) := by
  induction t with
  | nil => rfl
  | cons x t ih =>
    obtain ⟨k, a⟩ := x
    rw [List.cons_append, get?_cons, get?_cons, ih]
    split <;> rfl

theorem get?_filter_keys (p : κ → Bool) (t : Table κ α) (key : κ) :
    get? (t.filter fun x => p x.1) key = if p key then t.get? key else none := by
  induction t with
  | nil => simp [get?_nil]
  | cons x t ih =>
    obtain ⟨k, a⟩ := x
    rw [get?_cons, List.filter_cons]
    by_cases hk : k = key
    · subst hk
      by_cases hp : p k
      · rw [if_pos hp, get?_cons, if_pos rfl, if_pos rfl, if_pos hp]
      · rw [if_neg hp, ih]
        simp [hp]
    · rw [if_neg hk]
      split
      · rw [get?_cons, if_neg hk, ih]
      · exact ih

/-- The second table goes before the first. -/
theorem get?_merge (t u : Table κ α) (key : κ) :
    (merge t u).get? key = (u.get? key).or (t.get? key) := by
  have hfst : get? (t.map fun x => (x.1, (u.get? x.1).getD x.2)) key =
      (t.get? key).map fun a => (u.get? key).getD a := by
    induction t with
    | nil => rfl
    | cons x t ih =>
      obtain ⟨k, a⟩ := x
      rw [List.map_cons, get?_cons, get?_cons, ih]
      by_cases hk : k = key <;> simp [hk]
  have hsnd := get?_filter_keys (fun k => !t.has k) u key
  rw [merge, get?_append, hfst, hsnd]
  cases ht : t.get? key with
  | none =>
    have hh : t.has key = false := by simp [has, ht]
    simp [hh]
  | some a => cases u.get? key <;> rfl

theorem put_append (t u : Table κ α) (k : κ) (a : α) :
    put k a (t ++ u) = if k ∈ t.keys then put k a t ++ u else t ++ put k a u := by
  induction t with
  | nil => simp [keys]
  | cons x t ih =>
    obtain ⟨k', b⟩ := x
    rw [List.cons_append, put, put, keys_cons]
    by_cases hk : k' = k
    · simp [hk]
    · rw [if_neg hk, if_neg hk, ih]
      have hm : k ∈ k' :: keys t ↔ k ∈ keys t := by simp [Ne.symm hk]
      by_cases ht : k ∈ keys t
      · rw [if_pos ht, if_pos (hm.mpr ht), List.cons_append]
      · rw [if_neg ht, if_neg (fun h => ht (hm.mp h)), List.cons_append]

theorem put_eq_map {t : Table κ α} {k : κ} (hn : t.keys.Nodup) (hk : k ∈ t.keys) (a : α) :
    put k a t = t.map fun x => (x.1, if k = x.1 then a else x.2) := by
  induction t with
  | nil => simp [keys] at hk
  | cons x t ih =>
    obtain ⟨k', b⟩ := x
    rw [keys_cons, List.nodup_cons] at hn
    rw [put, List.map_cons]
    by_cases he : k' = k
    · subst he
      have hrest : t.map (fun x => (x.1, if k' = x.1 then a else x.2)) = t := by
        refine (List.map_congr_left (g := id) ?_).trans (List.map_id t)
        intro x hx
        rw [if_neg (fun e : k' = x.1 => hn.1 (e ▸ List.mem_map_of_mem hx)), id]
      rw [if_pos rfl, if_pos rfl, hrest]
    · rw [keys_cons, List.mem_cons] at hk
      rw [if_neg he, if_neg (Ne.symm he), ih hn.2 (hk.resolve_left (Ne.symm he))]

theorem modify_eq_map {t : Table κ α} (hn : t.keys.Nodup) (k : κ) (f : α → α) :
    modify k f t = t.map fun x => (x.1, if k = x.1 then f x.2 else x.2) := by
  induction t with
  | nil => rfl
  | cons x t ih =>
    obtain ⟨k', b⟩ := x
    rw [keys_cons, List.nodup_cons] at hn
    rw [modify, List.map_cons]
    by_cases he : k' = k
    · subst he
      have hrest : t.map (fun x => (x.1, if k' = x.1 then f x.2 else x.2)) = t := by
        refine (List.map_congr_left (g := id) ?_).trans (List.map_id t)
        intro x hx
        rw [if_neg (fun e : k' = x.1 => hn.1 (e ▸ List.mem_map_of_mem hx)), id]
      rw [if_pos rfl, if_pos rfl, hrest]
    · rw [if_neg he, if_neg (Ne.symm he), ih hn.2]

theorem filter_put_of_neg {p : κ → Bool} {k : κ} (hp : p k = false) (t : Table κ α) (a : α) :
    (t.put k a).filter (fun x => p x.1) = t.filter fun x => p x.1 := by
  induction t with
  | nil => simp [put, hp]
  | cons x t ih =>
    obtain ⟨k', b⟩ := x
    rw [put]
    by_cases hk : k' = k
    · subst hk
      rw [if_pos rfl, List.filter_cons, List.filter_cons, hp]
      rfl
    · rw [if_neg hk, List.filter_cons, List.filter_cons, ih]

theorem filter_put_of_pos {p : κ → Bool} {k : κ} (hp : p k = true) (t : Table κ α) (a : α) :
    (t.put k a).filter (fun x => p x.1) = put k a (t.filter fun x => p x.1) := by
  induction t with
  | nil => simp [put, hp]
  | cons x t ih =>
    obtain ⟨k', b⟩ := x
    rw [put]
    by_cases hk : k' = k
    · subst hk
      rw [if_pos rfl, List.filter_cons, List.filter_cons, if_pos hp, if_pos hp, put, if_pos rfl]
    · rw [if_neg hk, List.filter_cons, List.filter_cons, ih]
      split
      · rw [put, if_neg hk]
      · rfl

/-- What is put into the second table shows in the merged one, in its place. -/
theorem merge_put {t : Table κ α} (hn : t.keys.Nodup) (u : Table κ α) (k : κ) (a : α) :
    merge t (u.put k a) = (merge t u).put k a := by
  have hkeys : keys (t.map fun x => (x.1, (u.get? x.1).getD x.2)) = t.keys := by
    simp [keys]
  rw [merge, merge, put_append, hkeys]
  by_cases hk : k ∈ t.keys
  · have hh : (!t.has k) = false := by simp [has_iff.mpr hk]
    have hfst := put_eq_map (hkeys.symm ▸ hn) (hkeys.symm ▸ hk) a
    rw [if_pos hk, filter_put_of_neg (p := fun k => !t.has k) hh, hfst, List.map_map]
    congr 1
    apply List.map_congr_left
    intro x _
    simp only [Function.comp_apply, get?_put]
    by_cases he : k = x.1 <;> simp [he]
  · have hh : (!t.has k) = true := by
      cases h : t.has k
      · rfl
      · exact absurd (has_iff.mp h) hk
    rw [if_neg hk, filter_put_of_pos (p := fun k => !t.has k) hh]
    congr 1
    apply List.map_congr_left
    intro x hx
    rw [get?_put, if_neg (fun e : k = x.1 => hk (e ▸ List.mem_map_of_mem hx))]

theorem mapValues_merge (f : α → β) (t u : Table κ α) :
    (merge t u).mapValues f = merge (t.mapValues f) (u.mapValues f) := by
  simp only [merge, has_mapValues]
  rw [mapValues, List.map_append]
  congr 1
  · simp only [mapValues, List.map_map]
    apply List.map_congr_left
    intro x _
    simp only [Function.comp_apply]
    rw [← mapValues, get?_mapValues]
    cases u.get? x.1 <;> rfl
  · simp only [mapValues, List.filter_map]
    rfl

theorem get?_of_mem {t : Table κ α} (hn : t.keys.Nodup) {k : κ} {a : α} (h : (k, a) ∈ t) :
    t.get? k = some a := by
  induction t with
  | nil => simp at h
  | cons x t ih =>
    obtain ⟨k', b⟩ := x
    rw [keys_cons, List.nodup_cons] at hn
    rw [get?_cons]
    rcases List.mem_cons.mp h with h | h
    · obtain ⟨rfl, rfl⟩ := Prod.mk.inj h
      rw [if_pos rfl]
    · rw [if_neg (fun e : k' = k => hn.1 (e ▸ mem_keys_of_mem h)), ih hn.2 h]

theorem merge_self {t : Table κ α} (hn : t.keys.Nodup) : merge t t = t := by
  have hsnd : t.filter (fun x => !t.has x.1) = [] := by
    rw [List.filter_eq_nil_iff]
    intro x hx
    simp [has_iff.mpr (List.mem_map_of_mem hx : x.1 ∈ t.keys)]
  rw [merge, hsnd, List.append_nil]
  refine (List.map_congr_left (g := id) ?_).trans (List.map_id t)
  intro x hx
  rw [get?_of_mem hn (a := x.2) hx, Option.getD_some, id]

end Callscope.Table
