import Callscope.Text.Pattern

/-!
# Derivatives of patterns

`nullable` and `rest` decide what they are meant to: a pattern matches the empty text if it is nullable,
and a text that begins with `c` if what is left of the pattern after `c` matches the rest of the text.
-/

namespace Callscope.Pattern

variable {p q : Pattern} {w : List Char}

theorem not_matches_nothing : ¬ Matches nothing w := by
  rintro ⟨⟩

theorem matches_empty : Matches empty w ↔ w = [] := by
  constructor
  · rintro ⟨⟩
    rfl
  · rintro rfl
    exact .empty

theorem matches_one {accepts : Char → Bool} :
    Matches (one accepts) w ↔ ∃ c, accepts c = true ∧ w = [c] := by
  constructor
  · rintro ⟨⟩
    exact ⟨_, ‹_›, rfl⟩
  · rintro ⟨c, h, rfl⟩
    exact .one h

theorem matches_seq :
    Matches (seq p q) w ↔ ∃ s t, w = s ++ t ∧ Matches p s ∧ Matches q t := by
  constructor
  · rintro (_ | _ | ⟨hp, hq⟩)
    exact ⟨_, _, rfl, hp, hq⟩
  · rintro ⟨s, t, rfl, hp, hq⟩
    exact .seq hp hq

theorem matches_alt : Matches (alt p q) w ↔ Matches p w ∨ Matches q w := by
  constructor
  · intro h
    cases h with
    | altLeft h => exact .inl h
    | altRight h => exact .inr h
  · rintro (h | h)
    · exact .altLeft h
    · exact .altRight h

theorem matches_andThen :
    Matches (p.andThen q) w ↔ ∃ s t, w = s ++ t ∧ Matches p s ∧ Matches q t := by
  unfold andThen
  split
  · simp [not_matches_nothing]
  · simp [not_matches_nothing]
  · constructor
    · exact fun h => ⟨[], w, rfl, .empty, h⟩
    · rintro ⟨s, t, rfl, hs, ht⟩
      rw [matches_empty.mp hs]
      exact ht
  · simp [matches_empty]
  · exact matches_seq

theorem matches_orElse : Matches (p.orElse q) w ↔ Matches p w ∨ Matches q w := by
  unfold orElse
  split
  · simp [not_matches_nothing]
  · simp [not_matches_nothing]
  · exact matches_alt

theorem nullable_iff : p.nullable = true ↔ Matches p [] := by
  induction p with
  | nothing => simp [nullable, not_matches_nothing]
  | empty => simp [nullable, matches_empty]
  | one accepts => simp [nullable, matches_one]
  | seq p q ihp ihq =>
    rw [nullable, Bool.and_eq_true, ihp, ihq, matches_seq]
    constructor
    · exact fun h => ⟨[], [], rfl, h.1, h.2⟩
    · rintro ⟨s, t, hst, hp, hq⟩
      obtain ⟨rfl, rfl⟩ := List.append_eq_nil_iff.mp hst.symm
      exact ⟨hp, hq⟩
  | alt p q ihp ihq => rw [nullable, Bool.or_eq_true, ihp, ihq, matches_alt]
  | many p => exact ⟨fun _ => .manyNil, fun _ => rfl⟩

/-- A text of a repetition that is not empty begins with a text of the body that is not empty. -/
theorem matches_many_cons {c : Char} (h : Matches (many p) (c :: w)) :
    ∃ s t, w = s ++ t ∧ Matches p (c :: s) ∧ Matches (many p) t := by
  generalize hm : many p = m at h
  generalize hv : c :: w = v at h
  induction h with
  | empty | one | seq | altLeft | altRight => cases hm
  | manyNil => cases hv
  | @manyCons p' s t hp ht _ ih =>
    cases hm
    cases s with
    | nil => exact ih rfl hv
    | cons d s =>
      cases hv
      exact ⟨s, t, rfl, hp, ht⟩

/-- The first character is one of the first pattern, or that one matches nothing of the text. -/
theorem matches_seq_cons {c : Char} : Matches (seq p q) (c :: w) ↔
    (∃ s t, w = s ++ t ∧ Matches p (c :: s) ∧ Matches q t) ∨
      (Matches p [] ∧ Matches q (c :: w)) := by
  rw [matches_seq]
  constructor
  · rintro ⟨s, t, hst, hp, hq⟩
    cases s with
    | nil => exact .inr ⟨hp, by rw [hst]; exact hq⟩
    | cons d s =>
      cases hst
      exact .inl ⟨s, t, rfl, hp, hq⟩
  · rintro (⟨s, t, rfl, hp, hq⟩ | ⟨hp, hq⟩)
    · exact ⟨c :: s, t, rfl, hp, hq⟩
    · exact ⟨[], c :: w, rfl, hp, hq⟩

theorem matches_rest {c : Char} : Matches (p.rest c) w ↔ Matches p (c :: w) := by
  induction p generalizing w with
  | nothing => simp [rest, not_matches_nothing]
  | empty => simp [rest, not_matches_nothing, matches_empty]
  | one accepts =>
    rw [rest, matches_one]
    split
    · rename_i hc
      rw [matches_empty]
      constructor
      · rintro rfl
        exact ⟨c, hc, rfl⟩
      · rintro ⟨d, _, hd⟩
        exact (List.cons.inj hd).2
    · rename_i hc
      constructor
      · exact fun h => absurd h not_matches_nothing
      · rintro ⟨d, hd, heq⟩
        cases heq
        exact absurd hd hc
  | seq p q ihp ihq =>
    have hfirst : Matches ((p.rest c).andThen q) w ↔
        ∃ s t, w = s ++ t ∧ Matches p (c :: s) ∧ Matches q t := by
      simp only [matches_andThen, ihp]
    rw [rest, matches_seq_cons]
    split
    · rename_i hnull
      rw [matches_orElse, hfirst, ihq]
      simp [nullable_iff.mp hnull]
    · rename_i hnull
      rw [hfirst]
      simp [mt nullable_iff.mpr hnull]
  | alt p q ihp ihq => rw [rest, matches_orElse, ihp, ihq, matches_alt]
  | many p ih =>
    rw [rest, matches_andThen]
    constructor
    · rintro ⟨s, t, rfl, hs, ht⟩
      exact .manyCons (ih.mp hs) ht
    · intro h
      obtain ⟨s, t, rfl, hs, ht⟩ := matches_many_cons h
      exact ⟨s, t, rfl, ih.mpr hs, ht⟩

/-- A literal matches itself alone. -/
theorem matches_literal {s : String} : Matches (literal s) w ↔ w = s.toList := by
  rw [literal]
  generalize s.toList = cs
  induction cs generalizing w with
  | nil => exact matches_empty
  | cons c cs ih =>
    simp only [List.foldr_cons, matches_andThen, ih]
    simp only [char, matches_one]
    constructor
    · rintro ⟨_, t, rfl, ⟨d, hd, rfl⟩, rfl⟩
      rw [eq_of_beq hd]
      rfl
    · rintro rfl
      exact ⟨[c], cs, rfl, ⟨c, beq_self_eq_true c, rfl⟩, rfl⟩

end Callscope.Pattern
