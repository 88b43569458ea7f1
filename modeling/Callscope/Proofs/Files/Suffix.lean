import Callscope.Files.Path
import Mathlib.Data.List.Basic

/-!
# Replacing a suffix

The suffix of a name begins at its last dot, and what stands before it stays. A name that is nothing but
`.java` has no suffix, so it gets a second one, and this is the only way in which two different names
that end in `.java` come to the same name.
-/

namespace Callscope.Path

/-! ## Names -/

/-- A name with a last dot inside loses what follows it. -/
theorem stem_append {x s : List Char} (hx : x ≠ []) (hs : s ≠ []) (hdot : '.' ∉ s) :
    stem (x ++ '.' :: s) = x := by
  have hall : ∀ c ∈ s.reverse, (c != '.') = true := by
    intro c hc
    rw [bne_iff_ne]
    rintro rfl
    exact hdot (List.mem_reverse.mp hc)
  have hsuffix : (x ++ '.' :: s).reverse.takeWhile (· != '.') = s.reverse := by
    rw [List.reverse_append, List.reverse_cons, List.append_assoc,
      List.takeWhile_append_of_pos hall]
    simp
  have hxpos := List.length_pos_iff.mpr hx
  have hspos := List.length_pos_iff.mpr hs
  have hrest : (x ++ '.' :: s).length - s.reverse.length = x.length + 1 := by
    simp only [List.length_append, List.length_cons, List.length_reverse]
    omega
  unfold stem
  simp only [hsuffix, hrest]
  rw [if_neg, Nat.add_sub_cancel, List.take_left]
  simp only [List.length_reverse, List.length_append, List.length_cons, Bool.or_eq_true,
    decide_eq_true_eq, List.isEmpty_reverse, List.isEmpty_iff]
  rintro ((h | h) | h)
  · omega
  · exact hs h
  · omega

theorem stem_java {x : List Char} (hx : x ≠ []) : stem (x ++ ".java".toList) = x :=
  stem_append hx (by decide) (by decide)

/-- Two names that end in `.java` lose their suffixes to the same name only if they are `.java` and
`.java.java`. -/
theorem stem_java_inj {x y : List Char} (h : stem (x ++ ".java".toList) = stem (y ++ ".java".toList)) :
    x = y ∨ x = [] ∧ y = ".java".toList ∨ x = ".java".toList ∧ y = [] := by
  have hnone : stem ([] ++ ".java".toList) = ".java".toList := by decide
  by_cases hx : x = []
  · by_cases hy : y = []
    · exact .inl (hx.trans hy.symm)
    · rw [hx, hnone, stem_java hy] at h
      exact .inr (.inl ⟨hx, h.symm⟩)
  · by_cases hy : y = []
    · rw [hy, hnone, stem_java hx] at h
      exact .inr (.inr ⟨h, hy⟩)
    · rw [stem_java hx, stem_java hy] at h
      exact .inl h

theorem renameSuffix_inj {suffix m n : String}
    (h : renameSuffix suffix m = renameSuffix suffix n) : stem m.toList = stem n.toList := by
  rw [renameSuffix, renameSuffix, ← String.toList_inj, String.toList_append, String.toList_append,
    String.toList_ofList, String.toList_ofList] at h
  exact List.append_cancel_right h

theorem suffix_renameSuffix (suffix n : String) :
    suffix.toList <:+ (renameSuffix suffix n).toList := by
  rw [renameSuffix, String.toList_append]
  exact List.suffix_append _ _

/-- A name keeps its suffix exactly if it has this suffix and something before it. -/
theorem renameSuffix_dot_eq_self {n : String} :
    renameSuffix ".dot" n = n ↔ ∃ x, x ≠ "" ∧ n = x ++ ".dot" := by
  constructor
  · intro h
    refine ⟨String.ofList (stem n.toList), ?_, h.symm⟩
    intro hempty
    rw [renameSuffix, hempty] at h
    subst h
    exact absurd hempty (by decide)
  · rintro ⟨x, hx, rfl⟩
    rw [renameSuffix, String.toList_append, show ".dot".toList = '.' :: "dot".toList from rfl,
      stem_append (fun h => hx (String.toList_eq_nil_iff.mp h)) (by decide) (by decide),
      String.ofList_toList]

/-! ## Paths -/

theorem withSuffix_of_parts {p : Path} {init : List String} {n : String}
    (h : p.parts = init ++ [n]) (suffix : String) :
    p.withSuffix suffix = { p with parts := init ++ [renameSuffix suffix n] } := by
  simp only [withSuffix, h, List.getLast?_concat, List.dropLast_concat]

theorem asksDirectory_withSuffix (p : Path) (suffix : String) :
    (p.withSuffix suffix).asksDirectory = p.asksDirectory := by
  unfold withSuffix
  split <;> rfl

end Callscope.Path
