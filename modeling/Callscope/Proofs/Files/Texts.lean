import Callscope.Files.Path

/-!
# Paths as texts

A path from the root on whose names have no slash in them is read back from its text. Only the number of
slashes at the beginning may change, which does not matter to where the path leads.
-/

namespace Callscope.Path

variable {p : Path}

/-- What can stand between two slashes, `.` and `..` among it. -/
def IsPart (n : String) : Prop := n ≠ "" ∧ '/' ∉ n.toList

/-! ## Splitting -/

theorem splitOn_replicate (k : Nat) (cs : List Char) :
    (List.replicate k '/' ++ cs).splitOn '/' = List.replicate k [] ++ cs.splitOn '/' := by
  induction k with
  | zero => rfl
  | succ k ih =>
    rw [List.replicate_succ, List.replicate_succ, List.cons_append, List.cons_append, ← ih]
    exact List.splitOn_append_cons_self [] _

theorem filter_ofList_replicate (k : Nat) :
    ((List.replicate k []).map String.ofList).filter (· ≠ "") = [] := by
  rw [List.filter_eq_nil_iff]
  intro n hn
  rw [List.map_replicate] at hn
  rw [List.eq_of_mem_replicate hn]
  decide

/-- Slashes in front of names and behind them add no names. -/
theorem splitSlashes_text (h : ∀ n ∈ p.parts, IsPart n) (hparts : p.parts ≠ []) (j k : Nat)
    {text : String} (htext : text.toList = List.replicate j '/' ++
      ("/".intercalate p.parts).toList ++ List.replicate k '/') :
    (splitSlashes text).filter (· ≠ "") = p.parts := by
  have hnames : ("/".intercalate p.parts).toList.splitOn '/' = p.parts.map String.toList := by
    rw [String.toList_intercalate]
    refine List.splitOn_intercalate '/' ?_ (by simpa using hparts)
    intro cs hcs
    obtain ⟨n, hn, rfl⟩ := List.mem_map.mp hcs
    exact (h n hn).2
  have hend : ∀ k, (("/".intercalate p.parts).toList ++ List.replicate k '/').splitOn '/' =
      p.parts.map String.toList ++ List.replicate k [] := by
    intro k
    cases k with
    | zero => simpa using hnames
    | succ k =>
      have hslashes : (List.replicate k '/').splitOn '/' = List.replicate (k + 1) [] := by
        have hsplit := splitOn_replicate k []
        rwa [List.append_nil, List.splitOn_nil, ← List.replicate_succ'] at hsplit
      rw [List.replicate_succ, List.splitOn_append_cons_self, hnames, hslashes]
  have hkeep : p.parts.filter (· ≠ "") = p.parts :=
    List.filter_eq_self.mpr fun n hn => decide_eq_true (h n hn).1
  have hofList : (p.parts.map String.toList).map String.ofList = p.parts := by
    simp [List.map_map, Function.comp_def]
  rw [splitSlashes, htext, List.append_assoc, splitOn_replicate, hend, List.map_append,
    List.map_append, List.filter_append, List.filter_append, filter_ofList_replicate,
    filter_ofList_replicate, hofList, hkeep, List.nil_append, List.append_nil]

theorem leadingSlashes_ne {text : String} {cs : List Char} (h : text.toList = '/' :: cs) :
    leadingSlashes text ≠ 0 := by
  rw [leadingSlashes, h, List.takeWhile_cons_of_pos rfl, List.length_cons]
  split <;> simp_all

/-- Names do not end in a slash. -/
theorem getLast?_intercalate (h : ∀ n ∈ p.parts, IsPart n) (hparts : p.parts ≠ []) :
    ∃ c, c ≠ '/' ∧ ("/".intercalate p.parts).toList.getLast? = some c := by
  obtain ⟨init, n, hn⟩ := (List.eq_nil_or_concat p.parts).resolve_left hparts
  rw [List.concat_eq_append] at hn
  obtain ⟨hne, hslash⟩ := h n (by simp [hn])
  obtain ⟨cs, c, hc⟩ := (List.eq_nil_or_concat n.toList).resolve_left
    fun hnil => hne (String.toList_eq_nil_iff.mp hnil)
  rw [List.concat_eq_append] at hc
  have hends : ∃ xs, ("/".intercalate p.parts).toList = xs ++ n.toList := by
    rw [hn]
    by_cases hinit : init = []
    · exact ⟨[], by rw [hinit, List.nil_append, String.intercalate_singleton, List.nil_append]⟩
    · refine ⟨("/".intercalate init ++ "/").toList, ?_⟩
      rw [String.intercalate_append_of_ne_nil hinit (by simp), String.intercalate_singleton,
        String.toList_append]
  obtain ⟨xs, hxs⟩ := hends
  refine ⟨c, fun heq => hslash ?_, ?_⟩
  · rw [hc, heq]
    exact List.mem_append_right _ (List.mem_singleton_self _)
  · rw [hxs, hc, ← List.append_assoc, List.getLast?_concat]

/-! ## Reading back -/

theorem toList_text (hslashes : p.slashes ≠ 0) : p.text.toList =
    List.replicate p.slashes '/' ++ ("/".intercalate p.parts).toList ++
      List.replicate (p.asksDirectory && !p.parts.isEmpty).toNat '/' := by
  rw [text, if_neg (by simp [hslashes]), String.toList_append, String.toList_append,
    String.toList_ofList]
  cases p.asksDirectory && !p.parts.isEmpty <;> rfl

theorem exists_toList_text (hslashes : p.slashes ≠ 0) : ∃ cs, p.text.toList = '/' :: cs := by
  obtain ⟨k, hk⟩ := Nat.exists_eq_succ_of_ne_zero hslashes
  have htext := toList_text hslashes
  rw [hk, List.replicate_succ, List.cons_append, List.cons_append] at htext
  exact ⟨_, htext⟩

theorem text_ne_empty (hslashes : p.slashes ≠ 0) : p.text ≠ "" := by
  obtain ⟨cs, hcs⟩ := exists_toList_text hslashes
  intro hempty
  rw [hempty] at hcs
  cases hcs

/-- A path from the root on is read back from its text, the number of slashes apart. -/
theorem asGiven_text (hslashes : p.slashes ≠ 0) (hparts : p.parts ≠ [])
    (h : ∀ n ∈ p.parts, IsPart n) : ∃ k, k ≠ 0 ∧ asGiven p.text = { p with slashes := k } := by
  have htext := toList_text hslashes
  have hempty : p.parts.isEmpty = false := by simpa using hparts
  rw [hempty, Bool.not_false, Bool.and_true] at htext
  have hasks : decide (p.text.toList.getLast? = some '/') = p.asksDirectory := by
    obtain ⟨c, hc, hlast⟩ := getLast?_intercalate h hparts
    rw [htext]
    cases p.asksDirectory with
    | true => simp
    | false =>
      rw [Bool.toNat_false, List.replicate_zero, List.append_nil, List.getLast?_append, hlast]
      simp [hc]
  obtain ⟨cs, hcs⟩ := exists_toList_text hslashes
  refine ⟨leadingSlashes p.text, leadingSlashes_ne hcs, ?_⟩
  rw [asGiven, if_neg (text_ne_empty hslashes), splitSlashes_text h hparts _ _ htext, hasks]

theorem slashes_absolute (p : Path) (here : List String) : (p.absolute here).slashes ≠ 0 := by
  unfold absolute
  split
  · exact Nat.one_ne_zero
  · assumption

end Callscope.Path
