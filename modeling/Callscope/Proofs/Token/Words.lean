import Callscope.Proofs.Token.Partition

/-!
# Words and the lines they stand on

A word is a letter and then letters and digits. Identifiers and all keywords are written so, which leaves
no room in them for quotes, backslashes or white space. A token without a line feed stands on the line
that its place gives, from the column on that its place gives.
-/

namespace Callscope

/-! ## Words -/

namespace Lexicon

open Pattern

/-- A letter and then letters and digits. -/
def isWord (s : String) : Bool :=
  match s.toList with
  | [] => false
  | c :: cs => isLetter c && cs.all isLetterOrDigit

theorem matches_many_one {accepts : Char → Bool} {w : List Char}
    (h : Matches (many (one accepts)) w) : w.all accepts = true := by
  induction w with
  | nil => rfl
  | cons c w ih =>
    obtain ⟨s, t, rfl, hc, ht⟩ := matches_many_cons h
    obtain ⟨d, hd, hs⟩ := matches_one.mp hc
    obtain ⟨rfl, rfl⟩ := List.cons.inj hs
    rw [List.nil_append] at ih ⊢
    rw [List.all_cons, hd, ih ht, Bool.true_and]

theorem isWord_of_matches {s : String} (h : Matches word s.toList) : isWord s = true := by
  obtain ⟨u, v, hs, hu, hv⟩ := matches_andThen.mp h
  obtain ⟨c, hc, rfl⟩ := matches_one.mp hu
  rw [isWord, hs, List.singleton_append]
  simp only [hc, matches_many_one hv, Bool.and_self]

/-- Every character of a word is an ASCII letter or digit, a dollar sign, an underscore or beyond
ASCII. -/
theorem isLetterOrDigit_of_mem {s : String} (h : isWord s = true) {c : Char} (hc : c ∈ s.toList) :
    isLetterOrDigit c = true := by
  unfold isWord at h
  split at h
  · cases h
  · rename_i d ds hs
    rw [hs] at hc
    obtain ⟨hd, hds⟩ := Bool.and_eq_true_iff.mp h
    rcases List.mem_cons.mp hc with rfl | hc
    · rw [isLetterOrDigit, hd, Bool.true_or]
    · exact List.all_eq_true.mp hds c hc

theorem ne_of_isWord {s : String} (h : isWord s = true) : s ≠ "" := by
  rintro rfl
  cases h

/-- The white space between tokens. Beyond ASCII there is none, since every character there is a
letter. -/
def blanks : List Char := [' ', '\t', '\r', '\n', '\x0c']

/-- A word has neither quotes nor backslashes nor white space. -/
theorem notMem_of_isWord {s : String} (h : isWord s = true) {c : Char}
    (hc : c = '"' ∨ c = '\\' ∨ c ∈ blanks) : c ∉ s.toList := by
  intro hmem
  have hletter := isLetterOrDigit_of_mem h hmem
  have hnone : ('"' :: '\\' :: blanks).all (fun d => !isLetterOrDigit d) = true := by decide
  have hc' := List.all_eq_true.mp hnone c (by simpa using hc)
  rw [hletter] at hc'
  cases hc'

end Lexicon

/-- Whether a token of the kind is always a word. -/
def Kind.isWord (k : Kind) : Bool := k == .identifier || k.spelling?.any Lexicon.isWord

/-! ## Lines -/

namespace Text

/-- The lines of a text. Only a line feed ends a line. -/
def lines (text : String) : List (List Char) := text.toList.splitOn '\n'

theorem length_splitOn (cs : List Char) : (cs.splitOn '\n').length = cs.count '\n' + 1 := by
  induction cs with
  | nil => rfl
  | cons c cs ih =>
    rw [List.splitOn_cons_eq_if_modifyHead, List.count_cons]
    split
    · simp [ih]
    · simp [ih]

/-- A text that begins without a line feed has this beginning on its first line. -/
theorem splitOn_append {u : List Char} (h : '\n' ∉ u) (v : List Char) :
    ∃ line more, (u ++ v).splitOn '\n' = line :: more ∧ u <+: line := by
  by_cases hv : '\n' ∈ v
  · obtain ⟨a, b, rfl, ha⟩ := List.eq_append_cons_of_mem hv
    refine ⟨u ++ a, b.splitOn '\n', ?_, List.prefix_append u a⟩
    rw [← List.append_assoc]
    exact List.splitOn_append_cons_self_of_not_mem (by simp [h, ha]) b
  · refine ⟨u ++ v, [], ?_, List.prefix_append u v⟩
    exact List.splitOn_eq_singleton (by simp [h, hv])

theorem takeWhile_append {u : List Char} (h : '\n' ∉ u) (v : List Char) :
    (u ++ v).takeWhile (· != '\n') = u ++ v.takeWhile (· != '\n') := by
  refine List.takeWhile_append_of_pos fun c hc => ?_
  simpa using fun e : c = '\n' => h (e ▸ hc)

/-- Something without a line feed stands on the line that has as many lines before it as there are line
feeds, after as many characters as there are since the last of them. -/
theorem splitOn_line {u : List Char} (h : '\n' ∉ u) (before after : List Char) :
    ∃ line, ((before ++ u ++ after).splitOn '\n')[before.count '\n']? = some line ∧
      u <+: line.drop (before.reverse.takeWhile (· != '\n')).length := by
  -- On its first line the text begins with what is before it and then it.
  have hfirst : ∀ here, '\n' ∉ here → ∃ line more,
      (here ++ u ++ after).splitOn '\n' = line :: more ∧ u <+: line.drop here.length := by
    intro here hhere
    obtain ⟨line, more, hsplit, rest, rfl⟩ := splitOn_append (u := here ++ u) (by simp [hhere, h]) after
    refine ⟨_, more, hsplit, ?_⟩
    rw [List.append_assoc, List.drop_left]
    exact List.prefix_append u rest
  by_cases hmem : '\n' ∈ before
  · obtain ⟨here, above, hbefore, hhere⟩ := List.eq_append_cons_of_mem (List.mem_reverse.mpr hmem)
    obtain ⟨line, more, hsplit, hline⟩ := hfirst here.reverse (by simpa using hhere)
    have htext : before = above.reverse ++ '\n' :: here.reverse := by
      rw [← List.reverse_reverse before, hbefore]
      simp
    refine ⟨line, ?_, ?_⟩
    · have hcount : before.count '\n' = (above.reverse.splitOn '\n').length := by
        rw [length_splitOn, htext]
        simp [List.count_eq_zero_of_not_mem hhere]
      rw [hcount, htext, List.append_assoc, List.append_assoc, List.cons_append,
        List.splitOn_append_cons_self, ← List.append_assoc, hsplit, List.getElem?_append_right
          (Nat.le_refl _), Nat.sub_self]
      rfl
    · have hcolumn : (here ++ '\n' :: above).takeWhile (· != '\n') = here := by
        rw [takeWhile_append hhere]
        simp
      rw [hbefore, hcolumn, ← List.length_reverse]
      exact hline
  · obtain ⟨line, more, hsplit, hline⟩ := hfirst before hmem
    have hcolumn : before.reverse.takeWhile (· != '\n') = before.reverse := by
      have htake := takeWhile_append (u := before.reverse) (by simpa using hmem) []
      simpa using htake
    refine ⟨line, ?_, ?_⟩
    · rw [List.count_eq_zero_of_not_mem hmem, hsplit]
      rfl
    · rw [hcolumn, List.length_reverse]
      exact hline

end Text

/-! ## Tokens -/

namespace Lexed

variable {text : String} {t : Token}

theorem mem_pieces_of_visible {l : Lexed} (h : t ∈ l.visible) : .token t ∈ l.pieces :=
  mem_tokens.mp (List.mem_filter.mp h).1

theorem isWord_of_visible (h : t ∈ (Lexed.ofText text).visible) (hk : t.kind.isWord = true) :
    Lexicon.isWord t.text = true := by
  have hmem : .token t ∈ Lexer.piecesFrom .start 0 text.toList := mem_pieces_of_visible h
  rcases Lexer.matches_of_mem_pieces hmem with ⟨_, _, rfl⟩ | ⟨_, hmatch⟩
  · cases hk
  · rcases Bool.or_eq_true_iff.mp hk with hname | hspelled
    · rw [eq_of_beq hname] at hmatch
      exact Lexicon.isWord_of_matches hmatch
    · cases hs : t.kind.spelling? with
      | none =>
        rw [hs] at hspelled
        cases hspelled
      | some s =>
        rw [hs] at hspelled
        rw [(Lexer.proper_of_mem_pieces hmem).2 s hs]
        exact hspelled

/-- A word stands on the line and from the column on that its place gives. -/
theorem onLine_of_visible (h : t ∈ (Lexed.ofText text).visible) (hk : t.kind.isWord = true) :
    0 < t.line ∧ ∃ line, (Text.lines text)[t.line - 1]? = some line ∧
      t.text.toList <+: line.drop t.column := by
  obtain ⟨before, after, htext, hplace⟩ :=
    (tiles_ofText text).standsIn _ (mem_pieces_of_visible h)
  have hsource : (Piece.token t).source = t.text := if_neg fun he => by
    rw [he] at hk
    cases hk
  have hfeed : '\n' ∉ t.text.toList :=
    Lexicon.notMem_of_isWord (isWord_of_visible h hk) (.inr (.inr (by decide)))
  have hline : t.line = 1 + before.count '\n' := by
    rw [Token.line, ← Piece.place, hplace, Place.line_advance]
    rfl
  have hcolumn : t.column = (before.reverse.takeWhile (· != '\n')).length := by
    rw [Token.column, ← Piece.place, hplace, Place.column_advance]
  obtain ⟨line, hget, hprefix⟩ := Text.splitOn_line hfeed before after
  rw [List.nil_append, hsource] at htext
  refine ⟨by omega, line, ?_, ?_⟩
  · rw [Text.lines, htext, hline, Nat.add_sub_cancel_left]
    exact hget
  · rw [hcolumn]
    exact hprefix

end Lexed

end Callscope
