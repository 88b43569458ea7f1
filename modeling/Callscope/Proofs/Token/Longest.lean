import Callscope.Proofs.Token.Priority

/-!
# The longest text wins

Cutting never stops before a text that some pattern matches. What begins with a letter is a word, with
`non-sealed` as the one exception, so at the beginning of a text a word is cut off as far as its letters
and digits go. Its kind is the one that is spelled so, and else it is an identifier.
-/

namespace Callscope

/-! ## Beginnings of patterns -/

namespace Pattern

/-- Whether a text of the pattern can begin with `c`. -/
def begins (c : Char) : Pattern → Bool
  | nothing => false
  | empty => false
  | one accepts => accepts c
  | seq p q => p.begins c || p.nullable && q.begins c
  | alt p q => p.begins c || q.begins c
  | many p => p.begins c

theorem begins_of_matches {p : Pattern} {c : Char} {w : List Char} (h : Matches p (c :: w)) :
    p.begins c = true := by
  generalize hcs : c :: w = cs at h
  induction h generalizing w with
  | empty => cases hcs
  | one h =>
    cases hcs
    exact h
  | @seq p q s t hp hq ihp ihq =>
    cases s with
    | nil =>
      rw [begins, nullable_iff.mpr hp, ihq hcs, Bool.and_self, Bool.or_true]
    | cons d s =>
      cases hcs
      rw [begins, ihp rfl, Bool.true_or]
  | altLeft _ ih => rw [begins, ih hcs, Bool.true_or]
  | altRight _ ih => rw [begins, ih hcs, Bool.or_true]
  | manyNil => cases hcs
  | @manyCons p s t hp ht ihp iht =>
    cases s with
    | nil => exact iht hcs
    | cons d s =>
      cases hcs
      exact ihp rfl

theorem begins_orElse {p q : Pattern} {c : Char} (h : (p.orElse q).begins c = true) :
    p.begins c = true ∨ q.begins c = true := by
  cases p <;> cases q <;> simp_all [orElse, begins]

/-- A sequence begins as its first part does if that is never empty. -/
theorem begins_andThen {p q : Pattern} {c : Char} (hp : p.nullable = false)
    (h : (p.andThen q).begins c = true) : p.begins c = true := by
  have hcases : p.begins c = true ∨ p.nullable = true ∧ q.begins c = true := by
    cases p <;> cases q <;> simp_all [andThen, begins, nullable]
  rcases hcases with hc | ⟨hnull, _⟩
  · exact hc
  · rw [hp] at hnull
    cases hnull

theorem begins_all {p : Pattern} {ps : List Pattern} {c : Char} (hp : p.nullable = false)
    (h : (all (p :: ps)).begins c = true) : p.begins c = true :=
  begins_andThen hp h

theorem eq_of_begins_char {c d : Char} (h : (char d).begins c = true) : c = d := by
  simpa [char, begins] using h

theorem head_of_begins_literal {s : String} {c : Char} (h : (literal s).begins c = true) :
    s.toList.head? = some c := by
  rw [literal] at h
  cases hs : s.toList with
  | nil =>
    rw [hs] at h
    cases h
  | cons d ds =>
    rw [hs, List.foldr_cons] at h
    rw [eq_of_begins_char (begins_andThen rfl h), List.head?_cons]

end Pattern

/-! ## The longest match -/

namespace Lexer

open Pattern

variable {ps : List (Kind × Pattern)} {done cs : List Char}

/-- A match that has been found is given up for a longer one only. -/
theorem scan_of_best {k : Kind} {m n : Nat} (h : m ≤ n) :
    ∃ k' m', scan ps n (some ⟨some k, m⟩) cs = ⟨some k', m'⟩ ∧ m ≤ m' := by
  induction cs generalizing ps k m n with
  | nil => exact ⟨k, m, rfl, Nat.le_refl m⟩
  | cons c cs ih =>
    rw [scan]
    split
    · exact ⟨k, m, rfl, Nat.le_refl m⟩
    · cases accepted (after c ps) with
      | none => exact ih (Nat.le_succ_of_le h)
      | some k₁ =>
        obtain ⟨k', m', hscan, hm⟩ := @ih (after c ps) k₁ _ _ (Nat.le_refl (n + 1))
        exact ⟨k', m', hscan, by omega⟩

/-- A pattern that matches what has been read is among those that are accepted. -/
theorem Abreast.exists_accepted (h : Abreast ps done) {k : Kind}
    (hk : Matches (Lexicon.pattern k) done) : ∃ k', Lexer.accepted ps = some k' := by
  obtain ⟨q, hq, hnull⟩ := h.waiting k [] (by rwa [List.append_nil])
  have hfind : (ps.find? fun p => p.2.nullable).isSome = true :=
    List.find?_isSome.mpr ⟨(k, q), hq, nullable_iff.mpr hnull⟩
  obtain ⟨p, hp⟩ := Option.isSome_iff_exists.mp hfind
  exact ⟨p.1, by rw [Lexer.accepted, hp, Option.map_some]⟩

/-- Reading goes on at least to the end of a text that a pattern matches. -/
theorem Abreast.scan {best : Option Cut} {u v : List Char} {k : Kind} (h : Abreast ps done)
    (hu : u ≠ []) (hk : Matches (Lexicon.pattern k) (done ++ u)) :
    ∃ k' m, scan ps done.length best (u ++ v) = ⟨some k', m⟩ ∧ done.length + u.length ≤ m := by
  induction u generalizing ps done best with
  | nil => exact absurd rfl hu
  | cons c u ih =>
    have hdone : done ++ c :: u = done ++ [c] ++ u := by simp
    have hlength : done.length + 1 = (done ++ [c]).length := by simp
    rw [hdone] at hk
    -- The pattern waits for `u`, so some pattern is left.
    obtain ⟨q, hq, _⟩ := (h.after c).waiting k u hk
    have hleft : (Lexer.after c ps).isEmpty = false := by
      rw [List.isEmpty_eq_false_iff]
      exact List.ne_nil_of_mem hq
    rw [List.cons_append, Lexer.scan]
    simp only [hleft, Bool.false_eq_true, if_false]
    by_cases hend : u = []
    · subst hend
      rw [List.append_nil] at hk
      obtain ⟨k₁, hk₁⟩ := (h.after c).exists_accepted hk
      simp only [hk₁]
      exact scan_of_best (Nat.le_refl _)
    · rw [hlength]
      obtain ⟨k', m, hscan, hm⟩ := ih (h.after c) hend hk
      refine ⟨k', m, hscan, ?_⟩
      simp only [List.length_append, List.length_cons, List.length_nil] at hm ⊢
      omega

/-- What is cut off is at least as long as any beginning of the text that a pattern matches. -/
theorem cut_longest {u v : List Char} {k : Kind} (hu : u ≠ [])
    (hk : Matches (Lexicon.pattern k) u) :
    ∃ k' m, cut (u ++ v) = ⟨some k', m⟩ ∧ u.length ≤ m := by
  obtain ⟨k', m, hcut, hm⟩ := @Abreast.scan _ _ none u v k abreast_lexicon hu hk
  exact ⟨k', m, hcut, by simpa using hm⟩

end Lexer

/-! ## Words -/

namespace Lexicon

open Pattern

theorem matches_many_of_all {accepts : Char → Bool} {w : List Char} (h : w.all accepts = true) :
    Matches (many (one accepts)) w := by
  induction w with
  | nil => exact .manyNil
  | cons c w ih =>
    obtain ⟨hc, hw⟩ := Bool.and_eq_true_iff.mp (List.all_cons ▸ h)
    exact .manyCons (.one hc) (ih hw)

theorem matches_of_isWord {s : String} (h : isWord s = true) : Matches word s.toList := by
  unfold isWord at h
  split at h
  · cases h
  · rename_i c cs hs
    obtain ⟨hc, hcs⟩ := Bool.and_eq_true_iff.mp h
    rw [hs]
    exact matches_andThen.mpr ⟨[c], cs, rfl, .one hc, matches_many_of_all hcs⟩

theorem letter_of_isWord {s : String} (h : isWord s = true) :
    ∃ c cs, s.toList = c :: cs ∧ isLetter c = true := by
  unfold isWord at h
  split at h
  · cases h
  · rename_i c cs hs
    exact ⟨c, cs, hs, (Bool.and_eq_true_iff.mp h).1⟩

theorem isLetter_eq_false_of_isDigit {c : Char} (h : isDigit c = true) : isLetter c = false := by
  simp only [isDigit, isLetter, Bool.and_eq_true, decide_eq_true_eq, Bool.or_eq_false_iff,
    Bool.and_eq_false_iff, decide_eq_false_iff_not, beq_eq_false_iff_ne, Char.le_def,
    Char.lt_def, UInt32.le_iff_toNat_le, UInt32.lt_iff_toNat_lt] at h ⊢
  refine ⟨⟨⟨⟨?_, ?_⟩, ?_⟩, ?_⟩, ?_⟩
  · left; exact fun hc => absurd (Nat.le_trans hc h.2) (by decide)
  · left; exact fun hc => absurd (Nat.le_trans hc h.2) (by decide)
  · rintro rfl; exact absurd h.1 (by decide)
  · rintro rfl; exact absurd h.2 (by decide)
  · exact fun hc => absurd (Nat.lt_of_lt_of_le hc h.2) (by decide)

/-- The characters that begin white space, comments, quoted texts and fractions. -/
def marks : List Char := ['.', '/', '\'', '"'] ++ blanks

theorem isDigit_of_begins_digits {c : Char} (h : digits.begins c = true) : isDigit c = true := by
  rw [digits, digitsOf] at h
  exact begins_andThen (p := one isDigit) rfl h

theorem isDigit_of_begins_zero {c : Char} {ps : List Pattern}
    (h : (all (char '0' :: ps)).begins c = true) : isDigit c = true := by
  cases eq_of_begins_char (begins_all rfl h)
  rfl

theorem isDigit_of_begins_decimal {c : Char} (h : decimal.begins c = true) : isDigit c = true := by
  rw [decimal] at h
  rcases begins_orElse (begins_andThen rfl h) with hzero | hmore
  · cases eq_of_begins_char hzero
    rfl
  · have hc : ('1' ≤ c && c ≤ '9') = true := begins_andThen (p := one _) rfl hmore
    obtain ⟨hlow, hhigh⟩ := Bool.and_eq_true_iff.mp hc
    have hzero : '0' ≤ c := Char.le_trans (by decide) (of_decide_eq_true hlow)
    rw [isDigit, hhigh, decide_eq_true hzero, Bool.and_self]

theorem digit_or_dot_of_begins_floating {c : Char} (h : floating.begins c = true) :
    isDigit c = true ∨ c = '.' := by
  rw [floating] at h
  rcases begins_orElse h with hdot | hplain
  · rcases begins_orElse (begins_all rfl hdot) with hwhole | hfraction
    · exact .inl (isDigit_of_begins_digits (begins_all rfl hwhole))
    · exact .inr (eq_of_begins_char (begins_andThen rfl hfraction))
  · exact .inl (isDigit_of_begins_digits (begins_andThen rfl hplain))

/-- Kinds without a spelling other than words begin with a digit or one of the marks. -/
theorem digit_or_mark_of_begins {k : Kind} {c : Char} (hspelling : k.spelling? = none)
    (hid : k ≠ .identifier) (hbool : k ≠ .boolLiteral) (h : (pattern k).begins c = true) :
    isDigit c = true ∨ c ∈ marks := by
  have hquote {d : Char} {ps : List Pattern} (hd : d ∈ marks)
      (h : (all (char d :: ps)).begins c = true) : c ∈ marks := by
    rwa [eq_of_begins_char (begins_all rfl h)]
  have hliteral {s : String} (hs : s.toList.head?.all (· ∈ marks) = true)
      (h : (literal s).begins c = true) : c ∈ marks := by
    rw [head_of_begins_literal h] at hs
    simpa using hs
  cases k <;> try cases hspelling
  all_goals dsimp only [pattern] at h
  case eof => cases h
  case identifier => exact absurd rfl hid
  case boolLiteral => exact absurd rfl hbool
  case decimalLiteral => exact .inl (isDigit_of_begins_decimal h)
  case hexLiteral => exact .inl (isDigit_of_begins_zero h)
  case octLiteral => exact .inl (isDigit_of_begins_zero h)
  case binaryLiteral => exact .inl (isDigit_of_begins_zero h)
  case hexFloatLiteral => exact .inl (isDigit_of_begins_zero h)
  case floatLiteral =>
    refine (digit_or_dot_of_begins_floating h).imp_right ?_
    rintro rfl
    decide
  case charLiteral => exact .inr (hquote (by decide) h)
  case stringLiteral => exact .inr (hquote (by decide) h)
  case textBlock => exact .inr (hliteral (by decide) (begins_all rfl h))
  case comment => exact .inr (hliteral (by decide) (begins_all rfl h))
  case lineComment => exact .inr (hliteral (by decide) (begins_andThen rfl h))
  case blanks =>
    have hc : blanks.contains c = true := begins_andThen (p := among " \t\r\n\x0c") rfl h
    exact .inr (List.mem_append_right _ (List.contains_iff_mem.mp hc))

/-- What begins with a letter is an identifier, a truth value or has a spelling. -/
theorem kind_of_letter {k : Kind} {c : Char} {w : List Char} (hc : isLetter c = true)
    (h : Matches (pattern k) (c :: w)) :
    k = .identifier ∨ k = .boolLiteral ∨ k.spelling? = some (String.ofList (c :: w)) := by
  by_cases hid : k = .identifier
  · exact .inl hid
  by_cases hbool : k = .boolLiteral
  · exact .inr (.inl hbool)
  cases hspelling : k.spelling? with
  | some s =>
    rw [pattern_of_spelling hspelling] at h
    rw [matches_literal.mp h, String.ofList_toList]
    exact .inr (.inr rfl)
  | none =>
    rcases digit_or_mark_of_begins hspelling hid hbool (begins_of_matches h) with hdigit | hmark
    · rw [isLetter_eq_false_of_isDigit hdigit] at hc
      cases hc
    · have hmarks : marks.all (fun d => !isLetter d) = true := by decide
      have hno := List.all_eq_true.mp hmarks c hmark
      rw [hc] at hno
      cases hno

/-- Every spelling that begins with a letter is a word but one. -/
theorem isWord_of_spelling {k : Kind} {s : String} (h : k.spelling? = some s)
    (hs : s.toList.head?.any isLetter = true) : isWord s = true ∨ s = "non-sealed" := by
  cases k <;> first | (cases h; revert hs; decide) | cases h

theorem matches_boolLiteral {w : List Char} :
    Matches (pattern .boolLiteral) w ↔ w = "true".toList ∨ w = "false".toList := by
  dsimp only [pattern]
  rw [matches_orElse, matches_literal, matches_literal]

/-- A text that begins with a letter and is of some kind is a word but in one case. -/
theorem isWord_of_letter {k : Kind} {c : Char} {w : List Char} (hc : isLetter c = true)
    (h : Matches (pattern k) (c :: w)) :
    (c :: w).all isLetterOrDigit = true ∨ c :: w = "non-sealed".toList := by
  rcases kind_of_letter hc h with rfl | rfl | hspelling
  · have hword := isWord_of_matches (s := String.ofList (c :: w)) (by rwa [String.toList_ofList])
    refine .inl (List.all_eq_true.mpr fun d hd => isLetterOrDigit_of_mem hword ?_)
    rwa [String.toList_ofList]
  · rcases matches_boolLiteral.mp h with htrue | hfalse
    · exact .inl (htrue ▸ by decide)
    · exact .inl (hfalse ▸ by decide)
  · rcases isWord_of_spelling hspelling (by simpa using hc) with hword | hsealed
    · refine .inl (List.all_eq_true.mpr fun d hd => isLetterOrDigit_of_mem hword ?_)
      rwa [String.toList_ofList]
    · rw [← hsealed, String.toList_ofList]
      exact .inr rfl

end Lexicon

namespace Kind

/-- The kind of a word: a truth value, the kind that is spelled so, or an identifier. -/
def ofWord (w : String) : Kind :=
  if w = "true" ∨ w = "false" then .boolLiteral
  else (Kind.all.find? fun k => k.spelling? == some w).getD .identifier

/-- No two kinds are spelled alike. -/
theorem eq_of_spelling {k l : Kind} {s : String} (hk : k.spelling? = some s)
    (hl : l.spelling? = some s) : k = l := by
  have hnodup : (Kind.all.filterMap Kind.spelling?).Nodup := by decide +kernel
  have hapart := List.pairwise_filterMap.mp hnodup
  by_contra hne
  have : Std.Symm fun a b : Kind => ∀ s, a.spelling? = some s → ∀ t, b.spelling? = some t → s ≠ t :=
    ⟨fun a b hab s hs t ht => (hab t ht s hs).symm⟩
  exact hapart.forall (List.mem_of_getElem? (all_ctorIdx k)) (List.mem_of_getElem? (all_ctorIdx l))
    hne s hk s hl rfl

theorem ofWord_of_spelling {k : Kind} {w : String} (h : k.spelling? = some w) : ofWord w = k := by
  have hbool : ¬ (w = "true" ∨ w = "false") := by
    cases k <;> first | (cases h; decide) | cases h
  have hfound : (Kind.all.find? fun l => l.spelling? == some w).isSome = true :=
    List.find?_isSome.mpr ⟨k, List.mem_of_getElem? (all_ctorIdx k), by rw [h, beq_self_eq_true]⟩
  obtain ⟨l, hl⟩ := Option.isSome_iff_exists.mp hfound
  have hspelling : l.spelling? = some w := by simpa using List.find?_some hl
  rw [ofWord, if_neg hbool, hl, Option.getD_some, eq_of_spelling hspelling h]

theorem ofWord_of_no_spelling {w : String} (hbool : ¬ (w = "true" ∨ w = "false"))
    (h : ∀ k : Kind, k.spelling? ≠ some w) : ofWord w = .identifier := by
  have hnone : (Kind.all.find? fun k => k.spelling? == some w) = none :=
    List.find?_eq_none.mpr fun k _ => by simpa using h k
  rw [ofWord, if_neg hbool, hnone, Option.getD_none]

end Kind

namespace Lexer

open Pattern Lexicon

/-- The earliest kind that a word matches is its kind. -/
theorem kind_of_word {w : String} {k : Kind} (hw : isWord w = true)
    (hk : Matches (pattern k) w.toList)
    (hearliest : ∀ l, Matches (pattern l) w.toList → k.ctorIdx ≤ l.ctorIdx) :
    k = Kind.ofWord w := by
  have hid : Matches (pattern .identifier) w.toList := matches_of_isWord hw
  obtain ⟨c, cs, hcs, hletter⟩ := letter_of_isWord hw
  rw [hcs] at hk
  rcases kind_of_letter hletter hk with rfl | rfl | hspelling
  · -- Truth values and the kinds with a spelling come before the identifiers.
    refine (Kind.ofWord_of_no_spelling ?_ ?_).symm
    · rintro (rfl | rfl)
      · exact absurd (hearliest _ (matches_boolLiteral.mpr (.inl rfl))) (by decide)
      · exact absurd (hearliest _ (matches_boolLiteral.mpr (.inr rfl))) (by decide)
    · intro l hl
      have hle := hearliest l (by rw [pattern_of_spelling hl]; exact matches_literal.mpr rfl)
      have hlt := Kind.ctorIdx_lt_identifier hl
      omega
  · rw [← hcs] at hk
    rcases matches_boolLiteral.mp hk with htrue | hfalse
    · rw [String.toList_inj.mp htrue]
      rfl
    · rw [String.toList_inj.mp hfalse]
      rfl
  · rw [← hcs, String.ofList_toList] at hspelling
    exact (Kind.ofWord_of_spelling hspelling).symm

/-- A word is cut off as far as its letters and digits go. -/
theorem cut_word {w : String} {rest : List Char} (hw : isWord w = true)
    (hrest : ∀ c ∈ rest.head?, isLetterOrDigit c = false)
    (hsealed : ¬ "non-sealed".toList <+: w.toList ++ rest) :
    (cut (w.toList ++ rest)).kind = some (Kind.ofWord w) ∧
      (w.toList ++ rest).take (cut (w.toList ++ rest)).length = w.toList := by
  obtain ⟨c, cs, hcs, hletter⟩ := letter_of_isWord hw
  have hid : Matches (pattern .identifier) w.toList := matches_of_isWord hw
  obtain ⟨k, m, hcut, hm⟩ := cut_longest (v := rest) (by rw [hcs]; exact List.cons_ne_nil c cs) hid
  have hkind : (cut (w.toList ++ rest)).kind = some k := by rw [hcut]
  have hmatch := (right_cut _ k hkind).2
  have haccepted := (accepted_cut _ k hkind).2
  rw [hcut] at hmatch haccepted ⊢
  dsimp only at hmatch haccepted ⊢
  obtain ⟨n, htake⟩ : ∃ n, (w.toList ++ rest).take m = w.toList ++ rest.take n :=
    ⟨m - w.toList.length, by rw [List.take_append, List.take_of_length_le hm]⟩
  -- Nothing of the rest can belong to the word.
  have hnone : rest.take n = [] := by
    rw [htake, hcs, List.cons_append] at hmatch
    rcases isWord_of_letter hletter hmatch with hall | hwhole
    · cases hn : rest.take n with
      | nil => rfl
      | cons d ds =>
        have hd : isLetterOrDigit d = true := List.all_eq_true.mp hall d (by simp [hn])
        obtain ⟨es, hes⟩ := List.take_prefix n rest
        rw [hrest d (by rw [← hes, hn]; rfl)] at hd
        cases hd
    · refine absurd ?_ hsealed
      rw [← hwhole, ← List.cons_append, ← hcs, ← htake]
      exact List.take_prefix m _
  rw [hnone, List.append_nil] at htake
  rw [htake] at hmatch haccepted
  refine ⟨congrArg some (kind_of_word hw hmatch fun l hl => ?_), htake⟩
  exact (abreast_lexicon.left w.toList).accepted haccepted hl

end Lexer

/-- A text that begins with a word has this word as its first token, and nothing stray before it,
unless it begins with `non-sealed`. -/
theorem Lexed.first_token_of_word {w rest : String} (hw : Lexicon.isWord w = true)
    (hrest : ∀ c ∈ rest.toList.head?, Lexicon.isLetterOrDigit c = false)
    (hsealed : ¬ "non-sealed".toList <+: (w ++ rest).toList) :
    (Lexed.ofText (w ++ rest)).pieces.head? = some (.token ⟨Kind.ofWord w, w, .start, 0⟩) := by
  rw [String.toList_append] at hsealed
  obtain ⟨hkind, htaken⟩ := Lexer.cut_word hw hrest hsealed
  have hpos := (Lexer.right_cut _ _ hkind).1
  obtain ⟨c, cs, hcs, _⟩ := Lexicon.letter_of_isWord hw
  rw [Lexed.ofText, String.toList_append]
  rw [hcs, List.cons_append] at hkind htaken hpos ⊢
  unfold Lexer.piecesFrom
  generalize Lexer.cut (c :: (cs ++ rest.toList)) = found at hkind htaken hpos ⊢
  rw [← Nat.sub_add_cancel hpos, List.take_succ_cons, ← hcs] at htaken
  simp only [hkind, htaken, String.ofList_toList, List.head?_cons]

/-- The beginning of `non-sealed` alone is an identifier, and what comes after it stays outside. -/
theorem Lexed.first_token_of_word_non :
    (Lexed.ofText "non-sealer").pieces.head? = some (.token ⟨.identifier, "non", .start, 0⟩) := by
  refine @Lexed.first_token_of_word "non" "-sealer" (by decide) (fun c hc => ?_) (by decide)
  cases hc
  rfl

end Callscope
