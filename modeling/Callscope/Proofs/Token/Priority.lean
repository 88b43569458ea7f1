import Callscope.Proofs.Grammar.Looks
import Callscope.Proofs.Token.Words

/-!
# The earliest kind wins

While a text is read the patterns stay in the order of their kinds, and none is dropped that could still
match. So a token gets the earliest of all kinds that its text could be, and a word that is the spelling
of some kind is not an identifier.
-/

namespace Callscope

namespace Lexer

open Pattern

variable {ps : List (Kind × Pattern)} {done cs : List Char} {k : Kind}

/-- The patterns are in the order of their kinds, and what a kind can be after `done` is waited for. -/
structure Abreast (ps : List (Kind × Pattern)) (done : List Char) : Prop where
  ordered : ps.Pairwise fun p q => p.1.ctorIdx < q.1.ctorIdx
  waiting : ∀ k w, Matches (Lexicon.pattern k) (done ++ w) → ∃ q, (k, q) ∈ ps ∧ Matches q w

theorem isNothing_of_matches {p : Pattern} {w : List Char} (h : Matches p w) :
    p.isNothing = false := by
  cases h <;> rfl

theorem abreast_lexicon : Abreast lexicon [] where
  ordered := by
    have hkinds : (lexicon.map fun p => p.1.ctorIdx).Pairwise (· < ·) := by decide +kernel
    exact List.pairwise_map.mp hkinds
  waiting := by
    intro k w hw
    refine ⟨Lexicon.pattern k, List.mem_filterMap.mpr ⟨k, ?_, ?_⟩, hw⟩
    · exact List.mem_of_getElem? (Kind.all_ctorIdx k)
    · simp only [isNothing_of_matches hw, Bool.false_eq_true, if_false]

theorem Abreast.after (h : Abreast ps done) (c : Char) : Abreast (after c ps) (done ++ [c]) where
  ordered := by
    refine h.ordered.filterMap _ fun p q hpq p' hp' q' hq' => ?_
    dsimp only at hp' hq'
    split at hp'
    · cases hp'
    · split at hq'
      · cases hq'
      · cases hp'
        cases hq'
        exact hpq
  waiting := by
    intro k w hw
    rw [List.append_assoc] at hw
    obtain ⟨q, hq, hmatch⟩ := h.waiting k (c :: w) hw
    have hrest : Matches (q.rest c) w := matches_rest.mpr hmatch
    refine ⟨q.rest c, List.mem_filterMap.mpr ⟨(k, q), hq, ?_⟩, hrest⟩
    simp only [isNothing_of_matches hrest, Bool.false_eq_true, if_false]

/-- The pattern that is accepted is the earliest one that matches what has been read. -/
theorem Abreast.accepted (h : Abreast ps done) (hk : accepted ps = some k) {k' : Kind}
    (hmatch : Matches (Lexicon.pattern k') done) : k.ctorIdx ≤ k'.ctorIdx := by
  obtain ⟨q, hq, hnull⟩ := h.waiting k' [] (by rwa [List.append_nil])
  obtain ⟨p, hp, rfl⟩ := Option.map_eq_some_iff.mp hk
  obtain ⟨_, before, after, rfl, hbefore⟩ := List.find?_eq_some_iff_append.mp hp
  rcases List.mem_append.mp hq with hq | hq
  · -- No pattern before the accepted one matches.
    have hno := hbefore _ hq
    rw [nullable_iff.mpr hnull] at hno
    cases hno
  · rcases List.mem_cons.mp hq with rfl | hq
    · exact Nat.le_refl _
    · have hordered := (List.pairwise_append.mp h.ordered).2.1
      exact Nat.le_of_lt ((List.pairwise_cons.mp hordered).1 _ hq)

theorem Abreast.left (h : Abreast ps done) (cs : List Char) :
    Abreast (left ps cs) (done ++ cs) := by
  induction cs generalizing ps done with
  | nil => rwa [List.append_nil]
  | cons c cs ih =>
    rw [← List.singleton_append, ← List.append_assoc]
    exact ih (h.after c)

/-- A token is the end of the text or of the earliest kind that is written so. -/
theorem earliest_of_mem_pieces {place : Place} {index : Nat} {t : Token}
    (h : .token t ∈ piecesFrom place index cs) :
    t.kind = .eof ∨
      ∀ k, Matches (Lexicon.pattern k) t.text.toList → t.kind.ctorIdx ≤ k.ctorIdx := by
  rcases accepted_of_mem_pieces h with ⟨_, _, rfl⟩ | ⟨_, hk⟩
  · exact .inl rfl
  · exact .inr fun k hmatch => (abreast_lexicon.left _).accepted hk hmatch

end Lexer

/-- Identifiers come after all kinds that have a spelling. -/
theorem Kind.ctorIdx_lt_identifier {k : Kind} {s : String} (h : k.spelling? = some s) :
    k.ctorIdx < Kind.identifier.ctorIdx := by
  cases k <;> first | decide | cases h

/-- The text of an identifier is not the spelling of any kind. -/
theorem Lexed.spelling_ne_of_identifier {text : String} {t : Token}
    (h : t ∈ (Lexed.ofText text).visible) (ht : t.kind = .identifier) (k : Kind) :
    k.spelling? ≠ some t.text := by
  intro hk
  have hmatch : Pattern.Matches (Lexicon.pattern k) t.text.toList := by
    rw [Lexicon.pattern_of_spelling hk]
    exact Pattern.matches_literal.mpr rfl
  rcases Lexer.earliest_of_mem_pieces (mem_pieces_of_visible h) with heof | hearliest
  · rw [ht] at heof
    cases heof
  · have hle := hearliest k hmatch
    have hlt := Kind.ctorIdx_lt_identifier hk
    rw [ht] at hle
    omega

end Callscope
