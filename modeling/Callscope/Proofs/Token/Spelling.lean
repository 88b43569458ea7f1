import Callscope.Proofs.Text.Pattern
import Callscope.Token.Lexer

/-!
# How tokens are spelled

Every token that is cut from a text is written as the pattern of its kind says, so a kind with one
spelling has tokens of that text only, and no token is empty. What the parser sees of a text ends with
the end of the text.
-/

namespace Callscope

/-- A token with a text, which is the spelling of its kind if that has one. -/
def Token.Proper (t : Token) : Prop :=
  t.text ≠ "" ∧ ∀ s, t.kind.spelling? = some s → t.text = s

theorem Lexicon.pattern_of_spelling {k : Kind} {s : String} (h : k.spelling? = some s) :
    Lexicon.pattern k = .literal s := by
  cases k <;> first | cases h; rfl | cases h

namespace Lexer

open Pattern

variable {ps : List (Kind × Pattern)} {done cs : List Char} {k : Kind}

/-- What has been read and what a pattern still waits for is a text of the pattern's kind. -/
def Reading (ps : List (Kind × Pattern)) (done : List Char) : Prop :=
  ∀ p ∈ ps, ∀ w, Matches p.2 w → Matches (Lexicon.pattern p.1) (done ++ w)

theorem reading_lexicon : Reading lexicon [] := by
  intro p hp w hw
  obtain ⟨k, _, hk⟩ := List.mem_filterMap.mp hp
  dsimp only at hk
  split at hk
  · cases hk
  · cases hk
    exact hw

theorem Reading.after (h : Reading ps done) (c : Char) :
    Reading (after c ps) (done ++ [c]) := by
  intro p hp w hw
  obtain ⟨q, hq, hp⟩ := List.mem_filterMap.mp hp
  dsimp only at hp
  split at hp
  · cases hp
  · cases hp
    rw [List.append_assoc]
    exact h q hq (c :: w) (matches_rest.mp hw)

theorem Reading.accepted (h : Reading ps done) (hk : accepted ps = some k) :
    Matches (Lexicon.pattern k) done := by
  obtain ⟨p, hp, rfl⟩ := Option.map_eq_some_iff.mp hk
  have hnull : p.2.nullable = true := by simpa using List.find?_some hp
  have hmatch := h p (List.mem_of_find?_eq_some hp) [] (nullable_iff.mp hnull)
  rwa [List.append_nil] at hmatch

/-- The patterns that are left after some characters. -/
def left (ps : List (Kind × Pattern)) (cs : List Char) : List (Kind × Pattern) :=
  cs.foldl (fun ps c => after c ps) ps

theorem left_concat (ps : List (Kind × Pattern)) (cs : List Char) (c : Char) :
    left ps (cs ++ [c]) = after c (left ps cs) := List.foldl_append

theorem Reading.left (h : Reading ps done) (cs : List Char) :
    Reading (left ps cs) (done ++ cs) := by
  induction cs generalizing ps done with
  | nil => rwa [List.append_nil]
  | cons c cs ih =>
    rw [← List.singleton_append, ← List.append_assoc]
    exact ih (h.after c)

/-- A cut is the beginning of a text after which a pattern of its kind is accepted. -/
def Cut.Accepted (cut : Cut) (cs : List Char) : Prop :=
  ∀ k, cut.kind = some k → 0 < cut.length ∧ accepted (left lexicon (cs.take cut.length)) = some k

theorem accepted_getD {best : Option Cut} (h : ∀ b, best = some b → b.Accepted cs) (n : Nat) :
    (best.getD ⟨none, n⟩).Accepted cs := by
  cases best with
  | none =>
    intro k hk
    cases hk
  | some b => exact h b rfl

theorem accepted_scan {best : Option Cut}
    (hbest : ∀ b, best = some b → b.Accepted (done ++ cs)) :
    (scan (left lexicon done) done.length best cs).Accepted (done ++ cs) := by
  induction cs generalizing done best with
  | nil => exact accepted_getD hbest _
  | cons c cs ih =>
    rw [scan]
    split
    · exact accepted_getD hbest _
    · have hdone : done ++ c :: cs = done ++ [c] ++ cs := by simp
      have hlength : done.length + 1 = (done ++ [c]).length := by simp
      rw [hdone] at hbest ⊢
      rw [hlength, ← left_concat]
      refine ih fun b hb => ?_
      -- The longest match is the one just found, or it stays.
      split at hb
      · rename_i k hk
        cases hb
        intro k' hk'
        cases hk'
        refine ⟨by simp, ?_⟩
        rw [List.take_left]
        exact hk
      · exact hbest b hb

theorem accepted_cut (cs : List Char) : (cut cs).Accepted cs :=
  @accepted_scan [] cs none (by simp)

/-- What is cut off is matched by the pattern of its kind. -/
theorem right_cut (cs : List Char) (k : Kind) (h : (cut cs).kind = some k) :
    0 < (cut cs).length ∧ Matches (Lexicon.pattern k) (cs.take (cut cs).length) := by
  obtain ⟨hpos, hk⟩ := accepted_cut cs k h
  exact ⟨hpos, (reading_lexicon.left _).accepted hk⟩

/-- A token of a text is its end, or its kind is accepted after its characters. -/
theorem accepted_of_mem_pieces {place : Place} {index : Nat} {t : Token}
    (h : .token t ∈ piecesFrom place index cs) :
    (∃ place index, t = .atEnd place index) ∨
      t.text ≠ "" ∧ accepted (left lexicon t.text.toList) = some t.kind := by
  fun_induction piecesFrom place index cs with
  | case1 place index =>
    cases List.mem_singleton.mp h
    exact .inl ⟨place, index, rfl⟩
  | case2 place index c cs found more taken next k hk ih =>
    rcases List.mem_cons.mp h with h | h
    · cases h
      obtain ⟨hpos, haccepted⟩ := accepted_cut (c :: cs) k hk
      have htaken : (c :: cs).take found.length = taken := by
        obtain ⟨n, hn⟩ := Nat.exists_eq_succ_of_ne_zero (Nat.pos_iff_ne_zero.mp hpos)
        simp [taken, more, found, hn]
      refine .inr ⟨by simp [taken], ?_⟩
      rw [String.toList_ofList, ← htaken]
      exact haccepted
    · exact ih h
  | case3 place index c cs found more taken next hk ih =>
    rcases List.mem_cons.mp h with h | h
    · cases h
    · exact ih h

/-- A token of a text is its end or written as its kind is. -/
theorem matches_of_mem_pieces {place : Place} {index : Nat} {t : Token}
    (h : .token t ∈ piecesFrom place index cs) :
    (∃ place index, t = .atEnd place index) ∨
      t.text ≠ "" ∧ Matches (Lexicon.pattern t.kind) t.text.toList := by
  rcases accepted_of_mem_pieces h with hend | ⟨hne, hk⟩
  · exact .inl hend
  · exact .inr ⟨hne, (reading_lexicon.left _).accepted hk⟩

theorem proper_of_mem_pieces {place : Place} {index : Nat} {t : Token}
    (h : .token t ∈ piecesFrom place index cs) : t.Proper := by
  rcases matches_of_mem_pieces h with ⟨_, _, rfl⟩ | ⟨hne, hmatch⟩
  · exact ⟨by simp [Token.atEnd], fun s hs => by cases hs⟩
  · refine ⟨hne, fun s hs => ?_⟩
    rw [Lexicon.pattern_of_spelling hs, matches_literal] at hmatch
    exact String.toList_injective hmatch

theorem pieces_end (place : Place) (index : Nat) (cs : List Char) :
    ∃ init place' index', piecesFrom place index cs = init ++ [.token (.atEnd place' index')] := by
  fun_induction piecesFrom place index cs with
  | case1 place index => exact ⟨[], place, index, rfl⟩
  | case2 place index c cs found more taken next k hk ih =>
    obtain ⟨init, place', index', h⟩ := ih
    exact ⟨_ :: init, place', index', by rw [h]; rfl⟩
  | case3 place index c cs found more taken next hk ih =>
    obtain ⟨init, place', index', h⟩ := ih
    exact ⟨_ :: init, place', index', by rw [h]; rfl⟩

end Lexer

/-- What the parser sees of a text are proper tokens, and the end of the text is the last of them. -/
theorem Lexed.visible_ofText (text : String) :
    (∀ t ∈ (Lexed.ofText text).visible, t.Proper) ∧
      ∃ init place index, (Lexed.ofText text).visible = init ++ [.atEnd place index] := by
  constructor
  · intro t ht
    obtain ⟨p, hp, hpt⟩ := List.mem_filterMap.mp (List.mem_filter.mp ht).1
    cases p with
    | stray s => cases hpt
    | token t' =>
      cases hpt
      exact Lexer.proper_of_mem_pieces hp
  · obtain ⟨init, place, index, h⟩ := Lexer.pieces_end .start 0 text.toList
    refine ⟨(init.filterMap Piece.token?).filter fun t => !t.kind.hidden, place, index, ?_⟩
    rw [Lexed.visible, Lexed.tokens, Lexed.ofText, h, List.filterMap_append, List.filter_append]
    rfl

end Callscope
