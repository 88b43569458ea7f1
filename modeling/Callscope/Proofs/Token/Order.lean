import Callscope.Proofs.Token.Partition

/-!
# Tokens in the order of a text

A line and a column are enough to tell the tokens of a text apart: every token begins on a later line
than those before it, or in a later column of the same line.
-/

namespace Callscope

namespace Place

/-- One place comes before another, line by line. -/
def Precedes (p q : Place) : Prop := p.line < q.line ∨ p.line = q.line ∧ p.column < q.column

theorem Precedes.trans {p q r : Place} (hpq : p.Precedes q) (hqr : q.Precedes r) :
    p.Precedes r := by
  unfold Precedes at *
  omega

theorem precedes_step (p : Place) (c : Char) : p.Precedes (p.step c) := by
  rw [Precedes, step]
  split
  · exact .inl (Nat.lt_succ_self _)
  · exact .inr ⟨rfl, Nat.lt_succ_self _⟩

theorem precedes_advance (p : Place) {cs : List Char} (h : cs ≠ []) :
    p.Precedes (p.advance cs) := by
  induction cs generalizing p with
  | nil => contradiction
  | cons c cs ih =>
    rw [advance, List.foldl_cons, ← advance]
    cases cs with
    | nil => exact precedes_step p c
    | cons d ds => exact (precedes_step p c).trans (ih (p.step c) (List.cons_ne_nil d ds))

end Place

namespace Lexer

variable {done rest : List Char} {ps : List Piece}

/-- Pieces begin where what is before them ends. -/
theorem Tiles.place_eq (h : Tiles done ps rest) :
    ∀ p ∈ ps, ∃ more, p.place = Place.start.advance (done ++ more) := by
  induction h with
  | @done done n =>
    intro p hp
    rw [List.mem_singleton.mp hp]
    exact ⟨[], by rw [List.append_nil]; rfl⟩
  | @next done rest q ps here covers more ih =>
    intro p hp
    rcases List.mem_cons.mp hp with rfl | hp
    · exact ⟨[], by rw [List.append_nil]; exact here⟩
    · obtain ⟨more, hmore⟩ := ih p hp
      exact ⟨q.source.toList ++ more, by rw [← List.append_assoc]; exact hmore⟩

theorem Tiles.ordered (h : Tiles done ps rest) :
    ps.Pairwise fun p q => p.place.Precedes q.place := by
  induction h with
  | done => exact List.pairwise_singleton _ _
  | @next done rest q ps here covers more ih =>
    refine List.pairwise_cons.mpr ⟨fun p hp => ?_, ih⟩
    obtain ⟨more', hmore⟩ := more.place_eq p hp
    rw [here, hmore, List.append_assoc, Place.advance_append]
    refine Place.precedes_advance _ fun hnil => covers ?_
    exact String.toList_eq_nil_iff.mp (List.append_eq_nil_iff.mp hnil).1

end Lexer

namespace Lexed

variable {text : String} {s t : Token}

/-- The tokens that the parser sees begin one after the other. -/
theorem visible_ordered (text : String) :
    (Lexed.ofText text).visible.Pairwise fun s t => s.place.Precedes t.place := by
  refine List.Pairwise.filter _ ?_
  refine (tiles_ofText text).ordered.filterMap Piece.token? fun p q hpq s hs t ht => ?_
  cases p with
  | stray => cases hs
  | token s' =>
    cases q with
    | stray => cases ht
    | token t' =>
      obtain rfl := Option.some.inj hs
      obtain rfl := Option.some.inj ht
      exact hpq

theorem visible_nodup (text : String) : (Lexed.ofText text).visible.Nodup := by
  refine (visible_ordered text).imp fun {s t} hst heq => ?_
  rw [heq, Place.Precedes] at hst
  omega

/-- Two tokens do not begin at one place. -/
theorem eq_of_place (hs : s ∈ (Lexed.ofText text).visible) (ht : t ∈ (Lexed.ofText text).visible)
    (hline : s.line = t.line) (hcolumn : s.column = t.column) : s = t := by
  have happart : (Lexed.ofText text).visible.Pairwise fun s t =>
      s.place.Precedes t.place ∨ t.place.Precedes s.place := (visible_ordered text).imp .inl
  have : Std.Symm fun s t : Token => s.place.Precedes t.place ∨ t.place.Precedes s.place :=
    ⟨fun _ _ => Or.symm⟩
  rw [Token.line, Token.line] at hline
  rw [Token.column, Token.column] at hcolumn
  refine Classical.byContradiction fun hne => ?_
  have hcases := happart.forall hs ht hne
  simp only [Place.Precedes] at hcases
  omega

end Lexed

end Callscope
