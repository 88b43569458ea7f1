import Mathlib.Data.List.Induction
import Mathlib.Data.List.Pairwise
import Callscope.Proofs.Token.Spelling
import Callscope.Run.Console

/-!
# Texts are cut without loss

Cutting puts every character of a text into one piece, a token or stray characters, and every piece at
the place where it stands. `Tiles` says how pieces lie one behind the other; what there is to know about
tokens, stray characters and their places follows from it. The end of the text is a token that covers
nothing.
-/

namespace Callscope

/-! ## Places -/

namespace Place

theorem advance_append (p : Place) (cs ds : List Char) :
    p.advance (cs ++ ds) = (p.advance cs).advance ds := List.foldl_append

theorem offset_advance (p : Place) (cs : List Char) :
    (p.advance cs).offset = p.offset + cs.length := by
  induction cs generalizing p with
  | nil => rfl
  | cons c cs ih =>
    have hstep : (p.step c).offset = p.offset + 1 := by
      rw [step]
      split <;> rfl
    rw [advance, List.foldl_cons, ← advance, ih, hstep, List.length_cons]
    omega

/-- Only line feeds begin lines. -/
theorem line_advance (p : Place) (cs : List Char) :
    (p.advance cs).line = p.line + cs.count '\n' := by
  induction cs generalizing p with
  | nil => rfl
  | cons c cs ih =>
    rw [advance, List.foldl_cons, ← advance, ih, step, List.count_cons]
    by_cases hc : c = '\n'
    · simp only [hc, if_pos, beq_self_eq_true]
      omega
    · simp [hc]

/-- The column counts the characters since the last line feed. -/
theorem column_advance (cs : List Char) :
    (start.advance cs).column = (cs.reverse.takeWhile (· != '\n')).length := by
  induction cs using List.reverseRecOn with
  | nil => rfl
  | append_singleton cs c ih =>
    have hlast : start.advance (cs ++ [c]) = (start.advance cs).step c := advance_append _ _ _
    rw [hlast, List.reverse_append, List.reverse_singleton, List.singleton_append,
      List.takeWhile_cons, step]
    by_cases hc : c = '\n'
    · simp [hc]
    · simp [hc, ih]

end Place

/-! ## Pieces -/

namespace Piece

def place : Piece → Place
  | token t => t.place
  | stray s => s.place

/-- The characters that a piece covers. -/
def source : Piece → String
  | token t => if t.kind = .eof then "" else t.text
  | stray s => s.text

/-- One piece ends before another begins. -/
def Before (p q : Piece) : Prop := p.place.offset + p.source.length ≤ q.place.offset

def Covers (p : Piece) (i : Nat) : Prop :=
  p.place.offset ≤ i ∧ i < p.place.offset + p.source.length

/-- A piece stands in a text where it says. -/
def StandsIn (p : Piece) (text : List Char) : Prop :=
  ∃ before after, text = before ++ p.source.toList ++ after ∧ p.place = Place.start.advance before

end Piece

namespace Lexer

open Piece

/-- Pieces that lie one behind the other from the end of `done` on, over all of the rest and up to the
end of the text. Each of them but the end covers something. -/
inductive Tiles : List Char → List Piece → List Char → Prop
  | done {done : List Char} {n : Nat} :
      Tiles done [.token (.atEnd (Place.start.advance done) n)] []
  | next {done rest : List Char} {p : Piece} {ps : List Piece}
      (here : p.place = Place.start.advance done) (covers : p.source ≠ "")
      (more : Tiles (done ++ p.source.toList) ps rest) :
      Tiles done (p :: ps) (p.source.toList ++ rest)

/-- No text is written as the end. -/
theorem kind_ne_eof {cs : List Char} {k : Kind} (h : (cut cs).kind = some k) : k ≠ .eof := by
  rintro rfl
  exact Pattern.not_matches_nothing (right_cut cs .eof h).2

theorem tiles_piecesFrom (done : List Char) (index : Nat) (cs : List Char) :
    Tiles done (piecesFrom (Place.start.advance done) index cs) cs := by
  generalize hplace : Place.start.advance done = place
  fun_induction piecesFrom place index cs generalizing done with
  | case1 place index =>
    rw [← hplace]
    exact .done
  | case2 place index c cs found more taken next k hk ih =>
    let p : Piece := .token ⟨k, String.ofList taken, place, index⟩
    have hsource : p.source = String.ofList taken := if_neg (kind_ne_eof hk)
    have hcs : c :: cs = p.source.toList ++ cs.drop more := by simp [hsource, taken]
    have hnext : Place.start.advance (done ++ p.source.toList) = next := by
      rw [Place.advance_append, hplace, hsource, String.toList_ofList]
    rw [hcs]
    exact .next hplace.symm (hsource.trans_ne (by simp [taken])) (ih _ hnext)
  | case3 place index c cs found more taken next hk ih =>
    let p : Piece := .stray ⟨String.ofList taken, place, index⟩
    have hcs : c :: cs = p.source.toList ++ cs.drop more := by simp [p, source, taken]
    have hnext : Place.start.advance (done ++ p.source.toList) = next := by
      rw [Place.advance_append, hplace, source, String.toList_ofList]
    rw [hcs]
    exact .next hplace.symm (by simp [source, taken]) (ih _ hnext)

section Tiles

variable {done rest : List Char} {ps : List Piece}

/-- The characters of the pieces are those of the text. -/
theorem Tiles.join_source (h : Tiles done ps rest) :
    String.join (ps.map source) = String.ofList rest := by
  induction h with
  | done => rfl
  | next here covers more ih =>
    rw [List.map_cons, String.join_cons, ih, String.ofList_append, String.ofList_toList]

theorem Tiles.standsIn (h : Tiles done ps rest) : ∀ p ∈ ps, p.StandsIn (done ++ rest) := by
  induction h with
  | @done done n =>
    intro p hp
    rw [List.mem_singleton.mp hp]
    exact ⟨done, [], by simp [source, Token.atEnd], rfl⟩
  | @next done rest q ps here covers more ih =>
    intro p hp
    rcases List.mem_cons.mp hp with rfl | hp
    · exact ⟨done, rest, (List.append_assoc _ _ _).symm, here⟩
    · rw [← List.append_assoc]
      exact ih p hp

theorem offset_of_place {p : Piece} (here : p.place = Place.start.advance done) :
    p.place.offset = done.length := by
  rw [here, Place.offset_advance, Place.start, Nat.zero_add]

/-- No piece begins before the one before it has ended. -/
theorem Tiles.before (h : Tiles done ps rest) :
    ps.Pairwise Before ∧ ∀ p ∈ ps, done.length ≤ p.place.offset := by
  induction h with
  | @done done n =>
    refine ⟨List.pairwise_singleton _ _, fun p hp => ?_⟩
    rw [List.mem_singleton.mp hp]
    exact Nat.le_of_eq (offset_of_place rfl).symm
  | @next done rest q ps here covers more ih =>
    obtain ⟨hordered, hle⟩ := ih
    have hq := offset_of_place here
    simp only [List.length_append, String.length_toList] at hle
    refine ⟨List.pairwise_cons.mpr ⟨fun p hp => ?_, hordered⟩, fun p hp => ?_⟩
    · have hp := hle p hp
      rw [Before]
      omega
    · rcases List.mem_cons.mp hp with rfl | hp
      · omega
      · have hp := hle p hp
        omega

/-- Every character of the rest is covered by a piece. -/
theorem Tiles.exists_covers (h : Tiles done ps rest) {i : Nat} (hi : done.length ≤ i)
    (hlt : i < done.length + rest.length) : ∃ p ∈ ps, p.Covers i := by
  induction h with
  | done =>
    rw [List.length_nil] at hlt
    omega
  | @next done rest q ps here covers more ih =>
    have hq := offset_of_place here
    simp only [List.length_append, String.length_toList] at hlt ih
    by_cases hin : i < done.length + q.source.length
    · exact ⟨q, List.mem_cons_self, by rw [Covers]; omega⟩
    · obtain ⟨p, hp, hcovers⟩ := ih (by omega) (by omega)
      exact ⟨p, List.mem_cons_of_mem _ hp, hcovers⟩

/-- The end of the text comes last, and all other pieces cover something. -/
theorem Tiles.ended (h : Tiles done ps rest) : ∃ init n,
    ps = init ++ [.token (.atEnd (Place.start.advance (done ++ rest)) n)] ∧
      ∀ p ∈ init, p.source ≠ "" := by
  induction h with
  | @done done n => exact ⟨[], n, by simp, by simp⟩
  | @next done rest q ps here covers more ih =>
    obtain ⟨init, n, rfl, hinit⟩ := ih
    refine ⟨q :: init, n, by rw [← List.append_assoc]; rfl, fun p hp => ?_⟩
    rcases List.mem_cons.mp hp with rfl | hp
    · exact covers
    · exact hinit p hp

end Tiles

end Lexer

/-! ## Whole texts -/

/-- The characters of a text from an offset on. -/
def Text.slice (text : String) (start width : Nat) : String :=
  String.ofList ((text.toList.drop start).take width)

namespace Piece

variable {text : String} {p : Piece}

theorem StandsIn.slice (h : p.StandsIn text.toList) :
    p.source = Text.slice text p.place.offset p.source.length := by
  obtain ⟨before, after, htext, here⟩ := h
  rw [Text.slice, htext, Lexer.offset_of_place here, List.append_assoc, List.drop_left,
    ← String.length_toList, List.take_left, String.ofList_toList]

/-- The line and the column of a piece count what stands before it. -/
theorem StandsIn.counts (h : p.StandsIn text.toList) :
    let before := text.toList.take p.place.offset
    p.place.line = 1 + before.count '\n' ∧
      p.place.column = (before.reverse.takeWhile (· != '\n')).length := by
  obtain ⟨before, after, htext, here⟩ := h
  have hbefore : text.toList.take p.place.offset = before := by
    rw [htext, Lexer.offset_of_place here, List.append_assoc, List.take_left]
  rw [hbefore, here]
  exact ⟨Place.line_advance _ _, Place.column_advance _⟩

theorem kind_ne_eof_of_source {t : Token} (h : (token t).source ≠ "") : t.kind ≠ .eof :=
  fun hk => h (if_pos hk)

@[simp] theorem length_source_token (t : Token) : (token t).source.length = t.width := by
  rw [source, Token.width]
  split <;> rfl

end Piece

namespace Lexed

variable {l : Lexed} {t : Token} {s : Stray}

theorem mem_tokens : t ∈ l.tokens ↔ .token t ∈ l.pieces := by
  simp only [tokens, List.mem_filterMap]
  constructor
  · rintro ⟨p, hp, hpt⟩
    cases p with
    | token t' => exact Option.some.inj hpt ▸ hp
    | stray s => cases hpt
  · exact fun h => ⟨_, h, rfl⟩

theorem mem_strays : s ∈ l.strays ↔ .stray s ∈ l.pieces := by
  simp only [strays, List.mem_filterMap]
  constructor
  · rintro ⟨p, hp, hps⟩
    cases p with
    | token t => cases hps
    | stray s' => exact Option.some.inj hps ▸ hp
  · exact fun h => ⟨_, h, rfl⟩

/-- The tokens of a text and the stray characters in it together are the text. -/
structure Partitions (l : Lexed) (text : String) : Prop where
  /-- The end of the text is the last token and the last piece, and no other token is one. -/
  ended : ∃ init last, l.tokens = init ++ [last] ∧ l.pieces.getLast? = some (.token last) ∧
    last.kind = .eof ∧ last.place.offset = text.length ∧ ∀ t ∈ init, t.kind ≠ .eof
  /-- Every other token is a slice of the text. -/
  token : ∀ t ∈ l.tokens, t.kind ≠ .eof →
    0 < t.width ∧ t.text = Text.slice text t.place.offset t.width
  apart : l.tokens.Pairwise fun t u => t.place.offset + t.width ≤ u.place.offset
  /-- What is reported about stray characters shows the slice of the text that they are. -/
  stray : ∀ s ∈ l.strays, 0 < s.text.length ∧
    s.message = "token recognition error at: " ++
      Text.quote (Text.slice text s.place.offset s.text.length)
  straysApart : l.strays.Pairwise fun s u => s.place.offset + s.text.length ≤ u.place.offset
  /-- A character is stray exactly if it is in no token. -/
  gaps : ∀ i < text.length,
    (∃ s ∈ l.strays, s.place.offset ≤ i ∧ i < s.place.offset + s.text.length) ↔
      ¬ ∃ t ∈ l.tokens, t.place.offset ≤ i ∧ i < t.place.offset + t.width
  /-- Tokens and stray characters by position give back the text. -/
  whole : l.pieces.Pairwise Piece.Before ∧ String.join (l.pieces.map Piece.source) = text
  placed : ∀ p ∈ l.pieces,
    let before := text.toList.take p.place.offset
    p.place.line = 1 + before.count '\n' ∧
      p.place.column = (before.reverse.takeWhile (· != '\n')).length

/-- Pieces that end before others begin cover no character twice. -/
theorem eq_of_covers (h : l.pieces.Pairwise Piece.Before) {p q : Piece} (hp : p ∈ l.pieces)
    (hq : q ∈ l.pieces) {i : Nat} (hpi : p.Covers i) (hqi : q.Covers i) : p = q := by
  have happart : l.pieces.Pairwise fun p q => p.Before q ∨ q.Before p := h.imp .inl
  have : Std.Symm fun p q : Piece => p.Before q ∨ q.Before p := ⟨fun _ _ => Or.symm⟩
  refine Classical.byContradiction fun hne => ?_
  simp only [Piece.Covers] at hpi hqi
  rcases happart.forall hp hq hne with hbefore | hbefore
  · rw [Piece.Before] at hbefore
    omega
  · rw [Piece.Before] at hbefore
    omega

theorem tokens_apart (h : l.pieces.Pairwise Piece.Before) :
    l.tokens.Pairwise fun t u => t.place.offset + t.width ≤ u.place.offset := by
  refine h.filterMap Piece.token? fun p q hpq t ht u hu => ?_
  cases p with
  | stray s => cases ht
  | token t' =>
    cases q with
    | stray s => cases hu
    | token u' =>
      obtain rfl := Option.some.inj ht
      obtain rfl := Option.some.inj hu
      rw [Piece.Before, Piece.length_source_token] at hpq
      exact hpq

theorem strays_apart (h : l.pieces.Pairwise Piece.Before) :
    l.strays.Pairwise fun s u => s.place.offset + s.text.length ≤ u.place.offset := by
  refine h.filterMap Piece.stray? fun p q hpq s hs u hu => ?_
  cases p with
  | token t => cases hs
  | stray s' =>
    cases q with
    | token t => cases hu
    | stray u' =>
      obtain rfl := Option.some.inj hs
      obtain rfl := Option.some.inj hu
      exact hpq

theorem ended_of_pieces {text : String} {init : List Piece} {n : Nat}
    (h : l.pieces = init ++ [.token (.atEnd (Place.start.advance text.toList) n)])
    (hinit : ∀ p ∈ init, p.source ≠ "") :
    ∃ init last, l.tokens = init ++ [last] ∧ l.pieces.getLast? = some (.token last) ∧
      last.kind = .eof ∧ last.place.offset = text.length ∧ ∀ t ∈ init, t.kind ≠ .eof := by
  refine ⟨init.filterMap Piece.token?, .atEnd (Place.start.advance text.toList) n, ?_, ?_, rfl, ?_, ?_⟩
  · rw [tokens, h, List.filterMap_append]
    rfl
  · rw [h, List.getLast?_concat]
  · rw [Token.atEnd, Place.offset_advance, Place.start, Nat.zero_add, String.length_toList]
  · intro t ht
    obtain ⟨p, hp, hpt⟩ := List.mem_filterMap.mp ht
    cases p with
    | stray s => cases hpt
    | token t' =>
      obtain rfl := Option.some.inj hpt
      exact Piece.kind_ne_eof_of_source (hinit _ hp)

theorem tiles_ofText (text : String) :
    Lexer.Tiles [] (Lexed.ofText text).pieces text.toList :=
  Lexer.tiles_piecesFrom [] 0 text.toList

/-- Every text is cut into tokens and stray characters without loss. -/
theorem partitions_ofText (text : String) : (Lexed.ofText text).Partitions text := by
  have htiles := tiles_ofText text
  have hstands : ∀ p ∈ (Lexed.ofText text).pieces, p.StandsIn text.toList := htiles.standsIn
  have hbefore := htiles.before.1
  obtain ⟨init, n, hpieces, hinit⟩ := htiles.ended
  -- A piece that covers nothing is the end.
  have hcovers : ∀ p ∈ (Lexed.ofText text).pieces, (∀ t, p = .token t → t.kind ≠ .eof) →
      0 < p.source.length := by
    intro p hp hinner
    rw [hpieces, List.mem_append] at hp
    rcases hp with hp | hp
    · exact Nat.pos_of_ne_zero fun h => hinit p hp (String.length_eq_zero_iff.mp h)
    · exact absurd rfl (hinner _ (List.mem_singleton.mp hp))
  refine ⟨ended_of_pieces hpieces hinit, ?_, tokens_apart hbefore, ?_, strays_apart hbefore, ?_,
    ⟨hbefore, ?_⟩, fun p hp => (hstands p hp).counts⟩
  · intro t ht hinner
    have hp := mem_tokens.mp ht
    have hpos := hcovers _ hp fun u hu => by cases hu; exact hinner
    have hslice := (hstands _ hp).slice
    rw [Piece.length_source_token] at hpos hslice
    rw [Piece.source, if_neg hinner] at hslice
    exact ⟨hpos, hslice⟩
  · intro s hs
    have hp := mem_strays.mp hs
    have hpos : 0 < s.text.length := hcovers _ hp fun t ht => by cases ht
    have hslice : s.text = Text.slice text s.place.offset s.text.length := (hstands _ hp).slice
    refine ⟨hpos, ?_⟩
    unfold Stray.message
    rw [← hslice]
  · intro i hi
    constructor
    · rintro ⟨s, hs, hsi⟩ ⟨t, ht, hti⟩
      have hti' : (Piece.token t).Covers i := by
        rw [Piece.Covers, Piece.length_source_token]
        exact hti
      cases eq_of_covers hbefore (mem_strays.mp hs) (mem_tokens.mp ht) hsi hti'
    · intro hnone
      obtain ⟨p, hp, hpi⟩ :=
        htiles.exists_covers (Nat.zero_le i) (by simpa [String.length_toList] using hi)
      cases p with
      | stray s => exact ⟨s, mem_strays.mpr hp, hpi⟩
      | token t =>
        rw [Piece.Covers, Piece.length_source_token] at hpi
        exact absurd ⟨t, mem_tokens.mpr hp, hpi⟩ hnone
  · rw [htiles.join_source, String.ofList_toList]

end Lexed

end Callscope
