import Mathlib.Order.MinMax
import Callscope.Token.Lexer

/-!
# Tokens at other places

A relocation moves tokens to other places and gives them other numbers, and keeps their order. Texts
that the parser sees the same tokens of are relocations of one list, in which every token stands at its
rank. So what commutes with every relocation cannot tell such texts apart.
-/

namespace Callscope

/-- The place and the index that a token is moved to, by its index. Later tokens stay later. -/
structure Relocation where
  place : Nat → Place
  index : Nat → Nat
  increasing : StrictMono index

namespace Relocation

variable (f : Relocation)

theorem index_lt_iff {i j : Nat} : f.index i < f.index j ↔ i < j := f.increasing.lt_iff_lt

theorem index_max (i j : Nat) : f.index (max i j) = max (f.index i) (f.index j) :=
  f.increasing.monotone.map_max

end Relocation

namespace Token

/-- The token moved to another place. -/
def relocate (f : Relocation) (t : Token) : Token :=
  { t with place := f.place t.index, index := f.index t.index }

@[simp] theorem kind_relocate (f : Relocation) (t : Token) : (t.relocate f).kind = t.kind := by
  cases t; rfl

@[simp] theorem text_relocate (f : Relocation) (t : Token) : (t.relocate f).text = t.text := by
  cases t; rfl

@[simp] theorem index_relocate (f : Relocation) (t : Token) :
    (t.relocate f).index = f.index t.index := by
  cases t; rfl

/-- What a token is, wherever it stands. -/
def content (t : Token) : Kind × String := (t.kind, t.text)

/-- A token that stands at its rank among some tokens. -/
def atRank (i : Nat) (x : Kind × String) : Token := ⟨x.1, x.2, .start, i⟩

/-- Tokens of some contents, each at its rank. -/
def ranked (xs : List (Kind × String)) : List Token := xs.mapIdx atRank

end Token

namespace Relocation

/-- Moves the rank of each token of a list to where the token is. Ranks beyond the list are moved
beyond all of its tokens. -/
def ofTokens (ts : List Token) (h : ts.Pairwise fun s t => s.index < t.index) : Relocation where
  place i := (ts.getD i default).place
  index i := if hi : i < ts.length then ts[i].index else (ts.map Token.index).max?.getD 0 + i
  increasing := by
    intro i j hij
    by_cases hj : j < ts.length
    · have hi : i < ts.length := Nat.lt_trans hij hj
      simp only [hi, hj, dif_pos]
      exact List.pairwise_iff_getElem.mp h i j hi hj hij
    · simp only [hj, dif_neg, not_false_eq_true]
      by_cases hi : i < ts.length
      · have hle : ts[i].index ≤ (ts.map Token.index).max?.getD 0 :=
          List.le_max?_getD_of_mem (List.mem_map_of_mem (List.getElem_mem hi))
        simp only [hi, dif_pos]
        omega
      · simp only [hi, dif_neg, not_false_eq_true]
        omega

/-- Every list of tokens in order is a relocation of its contents at their ranks. -/
theorem map_ranked {ts : List Token} (h : ts.Pairwise fun s t => s.index < t.index) :
    (Token.ranked (ts.map Token.content)).map (Token.relocate (ofTokens ts h)) = ts := by
  apply List.ext_getElem
  · simp [Token.ranked]
  · intro i hi hi'
    simp [Token.ranked, Token.relocate, Token.atRank, Token.content, ofTokens, hi']

end Relocation

/-! ## The tokens of a text -/

namespace Lexer

/-- The tokens of a text are numbered in order. -/
theorem tokens_increasing (place : Place) (index : Nat) (cs : List Char) :
    ((piecesFrom place index cs).filterMap Piece.token?).Pairwise (fun s t => s.index < t.index) ∧
      ∀ t ∈ (piecesFrom place index cs).filterMap Piece.token?, index ≤ t.index := by
  fun_induction piecesFrom place index cs with
  | case1 place index => simp [Piece.token?, Token.atEnd]
  | case2 place index c cs found more taken next k hk ih =>
    obtain ⟨hsorted, hle⟩ := ih
    simp only [List.filterMap_cons, Piece.token?, List.pairwise_cons, List.mem_cons]
    refine ⟨⟨fun t ht => ?_, hsorted⟩, ?_⟩
    · exact hle t ht
    · rintro t (rfl | ht)
      · exact Nat.le_refl _
      · have hlt := hle t ht
        omega
  | case3 place index c cs found more taken next hk ih =>
    simpa only [List.filterMap_cons, Piece.token?] using ih

end Lexer

theorem Lexed.visible_increasing (text : String) :
    (Lexed.ofText text).visible.Pairwise fun s t => s.index < t.index :=
  (Lexer.tokens_increasing .start 0 text.toList).1.filter _

end Callscope
