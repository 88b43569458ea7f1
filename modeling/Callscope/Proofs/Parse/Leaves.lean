import Callscope.Proofs.Parse.Termination
import Callscope.Proofs.Token.Relocation

/-!
# The leaves of a tree

A token that is taken becomes a leaf, whether it fits or is skipped, and nothing else does but tokens that
are missing in the text. Giving rules up, dropping tokens and supplying missing ones loses none of them
and adds none. So the leaves of every tree are the tokens of the text up to where its phrase ends.
-/

namespace Callscope

namespace Tree

@[simp] theorem tokens_skipped (x : Token) : (skipped x).tokens = [x] := by
  simp [tokens, leaves, token?]

@[simp] theorem tokens_missing (k : Kind) : (missing k).tokens = [] := by
  simp [tokens, leaves, token?]

end Tree

namespace Machine

open Callscope.Frame (tokens_cons)

variable {a : Lookahead.Automata} {m m' : Machine}

/-! ## What has been taken -/

theorem taken_congr (hread : m'.frame.read = m.frame.read) (hcallers : m'.callers = m.callers) :
    m'.taken = m.taken := by
  rw [taken, taken, hcallers, Frame.tokens, hread, Frame.tokens]

theorem taken_addLeaf (m : Machine) (t : Tree) : (m.addLeaf t).taken = m.taken ++ t.tokens := by
  rw [taken, taken, List.append_assoc, ← tokens_cons]
  rfl

theorem taken_take (m : Machine) : m.take.taken = m.taken ++ [m.current] := by
  have hadvance : ∀ n : Machine, n.advance.taken = n.taken := by
    intro n
    rw [advance]
    split <;> rfl
  rw [take, hadvance, taken_addLeaf]
  split
  · rw [Tree.tokens_skipped]
  · rw [Tree.tokens_token]

theorem taken_wrap (m : Machine) : m.wrap.taken = m.taken := by
  have htokens : m.wrap.frame.tokens = m.frame.tokens := by
    simpa [wrap, Frame.tokens] using m.tokens_close
  rw [taken, htokens]
  rfl

theorem taken_enter (m : Machine) (site : Nat) (rule : Rule) (level : Nat)
    (label : Option Label) : (m.enter a site rule level label).taken = m.taken := by
  simp [taken, enter, Frame.tokens]

/-- A rule that ends hands its tree to its caller. -/
theorem leave_eq (h : m.leave = .inl m') :
    m'.current = m.current ∧ m'.rest = m.rest ∧ m'.taken = m.taken := by
  obtain ⟨caller, callers, labels, hcallers, rfl⟩ := exists_of_leave h
  have htaken : m.taken = callers.reverse.flatMap Frame.tokens ++
      Frame.tokens { caller with read := m.close :: caller.read } := by
    rw [taken, hcallers, List.reverse_cons, List.flatMap_append, List.flatMap_singleton,
      List.append_assoc, ← tokens_close, ← tokens_cons]
  exact ⟨rfl, rfl, htaken.symm⟩

/-! ## Accounts -/

/-- The tokens of a list have been taken or are still to come, and the last of them is the end of the
text, which stays current when it is taken. -/
structure Accounts (ts : List Token) (m : Machine) : Prop where
  split : m.taken.filter (·.kind ≠ .eof) ++ m.current :: m.rest = ts
  ends : ∃ init e, m.current :: m.rest = init ++ [e] ∧ e.kind = .eof ∧ ∀ t ∈ init, t.kind ≠ .eof

variable {ts : List Token}

theorem Accounts.congr (h : Accounts ts m) (hcurrent : m'.current = m.current)
    (hrest : m'.rest = m.rest) (htaken : m'.taken = m.taken) : Accounts ts m' := by
  refine ⟨?_, ?_⟩
  · rw [htaken, hcurrent, hrest]
    exact h.split
  · rw [hcurrent, hrest]
    exact h.ends

theorem Accounts.take (h : Accounts ts m) : Accounts ts m.take := by
  obtain ⟨hsplit, init, e, hends, heof, hinit⟩ := h
  cases hrest : m.rest with
  | nil =>
    obtain ⟨hcurrent, hnil, _⟩ := take_of_rest_nil hrest
    have hlast := eof_of_rest_nil hends heof hrest
    refine ⟨?_, init, e, by rw [hcurrent, hnil, hends], heof, hinit⟩
    rw [taken_take, hcurrent, hnil, List.filter_append, List.filter_cons_of_neg (by simp [hlast]),
      List.filter_nil, List.append_nil]
    exact hsplit
  | cons t rest =>
    obtain ⟨hcurrent, htail, _⟩ := take_of_rest_cons hrest
    rw [hrest] at hsplit hends
    cases init with
    | nil => simp at hends
    | cons x xs =>
      obtain ⟨rfl, hxs⟩ := List.cons.inj hends
      have hinner : m.current.kind ≠ .eof := hinit _ List.mem_cons_self
      refine ⟨?_, xs, e, by rw [hcurrent, htail]; exact hxs, heof,
        fun u hu => hinit u (List.mem_cons_of_mem _ hu)⟩
      rw [taken_take, hcurrent, htail, List.filter_append,
        List.filter_cons_of_pos (by simpa using hinner), List.filter_nil, List.append_assoc]
      exact hsplit

/-- Whatever the parser does, every token is accounted for. -/
theorem stable_accounts : Stable a (Accounts ts) where
  congr h hcurrent hrest hread hcallers := h.congr hcurrent hrest (taken_congr hread hcallers)
  take h := h.take
  addMissing k h := h.congr rfl rfl (by rw [taken_addLeaf, Tree.tokens_missing, List.append_nil])
  wrap h := h.congr rfl rfl (taken_wrap _)
  enter _ _ _ _ h := h.congr rfl rfl (taken_enter _ _ _ _ _)
  leave h hleft :=
    let ⟨hcurrent, hrest, htaken⟩ := leave_eq hleft
    h.congr hcurrent hrest htaken

end Machine

/-! ## Texts -/

namespace Parse

/-- The tokens before one of a list in the order of their indices. -/
theorem filter_index_lt {as bs : List Token} {t : Token}
    (h : (as ++ t :: bs).Pairwise fun x y => x.index < y.index) :
    (as ++ t :: bs).filter (·.index < t.index) = as := by
  obtain ⟨_, hright, hbetween⟩ := List.pairwise_append.mp h
  have hbefore : as.filter (·.index < t.index) = as :=
    List.filter_eq_self.mpr fun x hx => decide_eq_true (hbetween x hx t List.mem_cons_self)
  have hafter : (t :: bs).filter (·.index < t.index) = [] := by
    refine List.filter_eq_nil_iff.mpr fun x hx => ?_
    rw [decide_eq_true_eq, Nat.not_lt]
    rcases List.mem_cons.mp hx with rfl | hx
    · exact Nat.le_refl _
    · exact Nat.le_of_lt ((List.pairwise_cons.mp hright).1 x hx)
  rw [List.filter_append, hbefore, hafter, List.append_nil]

/-- The leaves of the tree of a text, whatever its errors, are the tokens before the one at which the
phrase ends, each of them once and in their order. The end of the text and tokens that are missing in it
do not count. -/
theorem leaves_eq_tokens_before_next (text : String) (rule : Rule) (level : Nat) :
    ∃ p, ofText? text rule level = some p ∧
      p.tree.tokens.filter (·.kind ≠ .eof) =
        (Lexed.ofText text).visible.filter (·.index < p.next.index) ∧
      (p.tree.tokens.filter (·.kind ≠ .eof)).Pairwise fun s t => s.index < t.index := by
  obtain ⟨p, hp⟩ := exists_ofText? text rule level
  have hincreasing := Lexed.visible_increasing text
  have hends := Lexed.visible_ends text
  refine ⟨p, hp, ?_⟩
  rw [ofText?, ofLexed?] at hp
  split at hp
  · cases hp
  · rename_i current rest hvisible
    rw [hvisible] at hends
    obtain ⟨⟨m, tree⟩, hrun, rfl⟩ := Option.map_eq_some_iff.mp hp
    have hstart : (Machine.start Java.automata rule level current rest).Accounts
        (current :: rest) := ⟨rfl, hends⟩
    obtain ⟨haccounts, hcallers, rfl⟩ := Machine.stable_accounts.run hstart hrun
    have hsplit := haccounts.split
    rw [Machine.taken, hcallers, ← Machine.tokens_close] at hsplit
    rw [hvisible, ← hsplit] at hincreasing ⊢
    exact ⟨(filter_index_lt hincreasing).symm, (List.pairwise_append.mp hincreasing).1⟩

end Parse

end Callscope
