import Callscope.Proofs.Parse.Recognition
import Callscope.Proofs.Parse.Standing

/-!
# Where phrases end

A rule ends at the last token that was taken before its end. In a run without a report this is the last
token of what the rule itself has read, if it has read anything, so every node of the tree ends at the
last of its tokens. The end of the text does not count here: it stays current when it is taken.
-/

namespace Callscope

/-- The tokens before the end of the text. -/
def Token.inner (ts : List Token) : List Token := ts.filter (·.kind ≠ .eof)

namespace Tree

/-- Every node ends at the last of its tokens, if it has any. -/
inductive Ended : Tree → Prop
  | token (t : Token) : Ended (.token t)
  | node {r : Rule} {first : Token} {last : Option Token} {labels : List (Label × String)}
      {children : List Tree}
      (ends : ∀ x ∈ (Token.inner (children.flatMap tokens)).getLast?, last = some x)
      (parts : ∀ t ∈ children, Ended t) : Ended (.node r first last labels children)

theorem Ended.part {t p : Tree} (h : t.Ended) (hp : p ∈ t.children) : p.Ended := by
  cases h with
  | token => cases hp
  | node ends parts => exact parts p hp

mutual

/-- Whether every node ends at the last of its tokens. -/
def isEnded : Tree → Bool
  | token _ => true
  | node _ _ last _ children =>
    (Token.inner (children.flatMap tokens)).getLast?.all (last == some ·) && isEndedAll children
  | skipped _ | missing _ => false

def isEndedAll : List Tree → Bool
  | [] => true
  | t :: ts => t.isEnded && isEndedAll ts

end

mutual

theorem ended_of_isEnded (t : Tree) (h : t.isEnded = true) : t.Ended := by
  cases t with
  | token t => exact .token t
  | node r first last labels children =>
    rw [isEnded, Bool.and_eq_true] at h
    refine .node (fun x hx => ?_) (ended_of_isEndedAll children h.2)
    rw [Option.mem_def.mp hx] at h
    exact eq_of_beq h.1
  | skipped | missing => cases h

theorem ended_of_isEndedAll (ts : List Tree) (h : isEndedAll ts = true) : ∀ t ∈ ts, t.Ended := by
  cases ts with
  | nil => exact nofun
  | cons t ts =>
    rw [isEndedAll, Bool.and_eq_true] at h
    exact List.forall_mem_cons.mpr ⟨ended_of_isEnded t h.1, ended_of_isEndedAll ts h.2⟩

end

end Tree

/-! ## The end of the text -/

theorem Java.parents_compilationUnit : Java.parents .compilationUnit = [] := by
  decide +kernel

/-- No rule but that of a whole text takes the end of it. -/
theorem Java.eof_of_unit : ∀ r ∈ Rule.all, r ≠ .compilationUnit →
    Item.mentionsAll (· == .token .eof) (Java.body r) = false ∧
      (Item.trailing (Java.body r)).all (fun op =>
        !Item.mentionsAll (· == .token .eof) op.2) = true := by
  decide +kernel

namespace Tree

variable {text : String} {t : Tree}

/-- A child of a node is not the end of the text, unless the node is a whole text. -/
theorem Derived.child_ne_eof (h : t.Derived Java.body) {r : Rule} (hr : t.rule? = some r)
    (hunit : r ≠ .compilationUnit) {x : Token} (hx : .token x ∈ t.children) : x.kind ≠ .eof := by
  intro heof
  have hmem : .token .eof ∈ t.symbols :=
    List.mem_map.mpr ⟨.token x, hx, by rw [Symbol.of, heof]⟩
  have hmentions : ∀ is w, Item.SpellsAll is w → .token .eof ∈ w →
      Item.mentionsAll (· == .token .eof) is = true :=
    fun is w hspells hw => Item.mentionsAll_of_mem _ is hspells hw (beq_self_eq_true _)
  obtain ⟨hbody, htrailing⟩ :=
    Java.eof_of_unit r (List.mem_of_getElem? (Tables.all_ctorIdx r)) hunit
  rcases h.forms hr with hspells | ⟨op, hop, v, hw, hspells⟩
  · rw [hmentions _ _ hspells hmem] at hbody
    cases hbody
  · rw [hw] at hmem
    rcases List.mem_cons.mp hmem with heq | hmem
    · cases heq
    · have hnone := List.all_eq_true.mp htrailing op hop
      rw [hmentions _ _ hspells hmem] at hnone
      cases hnone

/-- All tokens of a phrase come before the end of the text. -/
theorem Derived.inner_tokens (h : t.Derived Java.body) :
    ∀ {r}, t.rule? = some r → r ≠ .compilationUnit → Token.inner t.tokens = t.tokens := by
  induction h with
  | token => nofun
  | @node rule first last labels children form parts ended ih =>
    intro r hr hunit
    cases hr
    have hnode : (Tree.node rule first last labels children).Derived Java.body :=
      .node form parts ended
    rw [Token.inner, List.filter_eq_self]
    intro x hx
    rw [tokens_node, List.mem_flatMap] at hx
    obtain ⟨c, hc, hx⟩ := hx
    cases hrule : c.rule? with
    | none =>
      cases parts c hc with
      | node => cases hrule
      | token =>
        rw [tokens_token, List.mem_singleton] at hx
        subst hx
        simpa using hnode.child_ne_eof rfl hunit hc
    | some r' =>
      have hunit' : r' ≠ .compilationUnit := by
        rintro rfl
        obtain ⟨outer, houter, _⟩ := hnode.parent hc hrule
        rw [Java.parents_compilationUnit] at houter
        cases houter
      rw [← ih c hc hrule hunit'] at hx
      exact (List.mem_filter.mp hx).2

end Tree

/-! ## Runs -/

namespace Machine

variable {a : Lookahead.Automata} {m m' : Machine} {ts : List Token}

/-- The last token taken is the last one that has been read, and so it was when each phrase ended. -/
structure Ending (m : Machine) : Prop where
  last : m.last = (Token.inner m.taken).getLast?
  ended : ∀ f ∈ m.frame :: m.callers, ∀ t ∈ f.read, t.Ended

/-- It depends on nothing but the last token and what has been read. -/
theorem Ending.congr (h : Ending m) (hlast : m'.last = m.last)
    (hread : m'.frame.read = m.frame.read) (hcallers : m'.callers = m.callers) : Ending m' := by
  refine ⟨?_, fun f hf => ?_⟩
  · have htaken : m'.taken = m.taken := by
      rw [taken, hcallers, Frame.tokens, hread]
      rfl
    rw [hlast, htaken]
    exact h.last
  · rw [hcallers] at hf
    rcases List.mem_cons.mp hf with rfl | hf
    · rw [hread]
      exact h.ended m.frame List.mem_cons_self
    · exact h.ended f (List.mem_cons_of_mem _ hf)

theorem Ending.setLabel (h : Ending m) (l : Option Label) (text : String) :
    Ending (m.setLabel l text) := by
  cases l with
  | none => exact h
  | some l => exact h.congr rfl rfl rfl

/-- The current token is read. Only the end of the text is not passed by that. -/
theorem Ending.take (h : Ending m) (hc : Covering ts m) (hr : m.recovering = false) :
    Ending m.take := by
  have htaken : m.take.taken = m.taken ++ [m.current] := by
    rw [taken, frame_take hr, callers_take, Frame.tokens_cons, Tree.tokens_token,
      ← List.append_assoc, taken]
  refine ⟨?_, fun f hf t ht => ?_⟩
  · obtain ⟨init, e, hends, heof, hinit⟩ := hc.ends
    rw [htaken, Token.inner, List.filter_append]
    cases hrest : m.rest with
    | nil =>
      have hlast := eof_of_rest_nil hends heof hrest
      rw [List.filter_cons_of_neg (by simp [hlast]), List.filter_nil, List.append_nil,
        (take_of_rest_nil hrest).2.2]
      exact h.last
    | cons x rest =>
      have hinner : m.current.kind ≠ .eof := by
        rw [hrest] at hends
        cases init with
        | nil => simp at hends
        | cons y ys =>
          rw [(List.cons.inj hends).1]
          exact hinit y List.mem_cons_self
      rw [List.filter_cons_of_pos (by simpa using hinner), List.filter_nil, List.getLast?_concat]
      exact (take_of_rest_cons hrest).2.2
  · rcases mem_read_take hr hf ht with rfl | ⟨f', hf', ht'⟩
    · exact .token m.current
    · exact h.ended f' hf' t ht'

/-- What the innermost rule has read comes last in what has been taken. -/
theorem Ending.close (h : Ending m) : m.close.Ended := by
  refine .node (fun x hx => ?_) fun t ht =>
    h.ended m.frame List.mem_cons_self t (List.mem_reverse.mp ht)
  rw [h.last, taken, Token.inner, List.filter_append, List.getLast?_append]
  rw [Option.mem_def, Token.inner] at hx
  rw [Frame.tokens, hx, Option.some_or]

theorem Ending.wrap (h : Ending m) : Ending m.wrap := by
  refine ⟨?_, fun f hf t ht => ?_⟩
  · have htokens : m.wrap.frame.tokens = m.frame.tokens := by
      simpa [Machine.wrap, Frame.tokens] using m.tokens_close
    rw [taken, htokens]
    exact h.last
  · rcases List.mem_cons.mp hf with rfl | hf
    · rw [List.mem_singleton.mp ht]
      exact h.close
    · exact h.ended f (List.mem_cons_of_mem _ hf) t ht

theorem Ending.enter (h : Ending m) (site : Nat) (rule : Rule) (level : Nat)
    (label : Option Label) : Ending (m.enter a site rule level label) := by
  refine ⟨?_, fun f hf t ht => ?_⟩
  · have htaken : (m.enter a site rule level label).taken = m.taken := by
      simp [taken, Machine.enter, Frame.tokens]
    rw [htaken]
    exact h.last
  · rcases List.mem_cons.mp hf with rfl | hf
    · cases ht
    · exact h.ended f hf t ht

theorem Ending.leave (h : Ending m) (hleft : m.leave = .inl m') : Ending m' := by
  obtain ⟨caller, callers, labels, hcallers, rfl⟩ := exists_of_leave hleft
  have hmem : ∀ f ∈ caller :: callers, f ∈ m.frame :: m.callers :=
    fun f hf => List.mem_cons_of_mem _ (hcallers ▸ hf)
  refine ⟨?_, fun f hf t ht => ?_⟩
  · have hlast := h.last
    rw [taken, hcallers, List.reverse_cons, List.flatMap_append, List.flatMap_singleton,
      List.append_assoc, ← tokens_close, ← Frame.tokens_cons] at hlast
    exact hlast
  · rcases List.mem_cons.mp hf with rfl | hf
    · rcases List.mem_cons.mp ht with rfl | ht
      · exact h.close
      · exact h.ended caller (hmem caller List.mem_cons_self) t ht
    · exact h.ended f (hmem f (List.mem_cons_of_mem _ hf)) t ht

/-- A step without a report keeps account of the last token. -/
theorem Ending.moves (h : Ending m) (hc : Covering ts m) (hm : Moves a m m') : Ending m' := by
  cases hm with
  | leave done left => exact h.leave left
  | @terminal site label todo next =>
    have hfitted : Ending (m.setTodo todo).fitted := h.congr rfl rfl rfl
    have hcovering : Covering ts (m.setTodo todo).fitted := hc.congr rfl rfl rfl rfl rfl
    exact (hfitted.take hcovering rfl).setLabel _ _
  | @terminalOf site kinds label todo next fits =>
    have hfitted : Ending ((m.setTodo todo).setLabel label m.current.text).fitted := by
      cases label <;> exact h.congr rfl rfl rfl
    have hcovering : Covering ts ((m.setTodo todo).setLabel label m.current.text).fitted := by
      cases label <;> exact hc.congr rfl rfl rfl rfl rfl
    exact hfitted.take hcovering rfl
  | @call site rule level label todo next =>
    have htodo : Ending (m.setTodo todo) := h.congr rfl rfl rfl
    exact htodo.enter site rule level label
  | @branch site i alts todo m₁ next decided =>
    obtain ⟨k, rfl⟩ := decideAt_ok decided
    exact h.congr rfl rfl rfl
  | round | pass => exact h.congr rfl rfl rfl
  | @operator task site k ops op todo next climbs taken chosen reaches =>
    have hask : Ending (m.ask k) := h.congr rfl rfl rfl
    exact hask.wrap.congr rfl rfl rfl

end Machine

/-- The nodes of a text that is read without a report end at their last tokens. -/
theorem Parse.ended_of_reports_nil {text : String} {rule : Rule} {level : Nat} {p : Parse}
    (h : Parse.ofText? text rule level = some p) (hclean : p.reports = []) : p.tree.Ended := by
  have hends := Lexed.visible_ends text
  obtain ⟨m, ⟨_, hending⟩, _, _, htree⟩ := Parse.exists_of_reports_nil
    (P := fun m => Machine.Covering (Lexed.ofText text).visible m ∧ Machine.Ending m) h hclean
    (fun current rest hvisible => by
      rw [hvisible] at hends ⊢
      refine ⟨Machine.covering_start rule level hends, rfl, fun f hf t ht => ?_⟩
      rw [List.mem_singleton.mp hf] at ht
      cases ht)
    (fun m m' hmoves hp => ⟨hp.1.moves hmoves, hp.2.moves hp.1 hmoves⟩)
  rw [htree]
  exact hending.close

end Callscope
