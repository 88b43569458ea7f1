import Callscope.Proofs.Parse.Derivation
import Callscope.Proofs.Token.Partition

/-!
# What a tree covers of its text

The parser takes the tokens one after the other. In a run without a report the tokens at the leaves of
what has been read, from the outermost rule inwards, are the tokens that have been taken, and every rule
began at the first token that it took. So a text that is read without a report begins with the tokens of
its tree, and every node of the tree begins at its first token.
-/

namespace Callscope

namespace Tree

/-- The token of the text at a leaf. -/
def token? : Tree → Option Token
  | token x | skipped x => some x
  | _ => none

/-- The tokens at the leaves from left to right. -/
def tokens (t : Tree) : List Token := t.leaves.filterMap token?

@[simp] theorem tokens_token (x : Token) : (token x).tokens = [x] := by
  simp [tokens, leaves, token?]

@[simp] theorem tokens_node (r : Rule) (first : Token) (last : Option Token)
    (labels : List (Label × String)) (children : List Tree) :
    (node r first last labels children).tokens = children.flatMap tokens := by
  rw [tokens, leaves, leavesAll_eq, List.filterMap_flatMap]
  rfl

/-- Every node begins at the first of its tokens, if it has any. -/
inductive Anchored : Tree → Prop
  | token (t : Token) : Anchored (.token t)
  | node {r : Rule} {first : Token} {last : Option Token} {labels : List (Label × String)}
      {children : List Tree} (begun : ∀ x ∈ (children.flatMap tokens).head?, first = x)
      (parts : ∀ t ∈ children, Anchored t) : Anchored (.node r first last labels children)

end Tree

/-! ## Frames -/

namespace Frame

/-- The tokens of what a frame has read. -/
def tokens (f : Frame) : List Token := f.read.reverse.flatMap Tree.tokens

theorem tokens_cons (f : Frame) (t : Tree) :
    ({ f with read := t :: f.read } : Frame).tokens = f.tokens ++ t.tokens := by
  simp [tokens]

/-- Every frame of a stack began at the first token taken since, or else at the next one. -/
def Begun (next : Token) : List Frame → Prop
  | [] => True
  | f :: fs => f.first = f.tokens.head?.getD next ∧ Begun f.first fs

/-- What one more tree brings stood next when it was begun. -/
theorem begun_cons {f : Frame} {fs : List Frame} {t : Tree} {next next' : Token}
    (h : Begun next (f :: fs)) (hnext : next = t.tokens.head?.getD next') :
    Begun next' ({ f with read := t :: f.read } :: fs) := by
  obtain ⟨hfirst, hcallers⟩ := h
  refine ⟨?_, hcallers⟩
  rw [tokens_cons, List.head?_append, Option.getD_or, ← hnext]
  exact hfirst

end Frame

/-! ## The machine -/

namespace Machine

open Callscope.Frame (Begun tokens_cons begun_cons)

variable {a : Lookahead.Automata} {m m' : Machine}

/-- The tokens of what all frames have read, outermost first. -/
def taken (m : Machine) : List Token :=
  m.callers.reverse.flatMap Frame.tokens ++ m.frame.tokens

theorem tokens_close (m : Machine) : m.close.tokens = m.frame.tokens := by
  rw [close, Tree.tokens_node, Frame.tokens]

/-- What has been read of a list of tokens, and what is still to come. The end of the text stays current
when it is taken. -/
structure Covering (ts : List Token) (m : Machine) : Prop where
  split : m.taken.filter (·.kind ≠ .eof) ++ m.current :: m.rest = ts
  ends : ∃ init e, m.current :: m.rest = init ++ [e] ∧ e.kind = .eof ∧ ∀ t ∈ init, t.kind ≠ .eof
  anchored : ∀ f ∈ m.frame :: m.callers, ∀ t ∈ f.read, t.Anchored
  begun : Begun m.current (m.frame :: m.callers)

variable {ts : List Token}

/-- Covering depends on nothing but the tokens and what has been read. -/
theorem Covering.congr (h : Covering ts m) (hcurrent : m'.current = m.current)
    (hrest : m'.rest = m.rest) (hread : m'.frame.read = m.frame.read)
    (hfirst : m'.frame.first = m.frame.first) (hcallers : m'.callers = m.callers) :
    Covering ts m' := by
  have htokens : m'.frame.tokens = m.frame.tokens := by rw [Frame.tokens, hread, Frame.tokens]
  obtain ⟨hsplit, hends, hanchored, hbegun⟩ := h
  refine ⟨?_, ?_, ?_, ?_⟩
  · rw [taken, hcurrent, hrest, hcallers, htokens]
    exact hsplit
  · rw [hcurrent, hrest]
    exact hends
  · intro f hf
    rw [hcallers] at hf
    rcases List.mem_cons.mp hf with rfl | hf
    · rw [hread]
      exact hanchored m.frame List.mem_cons_self
    · exact hanchored f (List.mem_cons_of_mem _ hf)
  · rw [Begun, hcurrent, hcallers, hfirst, htokens]
    exact hbegun

theorem Covering.setTodo (h : Covering ts m) (k : Nat) (todo : List Task) :
    Covering ts ((m.ask k).setTodo todo) := h.congr rfl rfl rfl rfl rfl

theorem Covering.setLabel (h : Covering ts m) (l : Option Label) (text : String) :
    Covering ts (m.setLabel l text) := by
  cases l with
  | none => exact h
  | some l => exact h.congr rfl rfl rfl rfl rfl

/-- The current token is read. It is the last one just if it is the end of the text. -/
theorem Covering.take (h : Covering ts m) (hr : m.recovering = false) : Covering ts m.take := by
  obtain ⟨hsplit, ⟨init, e, hends, heof, hinit⟩, hanchored, hbegun⟩ := h
  have htaken : m.take.taken = m.taken ++ [m.current] := by
    rw [taken, frame_take hr, callers_take, tokens_cons, Tree.tokens_token, ← List.append_assoc,
      taken]
  have hread : ∀ f ∈ m.take.frame :: m.take.callers, ∀ t ∈ f.read, t.Anchored := by
    intro f hf t ht
    rcases mem_read_take hr hf ht with rfl | ⟨f', hf', ht'⟩
    · exact .token m.current
    · exact hanchored f' hf' t ht'
  have hbegun' : ∀ next, Begun next (m.take.frame :: m.take.callers) := by
    intro next
    rw [frame_take hr, callers_take]
    exact begun_cons hbegun (by rw [Tree.tokens_token]; rfl)
  cases hrest : m.rest with
  | nil =>
    obtain ⟨hcurrent, hnil, _⟩ := take_of_rest_nil hrest
    have hlast := eof_of_rest_nil hends heof hrest
    refine ⟨?_, ⟨init, e, by rw [hcurrent, hnil, hends], heof, hinit⟩, hread, hbegun' _⟩
    rw [htaken, hcurrent, hnil, List.filter_append, List.filter_cons_of_neg (by simp [hlast]),
      List.filter_nil, List.append_nil]
    exact hsplit
  | cons t rest =>
    obtain ⟨hcurrent, htail, _⟩ := take_of_rest_cons hrest
    rw [hrest] at hsplit hends
    cases init with
    | nil => simp at hends
    | cons x xs =>
      obtain ⟨rfl, hxs⟩ := List.cons.inj hends
      have hinner : m.current.kind ≠ .eof := hinit _ List.mem_cons_self
      refine ⟨?_, ⟨xs, e, by rw [hcurrent, htail]; exact hxs, heof,
        fun u hu => hinit u (List.mem_cons_of_mem _ hu)⟩, hread, hbegun' _⟩
      rw [htaken, hcurrent, htail, List.filter_append, List.filter_cons_of_pos (by simpa using hinner),
        List.filter_nil, List.append_assoc]
      exact hsplit

theorem Covering.close (h : Covering ts m) : m.close.Anchored := by
  refine .node (fun x hx => ?_) fun t ht =>
    h.anchored m.frame List.mem_cons_self t (List.mem_reverse.mp ht)
  rw [h.begun.1, Frame.tokens, Option.mem_def.mp hx, Option.getD_some]

theorem Covering.wrap (h : Covering ts m) : Covering ts m.wrap := by
  have htokens : m.wrap.frame.tokens = m.frame.tokens := by
    simpa [Machine.wrap, Frame.tokens] using m.tokens_close
  refine ⟨?_, h.ends, fun f hf t ht => ?_, ?_⟩
  · rw [taken, htokens]
    exact h.split
  · rcases List.mem_cons.mp hf with rfl | hf
    · rw [List.mem_singleton.mp ht]
      exact h.close
    · exact h.anchored f (List.mem_cons_of_mem _ hf) t ht
  · rw [Begun, htokens]
    exact h.begun

/-- A rule begins at the current token. -/
theorem Covering.enter (h : Covering ts m) (site : Nat) (rule : Rule) (level : Nat)
    (label : Option Label) : Covering ts (m.enter a site rule level label) := by
  refine ⟨?_, h.ends, fun f hf t ht => ?_, ⟨rfl, h.begun⟩⟩
  · have htaken : (m.enter a site rule level label).taken = m.taken := by
      simp [taken, Machine.enter, Frame.tokens]
    rw [htaken]
    exact h.split
  · rcases List.mem_cons.mp hf with rfl | hf
    · cases ht
    · exact h.anchored f hf t ht

/-- The caller of a rule gets what the rule has read. -/
theorem Covering.leave (h : Covering ts m) (hleft : m.leave = .inl m') : Covering ts m' := by
  obtain ⟨caller, callers, labels, hcallers, rfl⟩ := exists_of_leave hleft
  have hmem : ∀ f ∈ caller :: callers, f ∈ m.frame :: m.callers :=
    fun f hf => List.mem_cons_of_mem _ (hcallers ▸ hf)
  have hbegun := h.begun
  rw [hcallers, Begun] at hbegun
  refine ⟨?_, h.ends, fun f hf t ht => ?_, ?_⟩
  · have hsplit := h.split
    rw [taken, hcallers, List.reverse_cons, List.flatMap_append, List.flatMap_singleton,
      List.append_assoc, ← tokens_close, ← tokens_cons] at hsplit
    exact hsplit
  · rcases List.mem_cons.mp hf with rfl | hf
    · rcases List.mem_cons.mp ht with rfl | ht
      · exact h.close
      · exact h.anchored caller (hmem caller List.mem_cons_self) t ht
    · exact h.anchored f (hmem f (List.mem_cons_of_mem _ hf)) t ht
  · exact begun_cons hbegun.2 (by rw [tokens_close]; exact hbegun.1)

/-- A step without a report keeps account of the tokens. -/
theorem Covering.moves (h : Covering ts m) (hm : Moves a m m') : Covering ts m' := by
  cases hm with
  | leave done left => exact h.leave left
  | @terminal site label todo next =>
    have hfitted : Covering ts (m.setTodo todo).fitted := h.congr rfl rfl rfl rfl rfl
    exact (hfitted.take rfl).setLabel _ _
  | @terminalOf site kinds label todo next fits =>
    have hfitted : Covering ts ((m.setTodo todo).setLabel label m.current.text).fitted := by
      cases label <;> exact h.congr rfl rfl rfl rfl rfl
    exact hfitted.take rfl
  | @call site rule level label todo next =>
    have htodo : Covering ts (m.setTodo todo) := h.congr rfl rfl rfl rfl rfl
    exact htodo.enter site rule level label
  | @branch site i alts todo m₁ next decided =>
    obtain ⟨k, rfl⟩ := decideAt_ok decided
    exact h.congr rfl rfl rfl rfl rfl
  | @round task body todo next repeats k => exact h.setTodo k _
  | @pass task todo next ends k declined => exact h.setTodo k _
  | @operator task site k ops op todo next climbs taken chosen reaches =>
    have hask : Covering ts (m.ask k) := h.congr rfl rfl rfl rfl rfl
    exact hask.wrap.congr rfl rfl rfl rfl rfl

theorem covering_start (rule : Rule) (level : Nat) {current : Token} {rest : List Token}
    (hends : ∃ init e, current :: rest = init ++ [e] ∧ e.kind = .eof ∧ ∀ t ∈ init, t.kind ≠ .eof) :
    Covering (current :: rest) (start a rule level current rest) := by
  refine ⟨rfl, hends, fun f hf t ht => ?_, ⟨rfl, trivial⟩⟩
  rw [List.mem_singleton.mp hf] at ht
  cases ht

end Machine

/-! ## Texts -/

/-- No token that the parser sees before the end of the text is an end. -/
theorem Lexed.visible_ends (text : String) : ∃ init e, (Lexed.ofText text).visible = init ++ [e] ∧
    e.kind = .eof ∧ ∀ t ∈ init, t.kind ≠ .eof := by
  obtain ⟨pieces, n, hpieces, hinner⟩ := (tiles_ofText text).ended
  obtain ⟨init, last, htokens, _, heof, _, hinit⟩ := ended_of_pieces hpieces hinner
  refine ⟨init.filter fun t => !t.kind.hidden, last, ?_, heof, fun t ht => ?_⟩
  · rw [visible, htokens, List.filter_append, List.filter_cons_of_pos (by rw [heof]; rfl)]
    rfl
  · exact hinit t (List.mem_filter.mp ht).1

/-- A tree that follows the grammar and stands among the tokens of a text. -/
structure Tree.ReadFrom (text : String) (t : Tree) : Prop where
  derived : t.Derived Java.body
  anchored : t.Anchored
  covers : t.tokens.filter (·.kind ≠ .eof) <:+: (Lexed.ofText text).visible

/-- The tree of a text that is read without a report stands in the text. -/
theorem Parse.readFrom_of_reports_nil {text : String} {rule : Rule} {level : Nat} {p : Parse}
    (h : Parse.ofText? text rule level = some p) (hclean : p.reports = []) :
    p.tree.ReadFrom text := by
  have hderived := (Parse.derived_of_reports_nil h hclean).1
  have hends := Lexed.visible_ends text
  obtain ⟨m, hcovering, _, hcallers, htree⟩ := Parse.exists_of_reports_nil
    (P := Machine.Covering (Lexed.ofText text).visible) h hclean
    (fun current rest hvisible => by
      rw [hvisible] at hends ⊢
      exact Machine.covering_start rule level hends)
    (fun m m' hmoves hp => hp.moves hmoves)
  have hsplit := hcovering.split
  rw [Machine.taken, hcallers, ← Machine.tokens_close] at hsplit
  refine ⟨hderived, ?_, ?_⟩
  · rw [htree]
    exact hcovering.close
  · rw [htree, ← hsplit]
    exact (List.prefix_append _ _).isInfix

end Callscope
