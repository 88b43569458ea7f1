import Callscope.Proofs.Outline.Names
import Callscope.Proofs.Parse.Leaves

/-!
# The characters of a graph

Whatever errors a text has, the parser puts nothing into a tree but tokens of the text, the end of the
text and tokens that are missing. The texts of the last two are plain. So every character of an outline's
names, and hence of a graph, is one of the text or a plain one.
-/

namespace Callscope

/-- The characters that the texts of the end and of missing tokens and the frame of a graph are made
of. -/
def Text.isPlain (c : Char) : Bool := c == '\n' || 32 ≤ c.toNat && c.toNat ≤ 126

/-- What is put in the place of a missing token is plain. -/
theorem Kind.missingText_plain (k : Kind) : k.missingText.toList.all Text.isPlain = true := by
  have hk : k ∈ Kind.all := List.mem_of_getElem? (Kind.all_ctorIdx k)
  have hspelled : (Kind.all.all fun k => (k.spelling?.getD "").toList.all Text.isPlain) = true := by
    decide +kernel
  have hnamed : (Kind.all.all fun k => k.spelling?.isSome ||
      k.ctorIdx ≤ Kind.ellipsis.ctorIdx || k.name.toList.all Text.isPlain) = true := by
    decide +kernel
  have hspelled := List.all_eq_true.mp hspelled k hk
  have hnamed := List.all_eq_true.mp hnamed k hk
  have hframes : (["<missing EOF>", "<missing '", "'>", "<missing <INVALID>>", "<missing ", ">"].all
      fun s => s.toList.all Text.isPlain) = true := by decide +kernel
  simp only [List.all_cons, Bool.and_eq_true] at hframes
  unfold missingText
  split
  · exact hframes.1
  split
  · rename_i s hs
    rw [hs] at hspelled
    simp only [String.toList_append, List.all_append, hframes, Bool.true_and, Bool.and_true]
    exact hspelled
  · rename_i hs
    rw [hs] at hnamed
    split
    · exact hframes.2.2.2.1
    · rename_i hlate
      simp only [String.toList_append, List.all_append, hframes, Bool.true_and, Bool.and_true]
      simpa [hlate] using hnamed

/-! ## Tokens -/

/-- Every character of a token that the parser sees is one of the text, but for the end. -/
theorem Lexed.mem_or_plain_of_visible {text : String} {x : Token}
    (hx : x ∈ (Lexed.ofText text).visible) {c : Char} (hc : c ∈ x.text.toList) :
    c ∈ text.toList ∨ Text.isPlain c = true := by
  rw [visible, List.mem_filter, mem_tokens] at hx
  obtain ⟨hpiece, _⟩ := hx
  obtain ⟨init, n, hpieces, hinit⟩ := (tiles_ofText text).ended
  rw [hpieces, List.mem_append] at hpiece
  rcases hpiece with hpiece | hpiece
  · have hinner := Piece.kind_ne_eof_of_source (hinit _ hpiece)
    have hstands := (tiles_ofText text).standsIn (.token x)
      (by rw [hpieces]; exact List.mem_append_left _ hpiece)
    obtain ⟨before, after, htext, _⟩ := hstands
    rw [Piece.source, if_neg hinner] at htext
    have hmem : c ∈ [] ++ text.toList :=
      htext ▸ List.mem_append_left _ (List.mem_append_right _ hc)
    exact .inl hmem
  · cases List.mem_singleton.mp hpiece
    have hend : ("<EOF>".toList.all Text.isPlain) = true := by decide +kernel
    exact .inr (List.all_eq_true.mp hend c hc)

/-! ## Trees -/

namespace Tree

variable {text : String} {t p : Tree} {c : Char}

theorem mem_textAll {ts : List Tree} (h : c ∈ (textAll ts).toList) :
    ∃ t ∈ ts, c ∈ t.text.toList := by
  induction ts with
  | nil => cases h
  | cons t ts ih =>
    rw [textAll, String.toList_append] at h
    rcases List.mem_append.mp h with h | h
    · exact ⟨t, List.mem_cons_self, h⟩
    · obtain ⟨u, hu, hc⟩ := ih h
      exact ⟨u, List.mem_cons_of_mem _ hu, hc⟩

/-- All tokens of a tree are tokens of the text. -/
def DrawnFrom (text : String) (t : Tree) : Prop := ∀ x ∈ t.tokens, x ∈ (Lexed.ofText text).visible

theorem DrawnFrom.part (h : t.DrawnFrom text) (hp : p ∈ t.children) : p.DrawnFrom text := by
  intro x hx
  cases t with
  | token | skipped | missing => cases hp
  | node r first last labels children =>
    refine h x ?_
    rw [tokens_node]
    exact List.mem_flatMap.mpr ⟨p, hp, hx⟩

/-- What a tree is written with comes from the text, but for the end and what is missing. -/
theorem DrawnFrom.mem_or_plain (h : t.DrawnFrom text) (hc : c ∈ t.text.toList) :
    c ∈ text.toList ∨ Text.isPlain c = true := by
  induction t using Collector.tree_induction with
  | hleaf t ht =>
    cases t with
    | token x => exact Lexed.mem_or_plain_of_visible (h x (by simp)) hc
    | skipped x => exact Lexed.mem_or_plain_of_visible (h x (by simp)) hc
    | missing k => exact .inr (List.all_eq_true.mp k.missingText_plain c hc)
    | node => cases ht
  | hnode r first last labels children ih =>
    obtain ⟨p, hp, hc⟩ := mem_textAll hc
    exact ih p hp (h.part hp) hc

theorem partText_of_none {i : Nat} (h : t.children[i]? = none) : t.partText i = "" := by
  have hchild : Collector.child? t i = .error .noParts ∨ Collector.child? t i = .ok none := by
    unfold Collector.child?
    split
    · exact .inl rfl
    · exact .inr (congrArg Except.ok h)
  rw [partText, Collector.childText, Collector.child]
  rcases hchild with hchild | hchild
  · rw [hchild]
    rfl
  · rw [hchild]
    rfl

theorem DrawnFrom.mem_or_plain_of_partText (h : t.DrawnFrom text) {i : Nat}
    (hc : c ∈ (t.partText i).toList) : c ∈ text.toList ∨ Text.isPlain c = true := by
  cases hpart : t.children[i]? with
  | some part =>
    rw [Collector.partText_of_child hpart] at hc
    exact (h.part (List.mem_of_getElem? hpart)).mem_or_plain hc
  | none =>
    rw [partText_of_none hpart] at hc
    cases hc

end Tree

/-! ## Parses -/

namespace Machine

variable {a : Lookahead.Automata} {m m' : Machine} {ts : List Token}

/-- What has been taken and what is to come are tokens of a list. -/
structure Draws (ts : List Token) (m : Machine) : Prop where
  taken : ∀ x ∈ m.taken, x ∈ ts
  coming : ∀ x ∈ m.current :: m.rest, x ∈ ts

theorem Draws.congr (h : Draws ts m) (hcurrent : m'.current = m.current) (hrest : m'.rest = m.rest)
    (htaken : m'.taken = m.taken) : Draws ts m' := by
  refine ⟨?_, ?_⟩
  · rw [htaken]
    exact h.taken
  · rw [hcurrent, hrest]
    exact h.coming

theorem Draws.take (h : Draws ts m) : Draws ts m.take := by
  have htaken : ∀ x ∈ m.take.taken, x ∈ ts := by
    intro x hx
    rw [taken_take] at hx
    rcases List.mem_append.mp hx with hx | hx
    · exact h.taken x hx
    · rw [List.mem_singleton.mp hx]
      exact h.coming _ List.mem_cons_self
  refine ⟨htaken, fun x hx => ?_⟩
  cases hrest : m.rest with
  | nil =>
    obtain ⟨hcurrent, hnil, _⟩ := take_of_rest_nil hrest
    rw [hcurrent, hnil] at hx
    exact h.coming x hx
  | cons t rest =>
    obtain ⟨hcurrent, htail, _⟩ := take_of_rest_cons hrest
    rw [hcurrent, htail] at hx
    exact h.coming x (by rw [hrest]; exact List.mem_cons_of_mem _ hx)

/-- Errors or not, the parser takes tokens from nowhere else. -/
theorem stable_draws : Stable a (Draws ts) where
  congr h hcurrent hrest hread hcallers := h.congr hcurrent hrest (taken_congr hread hcallers)
  take h := h.take
  addMissing k h := h.congr rfl rfl (by rw [taken_addLeaf, Tree.tokens_missing, List.append_nil])
  wrap h := h.congr rfl rfl (taken_wrap _)
  enter _ _ _ _ h := h.congr rfl rfl (taken_enter _ _ _ _ _)
  leave h hleft :=
    let ⟨hcurrent, hrest, htaken⟩ := leave_eq hleft
    h.congr hcurrent hrest htaken

end Machine

theorem Parse.drawnFrom_of_ofText? {text : String} {rule : Rule} {level : Nat} {p : Parse}
    (h : Parse.ofText? text rule level = some p) : p.tree.DrawnFrom text := by
  rw [ofText?, ofLexed?] at h
  split at h
  · cases h
  · rename_i current rest hvisible
    obtain ⟨⟨m, tree⟩, hrun, rfl⟩ := Option.map_eq_some_iff.mp h
    have hstart : (Machine.start Java.automata rule level current rest).Draws (current :: rest) := by
      refine ⟨fun x hx => ?_, fun x hx => hx⟩
      rw [show (Machine.start Java.automata rule level current rest).taken = [] from rfl] at hx
      cases hx
    obtain ⟨hdraws, hcallers, rfl⟩ := Machine.stable_draws.run hstart hrun
    intro x hx
    rw [Machine.tokens_close] at hx
    rw [hvisible]
    refine hdraws.taken x ?_
    rw [Machine.taken, hcallers]
    exact hx

/-! ## Graphs -/

theorem mem_of_mem_intercalate {α : Type} {a : α} {between : List α} {parts : List (List α)}
    (h : a ∈ between.intercalate parts) : a ∈ between ∨ ∃ part ∈ parts, a ∈ part := by
  induction parts with
  | nil => cases h
  | cons part parts ih =>
    cases parts with
    | nil => exact .inr ⟨part, List.mem_cons_self, by simpa [List.intercalate] using h⟩
    | cons next parts =>
      have hsplit : between.intercalate (part :: next :: parts) =
          part ++ (between ++ between.intercalate (next :: parts)) := by
        simp [List.intercalate]
      rw [hsplit, List.mem_append, List.mem_append] at h
      rcases h with h | h | h
      · exact .inr ⟨part, List.mem_cons_self, h⟩
      · exact .inl h
      · exact (ih h).imp_right fun ⟨p, hp, ha⟩ => ⟨p, List.mem_cons_of_mem _ hp, ha⟩

namespace Outline

variable {o : Outline} {c : Char}

/-- The characters of a line are those of its names and plain ones. -/
theorem mem_names_or_plain_of_line {l : DotLine} (hc : c ∈ l.text.toList) :
    (∃ s ∈ l.names, c ∈ s.toList) ∨ Text.isPlain c = true := by
  have hframe : ("\" ->;".toList.all Text.isPlain) = true := by decide +kernel
  have hplain : c ∈ "\" ->;".toList → Text.isPlain c = true := List.all_eq_true.mp hframe c
  cases l with
  | node x =>
    simp [DotLine.text, dotNode] at hc
    simp [DotLine.names]
    grind
  | arrow x y =>
    simp [DotLine.text, dotEdge, dotNode] at hc
    simp [DotLine.names]
    grind

/-- A graph has no other characters than its names and plain ones. -/
theorem mem_names_or_plain_of_dot (hc : c ∈ o.dot.toList) :
    (∃ s ∈ o.names, c ∈ s.toList) ∨ Text.isPlain c = true := by
  rw [dot, String.toList_intercalate] at hc
  rcases mem_of_mem_intercalate hc with hc | ⟨cs, hcs, hc⟩
  · exact .inr (by simp_all; decide)
  obtain ⟨line, hline, rfl⟩ := List.mem_map.mp hcs
  rw [dotLines_eq] at hline
  have hends : ∀ line ∈ ["digraph \"callGraph\" \x7b", "\x7d"],
      line.toList.all Text.isPlain = true := by decide +kernel
  rcases List.mem_cons.mp hline with rfl | hline
  · exact .inr (List.all_eq_true.mp (hends _ List.mem_cons_self) c hc)
  rcases List.mem_append.mp hline with hline | hline
  · obtain ⟨l, hl, rfl⟩ := List.mem_map.mp hline
    rcases mem_names_or_plain_of_line hc with ⟨s, hs, hc⟩ | hplain
    · exact .inl ⟨s, names_of_mem_lines hl hs, hc⟩
    · exact .inr hplain
  · rw [List.mem_singleton.mp hline] at hc
    exact .inr (List.all_eq_true.mp (hends _ (by simp)) c hc)

end Outline

/-- Every character of the graph of a text, whatever its errors, is one of the text or a plain one. -/
theorem Collector.mem_or_plain_of_dot {text : String} {rule : Rule} {level : Nat} {p : Parse}
    (h : Parse.ofText? text rule level = some p) {c : Char}
    (hc : c ∈ (collect {} p.tree).collector.outline.dot.toList) :
    c ∈ text.toList ∨ Text.isPlain c = true := by
  have hholds : (collect {} p.tree).collector.outline.Holds
      (fun s => ∀ c ∈ s.toList, c ∈ text.toList ∨ Text.isPlain c = true)
      fun k => ∀ c ∈ k.value.toList, c ∈ text.toList ∨ Text.isPlain c = true := by
    refine holds_collect fun u above hu => ?_
    have hdrawn := of_enter_mem_visits (fun ht hp => ht.part hp) p.tree
      (Parse.drawnFrom_of_ofText? h) hu
    exact ⟨fun _ c hc => hdrawn.mem_or_plain_of_partText hc,
      fun _ c hc => hdrawn.mem_or_plain_of_partText hc⟩
  rcases Outline.mem_names_or_plain_of_dot hc with ⟨s, hs, hc⟩ | hplain
  · exact hholds.of_mem_names (fun _ hs => hs) (fun _ hk => hk) s hs c hc
  · exact .inr hplain

end Callscope
