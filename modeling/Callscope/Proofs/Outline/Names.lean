import Callscope.Proofs.Outline.CallSites
import Callscope.Proofs.Outline.Graph

/-!
# Graphs that need no escapes

Names are written into a graph as they are. For a text without errors this does no harm: every key and
every call is the text of one token, an identifier or a keyword, and so a word. The lines of the graph
are then just what they are meant to be.
-/

namespace Callscope

/-- Something is the text of a token of one of some kinds that the parser sees. -/
def Text.HasToken (text : String) (kinds : List Kind) (s : String) : Prop :=
  ∃ tk ∈ (Lexed.ofText text).visible, tk.text = s ∧ tk.kind ∈ kinds

theorem Text.isWord_of_hasToken {text s : String} {kinds : List Kind} (h : Text.HasToken text kinds s)
    (hkinds : kinds ⊆ Java.calleeKinds) : Lexicon.isWord s = true := by
  obtain ⟨tk, hmem, rfl, hk⟩ := h
  exact Lexed.isWord_of_visible hmem (Java.isWord_of_calleeKinds _ (hkinds hk)).1

namespace Outline

variable {o : Outline}

/-- A line of a graph for a class or a method, or for what is in it. -/
def IsGraphLine (line : String) : Prop :=
  (∃ x, Lexicon.isWord x = true ∧ line = "\"" ++ x ++ "\"") ∨
    ∃ x y, Lexicon.isWord x = true ∧ Lexicon.isWord y = true ∧
      line = "\"" ++ x ++ "\" -> \"" ++ y ++ "\";"

/-- The graph of an outline is well formed, and all its names are tokens of a text. -/
structure WellFormed (text : String) (o : Outline) : Prop where
  classes : ∀ k ∈ o.classes.keys, Text.HasToken text Java.nameKinds k
  methods : ∀ k e, (k, e) ∈ o.classes → ∀ n ∈ e.methods.keys, Text.HasToken text Java.nameKinds n
  calls : ∀ call ∈ o.calls, Text.HasToken text Java.calleeKinds call.value
  words : ∀ s ∈ o.names, s ≠ "" ∧ Lexicon.isWord s = true ∧
    '"' ∉ s.toList ∧ '\\' ∉ s.toList ∧ ∀ c ∈ Lexicon.blanks, c ∉ s.toList
  /-- All lines but the first and the last are names or arrows. -/
  lines : ∃ inner : List String,
    Text.lines o.dot = ("digraph \"callGraph\" \x7b" :: (inner ++ ["\x7d"])).map String.toList ∧
      ∀ line ∈ inner, IsGraphLine line

/-- What holds of all keys and calls holds of all that a graph is written with. -/
theorem Holds.of_mem_names {P name : String → Prop} {call : Call → Prop} (h : o.Holds name call)
    (hname : ∀ s, name s → P s) (hcall : ∀ k, call k → P k.value) : ∀ s ∈ o.names, P s := by
  intro s hs
  obtain ⟨node, hnode, hs⟩ := List.mem_flatMap.mp hs
  obtain ⟨⟨k, e⟩, hmem, rfl⟩ := List.mem_map.mp hnode
  have hcalls : ∀ x ∈ e.calls ++ e.methods.flatMap (fun y => y.2.calls), P x.value :=
    fun x hx => hcall x (h.calls x (List.mem_flatMap.mpr ⟨(k, e), hmem, hx⟩))
  simp only [ClassNode.ofEntry, ClassNode.names, List.cons_append, List.mem_cons, List.mem_append,
    List.mem_map, List.mem_flatMap] at hs
  rcases hs with rfl | ⟨x, hx, rfl⟩ | ⟨_, ⟨⟨n, m⟩, hm, rfl⟩, rfl | hs⟩
  · exact hname _ (h.classes _ e hmem)
  · exact hcalls x (List.mem_append_left _ hx)
  · exact hname s (h.methods k e hmem s m hm)
  · obtain ⟨x, hx, rfl⟩ := List.mem_map.mp hs
    exact hcalls x (List.mem_append_right _ (List.mem_flatMap.mpr ⟨(n, m), hm, hx⟩))

theorem isGraphLine_text {l : DotLine} (h : ∀ s ∈ l.names, Lexicon.isWord s = true) :
    IsGraphLine l.text := by
  cases l with
  | node x => exact .inl ⟨x, h x List.mem_cons_self, rfl⟩
  | arrow x y =>
    refine .inr ⟨x, y, h x List.mem_cons_self, h y (List.mem_cons_of_mem _ List.mem_cons_self), ?_⟩
    apply String.toList_injective
    simp [DotLine.text, dotEdge, dotNode]

/-- A graph that is written with words alone has lines of two shapes. -/
theorem lines_of_words (h : ∀ s ∈ o.names, Lexicon.isWord s = true) : ∃ inner : List String,
    Text.lines o.dot = ("digraph \"callGraph\" \x7b" :: (inner ++ ["\x7d"])).map String.toList ∧
      ∀ line ∈ inner, IsGraphLine line := by
  refine ⟨o.lines.map DotLine.text, ?_, fun line hline => ?_⟩
  · rw [Text.lines, splitOn_dot, dotLines_eq]
    exact fun s hs => Lexicon.notMem_of_isWord (h s hs) (.inr (.inr (by decide)))
  · obtain ⟨l, hl, rfl⟩ := List.mem_map.mp hline
    exact isGraphLine_text fun s hs => h s (names_of_mem_lines hl hs)

theorem wellFormed_of_holds {text : String} (h : o.Holds (Text.HasToken text Java.nameKinds)
    fun k => Text.HasToken text Java.calleeKinds k.value) : WellFormed text o := by
  have hwords : ∀ s ∈ o.names, Lexicon.isWord s = true := h.of_mem_names
    (fun s hs => Text.isWord_of_hasToken hs (List.subset_append_left _ _))
    (fun k hk => Text.isWord_of_hasToken hk (List.Subset.refl _))
  refine ⟨fun k hk => ?_, fun k e hmem n hn => ?_, h.calls, fun s hs => ?_, lines_of_words hwords⟩
  · obtain ⟨⟨_, e⟩, hmem, rfl⟩ := List.mem_map.mp hk
    exact h.classes _ e hmem
  · obtain ⟨⟨_, m⟩, hm, rfl⟩ := List.mem_map.mp hn
    exact h.methods k e hmem _ m hm
  · have hs := hwords s hs
    exact ⟨Lexicon.ne_of_isWord hs, hs, Lexicon.notMem_of_isWord hs (.inl rfl),
      Lexicon.notMem_of_isWord hs (.inr (.inl rfl)),
      fun c hc => Lexicon.notMem_of_isWord hs (.inr (.inr hc))⟩

end Outline

namespace Collector

open Outline (WellFormed)

theorem wellFormed_collect {text : String} {t : Tree} (h : t.ReadFrom text) :
    (collect {} t).collector.outline.WellFormed text := by
  refine Outline.wellFormed_of_holds (holds_collect fun u above hu => ?_)
  have hread : u.ReadFrom text := of_enter_mem_visits (fun hp => hp.part) t h hu
  refine ⟨fun hd => ?_, fun hr => ?_⟩
  · obtain ⟨tk, hmem, htext, hk⟩ := hread.declared hd
    exact ⟨tk, hmem, htext.symm, hk⟩
  · obtain ⟨name, bracket, more, htokens, hk, _, _, hcall⟩ := hread.called hr
    refine ⟨name, hread.mem_visible (htokens ▸ List.mem_cons_self) ?_, by rw [hcall], hk⟩
    exact (Java.isWord_of_calleeKinds _ hk).2

/-- The graph of a text that is read without a report is well formed though nothing is escaped, whatever
rule the text is read as and however the walk ends: all names in it are words, and all lines have one of
two shapes. -/
theorem graph_needs_no_escapes :
    (∀ text t, t.ReadFrom text → WellFormed text (collect {} t).collector.outline) ∧
    ∀ text rule level p, Parse.ofText? text rule level = some p → p.reports = [] →
      WellFormed text (collect {} p.tree).collector.outline :=
  ⟨fun _ _ h => wellFormed_collect h,
    fun _ _ _ _ h hclean => wellFormed_collect (Parse.readFrom_of_reports_nil h hclean)⟩

/-- A text with quotes in it, none of which comes into the graph. -/
theorem graph_needs_no_escapes_trimmed :
    trimmedTree.ReadFrom trimmedText ∧
    (collect {} trimmedTree).collector.outline.names = ["A", "trim"] ∧
    WellFormed trimmedText (collect {} trimmedTree).collector.outline :=
  ⟨readFrom_trimmed, by decide +kernel,
    graph_needs_no_escapes.1 trimmedText trimmedTree readFrom_trimmed⟩

end Collector

end Callscope
