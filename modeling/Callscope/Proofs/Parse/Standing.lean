import Callscope.Proofs.Parse.Coverage
import Callscope.Proofs.Parse.Shapes
import Callscope.Proofs.Token.Priority

/-!
# Phrases as they stand in a text

A tree that stands among the tokens of a text has parts that stand there too, and its names are words of
the text. The first character of a phrase that is neither of a word nor a dot tells phrases apart that
begin alike: it is an at sign in an annotation, but not in the name of a type, where annotations come
after an angle bracket only.
-/

namespace Callscope

namespace Java

open Callscope.Item

/-- The kinds of the words that a rule consists of. -/
def wordKinds (r : Rule) : List Kind := (body r).flatMap fun
  | terminalOf _ kinds _ => kinds
  | _ => []

/-- Whether all phrases of a rule are one word. -/
def isWordRule (r : Rule) : Bool :=
  match body r with
  | [terminalOf _ kinds _] => kinds.all fun k => k.isWord && k != .eof
  | _ => false

end Java

namespace Tree

variable {text : String} {t p : Tree} {x : Token} {r : Rule}

theorem tokens_of_rule (h : t.rule? = some r) : t.tokens = t.children.flatMap tokens := by
  cases t with
  | token | skipped | missing => cases h
  | node r' first last labels parts => exact tokens_node r' first last labels parts

/-- What the children of a node can be at most. -/
theorem Derived.symbol_mem {g : Grammar} (h : t.Derived g) (hr : t.rule? = some r)
    (ht : Item.trailing (g r) = []) (ss : List Symbol)
    (hss : Item.mentionsAll (fun s => !ss.contains s) (g r) = false) (hp : p ∈ t.children) :
    Symbol.of p ∈ ss := by
  by_contra hmem
  have hmentions := Item.mentionsAll_of_mem (fun s => !ss.contains s) (g r) (h.spells hr ht)
    (List.mem_map.mpr ⟨p, hp, rfl⟩) (by simpa using hmem)
  rw [hss] at hmentions
  cases hmentions

namespace ReadFrom

theorem part (h : t.ReadFrom text) (hp : p ∈ t.children) : p.ReadFrom text := by
  cases h.derived with
  | token => cases hp
  | @node r first last labels children form parts ended =>
    cases h.anchored with | node begun anchors => ?_
    have hwithin : p.tokens <:+: children.flatMap tokens := by
      obtain ⟨left, right, rfl⟩ := List.append_of_mem hp
      exact ⟨left.flatMap tokens, right.flatMap tokens, by simp⟩
    refine ⟨parts p hp, anchors p hp, (hwithin.filter _).trans ?_⟩
    rw [← tokens_node r first last labels]
    exact h.covers

theorem mem_visible (h : t.ReadFrom text) (hx : x ∈ t.tokens) (hk : x.kind ≠ .eof) :
    x ∈ (Lexed.ofText text).visible :=
  h.covers.subset (List.mem_filter.mpr ⟨hx, by simpa using hk⟩)

/-- A phrase of one word is a token of the text. -/
theorem word (h : t.ReadFrom text) (hr : t.rule? = some r) (hword : Java.isWordRule r = true) :
    ∃ tk ∈ (Lexed.ofText text).visible, t.children = [.token tk] ∧ tk.Proper ∧
      tk.kind ∈ Java.wordKinds r ∧ Lexicon.isWord tk.text = true := by
  unfold Java.isWordRule at hword
  split at hword
  · rename_i site kinds label hbody
    have hspells := h.derived.spells hr (by rw [hbody]; rfl)
    rw [hbody] at hspells
    simp only [Item.spellsAll_cons, Item.spellsAll_nil, Item.Spells] at hspells
    obtain ⟨_, _, hw, ⟨k, hk, rfl⟩, rfl⟩ := hspells
    obtain ⟨c, hc, hs⟩ := List.map_eq_singleton_iff.mp hw
    obtain ⟨tk, rfl, hproper, rfl⟩ :=
      (h.derived.of_mem (hc ▸ List.mem_singleton_self c)).of_token hs
    obtain ⟨hisWord, hne⟩ := Bool.and_eq_true_iff.mp (List.all_eq_true.mp hword _ hk)
    have hvisible : tk ∈ (Lexed.ofText text).visible := by
      refine h.mem_visible ?_ (by simpa using hne)
      rw [tokens_of_rule hr, hc, List.flatMap_singleton, tokens_token]
      exact List.mem_singleton_self tk
    refine ⟨tk, hvisible, hc, hproper, ?_, Lexed.isWord_of_visible hvisible hisWord⟩
    rw [Java.wordKinds, hbody]
    simpa using hk
  · cases hword

theorem text_word (h : t.ReadFrom text) (hr : t.rule? = some r)
    (hword : Java.isWordRule r = true) : t.text ≠ "" := by
  obtain ⟨tk, _, hchildren, hproper, _⟩ := h.word hr hword
  rw [text_of_children hchildren]
  exact hproper.1

end ReadFrom

/-! ## Marks -/

/-- The first character of the text that is neither of a word nor a dot. -/
def mark (t : Tree) : Option Char :=
  t.text.toList.find? fun c => !(Lexicon.isLetterOrDigit c || c == '.')

theorem mark_of_isWord (h : Lexicon.isWord t.text = true) : t.mark = none := by
  rw [mark, List.find?_eq_none]
  intro c hc
  simp [Lexicon.isLetterOrDigit_of_mem h hc]

theorem mark_of_rule (h : t.rule? = some r) : t.mark = t.children.findSome? mark := by
  cases t with
  | token | skipped | missing => cases h
  | node r' first last labels parts =>
    rw [children, mark, Tree.text]
    clear h
    induction parts with
    | nil => rfl
    | cons p ps ih =>
      rw [textAll, String.toList_append, List.find?_append, ih, List.findSome?_cons, ← mark]
      cases p.mark <;> rfl

theorem mark_of_children {c : Char} (h : t.rule? = some r)
    (hall : ∀ p ∈ t.children, p.mark = none ∨ p.mark = some c) :
    t.mark = none ∨ t.mark = some c := by
  rw [mark_of_rule h]
  cases hm : t.children.findSome? mark with
  | none => exact .inl rfl
  | some d =>
    obtain ⟨p, hp, hd⟩ := List.exists_of_findSome?_eq_some hm
    rcases hall p hp with hnone | hc
    · rw [hnone] at hd
      cases hd
    · exact .inr (hd.symm.trans hc)

/-- A phrase all of whose marked children have one mark, and that has such a child. -/
theorem mark_of_child {c : Char} (h : t.rule? = some r)
    (hall : ∀ p ∈ t.children, p.mark = none ∨ p.mark = some c)
    (hp : p ∈ t.children) (hc : p.mark = some c) : t.mark = some c := by
  rcases mark_of_children h hall with hnone | hsome
  · rw [mark_of_rule h, List.findSome?_eq_none_iff] at hnone
    rw [hnone p hp] at hc
    cases hc
  · exact hsome

/-- A child that comes first marks the phrase if it has a mark. -/
theorem mark_of_first {c : Char} (hr : t.rule? = some r) (hp : t.children[0]? = some p)
    (hc : p.mark = some c) : t.mark = some c := by
  rw [mark_of_rule hr]
  cases hchildren : t.children with
  | nil =>
    rw [hchildren] at hp
    cases hp
  | cons q qs =>
    rw [hchildren] at hp
    cases hp
    rw [List.findSome?_cons, hc]

/-- A token of one spelling. -/
theorem Derived.mark_token {g : Grammar} (h : t.Derived g) {k : Kind} {s : String}
    (hs : Symbol.of t = .token k) (hk : k.spelling? = some s) :
    t.mark = s.toList.find? fun c => !(Lexicon.isLetterOrDigit c || c == '.') := by
  obtain ⟨tk, rfl, hproper, rfl⟩ := h.of_token hs
  rw [mark, Tree.text, hproper.2 s hk]

namespace ReadFrom

theorem mark_word (h : t.ReadFrom text) (hr : t.rule? = some r)
    (hword : Java.isWordRule r = true) : t.mark = none := by
  obtain ⟨tk, _, hchildren, _, _, hisWord⟩ := h.word hr hword
  exact mark_of_isWord (text_of_children hchildren ▸ hisWord)

theorem mark_altAnnotationName (h : t.ReadFrom text)
    (hr : t.rule? = some .altAnnotationQualifiedName) : t.mark = some '@' := by
  obtain ⟨p, hp, hs⟩ := has_iff.mp
    (h.derived.has_of_least hr rfl (s := .token .atSign) (by decide))
  refine mark_of_child hr (fun q hq => ?_) hp ((h.part hp).derived.mark_token hs rfl)
  have hmem := h.derived.symbol_mem hr rfl [.phrase .identifier, .token .dot, .token .atSign]
    (by decide) hq
  simp only [List.mem_cons, List.not_mem_nil, or_false] at hmem
  rcases hmem with hs | hs | hs
  · exact .inl ((h.part hq).mark_word (of_eq_phrase.mp hs) rfl)
  · exact .inl ((h.part hq).derived.mark_token hs rfl)
  · exact .inr ((h.part hq).derived.mark_token hs rfl)

/-- The first sign of an annotation is the at sign. -/
theorem mark_annotationUse (h : t.ReadFrom text) (hr : t.rule? = some .annotationUse) :
    t.mark = some '@' := by
  have hfirst : t.symbols[0]? = some (Symbol.token .atSign) ∨
      t.symbols[0]? = some (Symbol.phrase .altAnnotationQualifiedName) := by
    have hmem := h.derived.mem_words hr rfl rfl
    generalize t.symbols = w at hmem
    revert w
    decide
  rcases hfirst with hs | hs
  · obtain ⟨p, hp, hs⟩ := child_of_symbol hs
    exact mark_of_first hr hp ((h.part (List.mem_of_getElem? hp)).derived.mark_token hs rfl)
  · obtain ⟨p, hp, hs⟩ := child_of_symbol hs
    exact mark_of_first hr hp
      ((h.part (List.mem_of_getElem? hp)).mark_altAnnotationName (of_eq_phrase.mp hs))

theorem mark_typeArguments (h : t.ReadFrom text) (hr : t.rule? = some .typeArguments) :
    t.mark = some '<' := by
  have hspells := h.derived.spells hr rfl
  simp only [Java.body, Item.tok, Item.spellsAll_cons, Item.Spells] at hspells
  obtain ⟨_, _, hw, rfl, _⟩ := hspells
  obtain ⟨p, hp, hs⟩ := child_of_symbol (i := 0) (by rw [hw]; rfl)
  exact mark_of_first hr hp ((h.part (List.mem_of_getElem? hp)).derived.mark_token hs rfl)

/-- The first sign in the name of a type, if there is any, is the bracket of its arguments. -/
theorem mark_type (h : t.ReadFrom text)
    (hr : t.rule? = some .classOrInterfaceType ∨ t.rule? = some .primitiveType) :
    t.mark = none ∨ t.mark = some '<' := by
  rcases hr with hr | hr
  · refine mark_of_children hr fun p hp => ?_
    have hmem := h.derived.symbol_mem hr rfl [.phrase .identifier, .phrase .typeIdentifier,
      .token .dot, .phrase .typeArguments] (by decide) hp
    simp only [List.mem_cons, List.not_mem_nil, or_false] at hmem
    rcases hmem with hs | hs | hs | hs
    · exact .inl ((h.part hp).mark_word (of_eq_phrase.mp hs) rfl)
    · exact .inl ((h.part hp).mark_word (of_eq_phrase.mp hs) rfl)
    · exact .inl ((h.part hp).derived.mark_token hs rfl)
    · exact .inr ((h.part hp).mark_typeArguments (of_eq_phrase.mp hs))
  · exact .inl (h.mark_word hr rfl)

end ReadFrom

end Tree

end Callscope
