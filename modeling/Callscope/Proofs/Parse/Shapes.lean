import Callscope.Proofs.Grammar.Words
import Callscope.Proofs.Parse.Derivation

/-!
# Shapes of derived trees

What the grammar of Java says about the children of a node and about the node around it, for trees that
follow it. Most of it is computed from the right-hand sides of the rules.
-/

namespace Callscope

namespace Tree

variable {g : Grammar} {t c : Tree} {r : Rule}

/-- What the children of a node are. -/
def symbols (t : Tree) : List Symbol := t.children.map Symbol.of

/-- Whether a node has a child of some sort. -/
def has (t : Tree) (s : Symbol) : Bool := t.symbols.contains s

theorem of_eq_phrase : Symbol.of t = .phrase r ↔ t.rule? = some r := by
  cases t <;> simp [Symbol.of, rule?]

theorem text_of_child (h : t.children = [c]) : t.text = c.text := by
  cases t with
  | token | skipped | missing => cases h
  | node r first last labels parts =>
    rw [children] at h
    rw [h, text, textAll, textAll, String.append_empty]

theorem text_of_children {tk : Token} (h : t.children = [.token tk]) : t.text = tk.text := by
  rw [text_of_child h, text]

/-- A phrase has a text if a part of it has. -/
theorem text_ne_of_mem (hc : c ∈ t.children) (h : c.text ≠ "") : t.text ≠ "" := by
  cases t with
  | token | skipped | missing => cases hc
  | node r first last labels parts =>
    rw [children] at hc
    rw [text]
    induction parts with
    | nil => cases hc
    | cons p ps ih =>
      rw [textAll, Ne, String.append_eq_empty_iff]
      rintro ⟨hp, hps⟩
      rcases List.mem_cons.mp hc with rfl | hc
      · exact h hp
      · exact ih hc hps

theorem has_iff {s : Symbol} : t.has s = true ↔ ∃ c ∈ t.children, Symbol.of c = s := by
  simp [has, symbols]

/-- The child that stands for a symbol. -/
theorem child_of_symbol {i : Nat} {s : Symbol} (h : t.symbols[i]? = some s) :
    ∃ c, t.children[i]? = some c ∧ Symbol.of c = s := by
  rw [symbols, List.getElem?_map] at h
  exact Option.map_eq_some_iff.mp h

theorem symbol_of_child {i : Nat} (h : t.children[i]? = some c) :
    t.symbols[i]? = some (Symbol.of c) := by
  rw [symbols, List.getElem?_map, h, Option.map_some]

theorem rule_of_symbol {i : Nat} (hs : t.symbols[i]? = some (Symbol.phrase r))
    (hc : t.children[i]? = some c) : c.rule? = some r :=
  of_eq_phrase.mp (Option.some.inj ((symbol_of_child hc).symm.trans hs))

/-! ## Parts by their sort -/

/-- The first child of some sort. -/
def part? (p : Symbol → Bool) (t : Tree) : Option Tree :=
  t.children.find? fun c => p (Symbol.of c)

/-- The text of the first child of some sort; empty if there is none. -/
def textOf (p : Symbol → Bool) (t : Tree) : String := ((t.part? p).map text).getD ""

/-- The child after the first token of a kind. -/
def after? (k : Kind) (t : Tree) : Option Tree :=
  t.children[t.symbols.findIdx (· == .token k) + 1]?

/-- All children of some sort. -/
def partsOf (p : Symbol → Bool) (t : Tree) : List Tree :=
  t.children.filter fun c => p (Symbol.of c)

theorem part?_eq_getElem? (p : Symbol → Bool) (t : Tree) :
    t.part? p = t.children[t.symbols.findIdx p]? := by
  rw [symbols, List.findIdx_map]
  exact List.find?_eq_getElem?_findIdx

theorem part?_of_mem {p : Symbol → Bool} (hc : c ∈ t.children) (hp : p (Symbol.of c) = true) :
    ∃ q, t.part? p = some q ∧ q ∈ t.children ∧ p (Symbol.of q) = true := by
  have hfound : (t.part? p).isSome = true := List.find?_isSome.mpr ⟨c, hc, hp⟩
  obtain ⟨q, hq⟩ := Option.isSome_iff_exists.mp hfound
  have hpq := List.find?_some hq
  exact ⟨q, hq, List.mem_of_find?_eq_some hq, hpq⟩

/-- A child with none of its sort before it. -/
theorem textOf_append {p : Symbol → Bool} {before after : List Tree}
    (h : t.children = before ++ c :: after) (hbefore : ∀ b ∈ before, p (Symbol.of b) = false)
    (hc : p (Symbol.of c) = true) : t.textOf p = c.text := by
  have hnone : before.find? (fun c => p (Symbol.of c)) = none := by
    simpa [List.find?_eq_none] using hbefore
  rw [textOf, part?, h, List.find?_append, hnone, Option.none_or, List.find?_cons, hc]
  rfl

theorem after?_eq_none {k : Kind} (h : t.has (.token k) = false) : t.after? k = none := by
  have hall : ∀ s ∈ t.symbols, (s == .token k) = false := by
    intro s hs
    cases hk : s == .token k with
    | false => rfl
    | true =>
      rw [has, List.contains_iff_mem.mpr (eq_of_beq hk ▸ hs)] at h
      cases h
  rw [after?, List.findIdx_eq_length_of_false hall]
  simp [symbols]

namespace Derived

theorem forms (h : t.Derived g) (hr : t.rule? = some r) : Item.Forms r (g r) t.symbols := by
  cases h with
  | token => cases hr
  | node form parts ended =>
    cases hr
    exact form

theorem of_mem (h : t.Derived g) (hc : c ∈ t.children) : c.Derived g := by
  cases h with
  | token => cases hc
  | node form parts ended => exact parts c hc

/-- A leaf of a derived tree is a proper token. -/
theorem of_token (h : t.Derived g) {k : Kind} (hs : Symbol.of t = .token k) :
    ∃ tk : Token, t = .token tk ∧ tk.Proper ∧ tk.kind = k := by
  cases h with
  | @token tk proper =>
    cases hs
    exact ⟨tk, rfl, proper, rfl⟩
  | node => cases hs

theorem child (h : t.Derived g) {i : Nat} (hs : t.symbols[i]? = some (Symbol.phrase r)) :
    ∃ c, t.children[i]? = some c ∧ c.Derived g ∧ c.rule? = some r := by
  obtain ⟨c, hc, hr⟩ := child_of_symbol hs
  exact ⟨c, hc, h.of_mem (List.mem_of_getElem? hc), of_eq_phrase.mp hr⟩

theorem spells (h : t.Derived g) (hr : t.rule? = some r) (ht : Item.trailing (g r) = []) :
    Item.SpellsAll (g r) t.symbols := by
  rcases h.forms hr with hforms | ⟨op, hop, _⟩
  · exact hforms
  · rw [ht] at hop
    cases hop

/-- The children of a node of a rule without loops are one of finitely many words. -/
theorem mem_words (h : t.Derived g) (hr : t.rule? = some r) (ht : Item.trailing (g r) = [])
    {ws : List (List Symbol)} (hws : Item.wordsAll? (g r) = some ws) : t.symbols ∈ ws :=
  Item.mem_wordsAll (g r) (h.spells hr ht) hws

theorem le_length (h : t.Derived g) (hr : t.rule? = some r) (ht : Item.trailing (g r) = []) :
    Item.leastAll (fun _ => true) (g r) ≤ t.children.length := by
  have hle := Item.leastAll_le_countP (fun _ => true) (g r) (h.spells hr ht)
  simpa [symbols] using hle

/-- The phrase that all forms of a rule begin with. -/
theorem symbol_first (h : t.Derived g) (hr : t.rule? = some r) (ht : Item.trailing (g r) = [])
    {r' : Rule} {items : List Item} (hitems : g r = Item.ref r' :: items) :
    t.symbols[0]? = some (Symbol.phrase r') := by
  have hspells := h.spells hr ht
  rw [hitems] at hspells
  simp only [Item.ref, Item.spellsAll_cons, Item.Spells] at hspells
  obtain ⟨_, _, hw, rfl, _⟩ := hspells
  rw [hw]
  rfl

/-- A part of a sort that every form of a rule has. -/
theorem exists_child (h : t.Derived g) (hr : t.rule? = some r) (ht : Item.trailing (g r) = [])
    {p : Symbol → Bool} (hp : 0 < Item.leastAll p (g r)) :
    ∃ c ∈ t.children, p (Symbol.of c) = true := by
  have hle := Item.leastAll_le_countP p (g r) (h.spells hr ht)
  have hpos : 0 < t.symbols.countP p := by omega
  obtain ⟨s, hs, hp⟩ := List.countP_pos_iff.mp hpos
  obtain ⟨c, hc, rfl⟩ := List.mem_map.mp hs
  exact ⟨c, hc, hp⟩

theorem has_of_least (h : t.Derived g) (hr : t.rule? = some r) (ht : Item.trailing (g r) = [])
    {s : Symbol} (hs : 0 < Item.leastAll (· == s) (g r)) : t.has s = true := by
  obtain ⟨c, hc, hcs⟩ := h.exists_child hr ht hs
  exact has_iff.mpr ⟨c, hc, eq_of_beq hcs⟩

end Derived

end Tree

/-! ## Java -/

namespace Java

open Callscope.Item

/-- Whether a node of the first rule can have a child of the second. -/
def holds (outer inner : Rule) : Bool :=
  mentionsAll (· == .phrase inner) (body outer) || (trailing (body outer)).any fun op =>
    inner == outer || mentionsAll (· == .phrase inner) op.2

/-- The rules whose nodes can have a child of the rule. -/
def parents (r : Rule) : List Rule := Rule.all.filter fun outer => holds outer r

/-- The kinds of tokens that can be a name: identifiers, and words that are keywords in some places
only. -/
def nameKinds : List Kind := (body .identifier).flatMap fun
  | terminalOf _ kinds _ => kinds
  | _ => []

/-- The rules around the members of a class. -/
theorem parents_members :
    parents .fieldDeclaration = [.memberDeclaration] ∧
    parents .memberDeclaration = [.classBodyDeclaration] ∧
    parents .classBodyDeclaration = [.enumBodyDeclarations, .classBody, .recordBody] ∧
    parents .classBody = [.classDeclaration, .enumConstant, .classCreatorRest] ∧
    parents .enumBodyDeclarations = [.enumDeclaration] := by
  decide +kernel

end Java

namespace Tree.Derived

open Java

variable {t c : Tree}

/-- The rule around a node of a rule. -/
theorem parent (h : t.Derived body) {r : Rule} (hc : c ∈ t.children) (hr : c.rule? = some r) :
    ∃ outer ∈ parents r, t.rule? = some outer := by
  have hmem : .phrase r ∈ t.symbols := List.mem_map.mpr ⟨c, hc, of_eq_phrase.mpr hr⟩
  cases ht : t.rule? with
  | none =>
    cases t with
    | node => cases ht
    | token | skipped | missing => cases hc
  | some outer =>
    refine ⟨outer, List.mem_filter.mpr ⟨List.mem_of_getElem? (Tables.all_ctorIdx outer), ?_⟩, rfl⟩
    rw [holds, Bool.or_eq_true]
    rcases h.forms ht with hspells | ⟨op, hop, v, hw, hspells⟩
    · exact .inl (Item.mentionsAll_of_mem _ _ hspells hmem (beq_self_eq_true _))
    · refine .inr (List.any_eq_true.mpr ⟨op, hop, ?_⟩)
      rw [hw] at hmem
      rcases List.mem_cons.mp hmem with heq | hmem
      · cases heq
        simp
      · have hop := Item.mentionsAll_of_mem (fun s => s == .phrase r) op.2 hspells hmem
          (beq_self_eq_true _)
        rw [hop, Bool.or_true]

/-- A name is one token. -/
theorem children_identifier (h : t.Derived body) (hr : t.rule? = some .identifier) :
    ∃ tk : Token, t.children = [.token tk] ∧ tk.Proper ∧ tk.kind ∈ nameKinds := by
  have hspells := h.spells hr rfl
  simp only [body, Item.oneOf, Item.spellsAll_cons, Item.spellsAll_nil, Item.Spells] at hspells
  obtain ⟨_, _, hw, ⟨k, hk, rfl⟩, rfl⟩ := hspells
  obtain ⟨c, hc, hs⟩ := List.map_eq_singleton_iff.mp hw
  obtain ⟨tk, rfl, hproper, rfl⟩ := (h.of_mem (hc ▸ List.mem_singleton_self c)).of_token hs
  exact ⟨tk, hc, hproper, hk⟩

theorem text_identifier (h : t.Derived body) (hr : t.rule? = some .identifier) : t.text ≠ "" := by
  obtain ⟨tk, hchildren, hproper, _⟩ := h.children_identifier hr
  rw [text_of_children hchildren]
  exact hproper.1

theorem symbols_method (h : t.Derived body) (hr : t.rule? = some .methodDeclaration) :
    ∃ more, t.symbols =
      .phrase .typeTypeOrVoid :: .phrase .identifier :: .phrase .formalParameters :: more := by
  have hspells := h.spells hr rfl
  simp only [body, Item.ref, Item.spellsAll_cons, Item.Spells] at hspells
  obtain ⟨_, _, hw, rfl, _, _, rfl, rfl, _, more, rfl, rfl, _⟩ := hspells
  exact ⟨more, hw⟩

/-- The list of parameters between brackets, where there is no receiver. -/
theorem symbols_parameters (h : t.Derived body) (hr : t.rule? = some .formalParameters) :
    t.symbols[0]? = some (Symbol.token .lparen) ∧
      (t.has (.phrase .receiverParameter) = false → t.symbols.length = 3 →
        t.symbols[1]? = some (Symbol.phrase .formalParameterList)) := by
  have hmem := h.mem_words hr rfl rfl
  rw [has]
  generalize t.symbols = w at hmem
  revert w
  decide

/-- A call begins with a name or a word in its place, and an opening bracket comes next. -/
theorem symbols_call (h : t.Derived body) (hr : t.rule? = some .methodCall) :
    (∃ s ∈ [Symbol.phrase .identifier, .token .kwThis, .token .kwSuper], t.symbols[0]? = some s) ∧
      t.symbols[1]? = some (Symbol.token .lparen) := by
  have hmem := h.mem_words hr rfl rfl
  generalize t.symbols = w at hmem
  revert w
  decide

/-- The body of an enumeration constant stands right after its name if nothing else does. -/
theorem symbols_enumConstant (h : t.Derived body) (hr : t.rule? = some .enumConstant)
    (harguments : t.has (.phrase .arguments) = false)
    (hannotations : t.has (.phrase .annotationUse) = false)
    (hbody : t.has (.phrase .classBody) = true) :
    t.symbols = [.phrase .identifier, .phrase .classBody] := by
  have hspells := h.spells hr rfl
  rw [has] at harguments hannotations hbody
  simp only [body, Item.ref, Item.many, Item.opt, Item.spellsAll_cons, Item.spellsAll_nil,
    Item.Spells, Item.SpellsOne] at hspells
  obtain ⟨_, _, hw, ⟨annotations, rfl, hloop⟩, _, _, rfl, rfl, a, _, rfl, ha, b, _, rfl, hb, rfl⟩ :=
    hspells
  rw [hw] at harguments hannotations hbody ⊢
  have hnone : annotations = [] := by
    cases annotations with
    | nil => rfl
    | cons u us =>
      obtain ⟨_, _, rfl, rfl, rfl⟩ := hloop u List.mem_cons_self
      simp at hannotations
  subst hnone
  rcases ha with ⟨_, _, rfl, rfl, rfl⟩ | rfl | hfalse
  · simp at harguments
  · rcases hb with ⟨_, _, rfl, rfl, rfl⟩ | rfl | hfalse
    · rfl
    · simp at hbody
    · exact hfalse.elim
  · exact hfalse.elim

theorem symbols_creator (h : t.Derived body) (hr : t.rule? = some .classCreatorRest)
    (hbody : t.has (.phrase .classBody) = true) :
    t.symbols = [.phrase .arguments, .phrase .classBody] := by
  have hmem := h.mem_words hr rfl rfl
  rw [has] at hbody
  generalize t.symbols = w at hmem hbody
  revert w
  decide

end Tree.Derived

end Callscope
