import Callscope.Proofs.Outline.Atomicity
import Callscope.Proofs.Outline.Growth
import Callscope.Proofs.Outline.Parts
import Callscope.Proofs.Parse.Recognition
import Callscope.Proofs.Parse.Standing

/-!
# Class heads as written

The head of a class is read by the number of its children, and of a type after `extends` only the first
child is taken. So what is recorded is what is written just if the number tells which lists of types
there are and no annotation comes before the type. `head_recorded_iff` says so for every class and
enumeration that is entered without a fault.
-/

namespace Callscope

open Collector

namespace Tree

/-- The name of a class or of a primitive type. -/
def isTypeName (s : Symbol) : Bool :=
  s == .phrase .classOrInterfaceType || s == .phrase .primitiveType

/-- A type without its annotations and brackets. -/
def bareText (t : Tree) : String := t.textOf isTypeName

/-- The head of a class by the words in it. -/
def writtenHead (t : Tree) : ClassHead where
  name := t.textOf (· == .phrase .identifier)
  extends_ := ((t.after? .kwExtends).map bareText).getD ""
  implements := (t.after? .kwImplements).map fun list =>
    (list.partsOf (· == .phrase .typeType)).map text

/-- Whether a type begins with an annotation. -/
def annotated (t : Tree) : Bool := t.symbols[0]? == some (Symbol.phrase .annotationUse)

/-- Whether the number of children tells which lists of types a head has: a class that permits others
has no second list, and an enumeration has no interfaces and not all of constants, a comma and
members. -/
def toldByNumber (t : Tree) : Bool :=
  match t.rule? with
  | some .classDeclaration =>
    !(t.has (.token .kwPermits) && (t.has (.token .kwExtends) || t.has (.token .kwImplements)))
  | some .enumDeclaration =>
    !(t.has (.token .kwImplements) || (t.has (.phrase .enumConstants) && t.has (.token .comma) &&
      t.has (.phrase .enumBodyDeclarations)))
  | _ => false

/-- A head that is read as it is written. -/
def plainlyHeaded (t : Tree) : Bool :=
  t.toldByNumber && (t.after? .kwExtends).all fun type => !type.annotated

variable {text : String} {t p : Tree}

/-! ## Types -/

namespace ReadFrom

theorem text_type (h : t.ReadFrom text) (hr : t.rule? = some .typeType) : t.text ≠ "" := by
  obtain ⟨p, hp, hname⟩ := h.derived.exists_child hr rfl (p := isTypeName) (by decide)
  refine text_ne_of_mem hp ?_
  rcases Bool.or_eq_true_iff.mp hname with hs | hs
  · have hr' := of_eq_phrase.mp (eq_of_beq hs)
    obtain ⟨q, hq, hs'⟩ := has_iff.mp ((h.part hp).derived.has_of_least hr' rfl
      (s := .phrase .typeIdentifier) (by decide))
    exact text_ne_of_mem hq (((h.part hp).part hq).text_word (of_eq_phrase.mp hs') rfl)
  · exact (h.part hp).text_word (of_eq_phrase.mp (eq_of_beq hs)) rfl

theorem text_enumConstant (h : t.ReadFrom text) (hr : t.rule? = some .enumConstant) :
    t.text ≠ "" := by
  obtain ⟨p, hp, hs⟩ := has_iff.mp
    (h.derived.has_of_least hr rfl (s := .phrase .identifier) (by decide))
  exact text_ne_of_mem hp ((h.part hp).text_word (of_eq_phrase.mp hs) rfl)

/-- Annotations, and then the name of the type. -/
theorem symbols_type (h : t.ReadFrom text) (hr : t.rule? = some .typeType) :
    t.symbols[0]? = some (Symbol.phrase .annotationUse) ∨
      ∃ s, isTypeName s = true ∧ t.symbols[0]? = some s := by
  have hspells := h.derived.spells hr rfl
  simp only [Java.body, Item.ref, Item.many, Item.choice, Item.spellsAll_cons, Item.Spells,
    Item.SpellsOne] at hspells
  obtain ⟨_, _, hw, ⟨annotations, rfl, hloop⟩, name, more, rfl, hname, _⟩ := hspells
  rw [hw]
  cases annotations with
  | cons u us =>
    obtain ⟨_, _, rfl, rfl, hnil⟩ := hloop u List.mem_cons_self
    exact .inl rfl
  | nil =>
    rcases hname with ⟨_, _, rfl, rfl, hnil⟩ | ⟨_, _, rfl, rfl, hnil⟩ | hfalse
    · exact .inr ⟨.phrase .classOrInterfaceType, rfl, rfl⟩
    · exact .inr ⟨.phrase .primitiveType, rfl, rfl⟩
    · exact hfalse.elim

/-- The first child of a type is its name unless it is an annotation. -/
theorem text_first_iff (h : t.ReadFrom text) (hr : t.rule? = some .typeType)
    (hp : t.children[0]? = some p) : p.text = t.bareText ↔ t.annotated = false := by
  have hs := symbol_of_child hp
  rcases h.symbols_type hr with hannotation | ⟨s, hname, hfirst⟩
  · -- A bare type has no at sign in front, and an annotation has.
    obtain ⟨c, hc, hcname⟩ := h.derived.exists_child hr rfl (p := isTypeName) (by decide)
    obtain ⟨q, hq, hmem, hqname⟩ := part?_of_mem hc hcname
    have hat := (h.part (List.mem_of_getElem? hp)).mark_annotationUse
      (of_eq_phrase.mp (Option.some.inj (hs.symm.trans hannotation)))
    have hbare := (h.part hmem).mark_type (by simpa [isTypeName, of_eq_phrase] using hqname)
    have hannotated : t.annotated = true := by rw [annotated, hannotation]; rfl
    rw [hannotated, bareText, textOf, hq, Option.map_some, Option.getD_some]
    constructor
    · intro heq
      rw [mark, heq, ← mark] at hat
      rw [hat] at hbare
      simp at hbare
    · intro hfalse
      cases hfalse
  · obtain rfl : Symbol.of p = s := Option.some.inj (hs.symm.trans hfirst)
    have hannotated : t.annotated = false := by
      rw [annotated, hs]
      generalize Symbol.of p = s at hname
      rcases Bool.or_eq_true_iff.mp hname with h | h
      · rw [eq_of_beq h]; rfl
      · rw [eq_of_beq h]; rfl
    have hbare : t.bareText = p.text := by
      cases hchildren : t.children with
      | nil =>
        rw [hchildren] at hp
        cases hp
      | cons c cs =>
        rw [hchildren] at hp
        cases hp
        have hsplit : t.children = [] ++ p :: cs := hchildren
        exact textOf_append hsplit (List.forall_mem_nil _) hname
    rw [hannotated, hbare]
    exact ⟨fun _ => rfl, fun _ => rfl⟩

end ReadFrom

end Tree

namespace Collector

variable {text : String} {t : Tree} {head : ClassHead}

/-- Between the commas of a list of types there are types. -/
theorem alternates_types (h : t.Derived Java.body) (hr : t.rule? = some .typeList) :
    alternates (· == .phrase .typeType) t.symbols = true := by
  have hspells := h.spells hr rfl
  simp only [Java.body, Item.ref, Item.tok, Item.many, Item.spellsAll_cons, Item.spellsAll_nil,
    Item.Spells] at hspells
  obtain ⟨_, _, hw, rfl, _, _, rfl, ⟨ws, rfl, hws⟩, rfl⟩ := hspells
  rw [hw]
  refine alternates_separated rfl (fun u hu => ?_) (.inl rfl)
  obtain ⟨_, _, rfl, rfl, _, _, rfl, rfl, rfl⟩ := hws u hu
  exact ⟨_, _, rfl, rfl, rfl⟩

/-! ## Heads -/

/-- A head without a list of types that is looked for. -/
theorem symbols_bare (h : t.Derived Java.body) (hd : t.declaresClass = true)
    (hh : t.headless = false) (htold : t.symbols.length = 3 ∨ t.symbols.length = 5 ∧
      (t.symbols[2]? = some (Symbol.token .lbrace) ∨ t.symbols[2]? = some (Symbol.token .kwPermits))) :
    t.toldByNumber = true ∧ t.has (.token .kwExtends) = false ∧
      t.has (.token .kwImplements) = false := by
  rcases Tree.declaresClass_iff.mp hd with hr | hr <;>
  · have hmem := h.mem_words hr rfl rfl
    simp only [Tree.headless, Tree.toldByNumber, hr, Tree.has] at hh ⊢
    generalize t.symbols = w at hmem hh htold
    revert w
    decide

/-- A head with the word `extends` and nothing else. -/
theorem symbols_extending (h : t.Derived Java.body) (hd : t.declaresClass = true)
    (hlength : t.symbols.length = 5) (hword : t.symbols[2]? = some (Symbol.token .kwExtends)) :
    t.toldByNumber = true ∧ t.symbols.findIdx (· == .token .kwExtends) = 2 ∧
      t.symbols[3]? = some (Symbol.phrase .typeType) ∧ t.has (.token .kwImplements) = false := by
  rcases Tree.declaresClass_iff.mp hd with hr | hr <;>
  · have hmem := h.mem_words hr rfl rfl
    simp only [Tree.toldByNumber, hr, Tree.has]
    generalize t.symbols = w at hmem hlength hword
    revert w
    decide

/-- A head with the word `implements` and nothing else. -/
theorem symbols_implementing (h : t.Derived Java.body) (hd : t.declaresClass = true)
    (hlength : t.symbols.length = 5) (hword : t.symbols[2]? = some (Symbol.token .kwImplements)) :
    t.toldByNumber = true ∧ t.symbols.findIdx (· == .token .kwImplements) = 2 ∧
      t.symbols[3]? = some (Symbol.phrase .typeList) ∧ t.has (.token .kwExtends) = false := by
  rcases Tree.declaresClass_iff.mp hd with hr | hr <;>
  · have hmem := h.mem_words hr rfl rfl
    simp only [Tree.toldByNumber, hr, Tree.has]
    generalize t.symbols = w at hmem hlength hword
    revert w
    decide

/-- A head with both words, or one that only has as many children. -/
theorem symbols_both (h : t.Derived Java.body) (hd : t.declaresClass = true)
    (hh : t.headless = false) (hlength : t.symbols.length = 7) :
    t.toldByNumber = true ∧ t.symbols.findIdx (· == .token .kwExtends) = 2 ∧
        t.symbols[3]? = some (Symbol.phrase .typeType) ∧
        t.symbols.findIdx (· == .token .kwImplements) = 4 ∧
        t.symbols[5]? = some (Symbol.phrase .typeList) ∨
      t.toldByNumber = false ∧ t.has (.token .kwImplements) = false ∨
      t.toldByNumber = false ∧ t.has (.token .kwExtends) = false ∧
        (t.symbols[3]? = some (Symbol.phrase .typeList) ∨
          t.symbols[3]? = some (Symbol.phrase .enumConstants)) := by
  rcases Tree.declaresClass_iff.mp hd with hr | hr <;>
  · have hmem := h.mem_words hr rfl rfl
    simp only [Tree.headless, Tree.toldByNumber, hr, Tree.has] at hh ⊢
    generalize t.symbols = w at hmem hh hlength
    revert w
    decide

/-- The name is the first identifier. -/
theorem name_written (h : t.Derived Java.body) (hd : t.declaresClass = true) :
    t.writtenHead.name = t.partText 1 := by
  have hindex : t.symbols.findIdx (· == .phrase .identifier) = 1 := by
    rcases Tree.declaresClass_iff.mp hd with hr | hr <;>
    · have hmem := h.mem_words hr rfl rfl
      generalize t.symbols = w at hmem
      revert w
      decide
  obtain ⟨part, hpart, _⟩ := Tree.child_of_symbol (symbols_class h hd).1
  rw [Tree.writtenHead, Tree.textOf, Tree.part?_eq_getElem?, hindex, hpart, partText_of_child hpart]
  rfl

/-- What is taken for the type after `extends` where there is none is not empty. -/
theorem text_first_ne (h : t.ReadFrom text) {part first : Tree}
    (hs : t.symbols[3]? = some (Symbol.phrase .typeList) ∨
      t.symbols[3]? = some (Symbol.phrase .enumConstants))
    (hpart : t.children[3]? = some part) (hfirst : part.children[0]? = some first) :
    first.text ≠ "" := by
  have hread := h.part (List.mem_of_getElem? hpart)
  have hread' := hread.part (List.mem_of_getElem? hfirst)
  rcases hs with hs | hs
  · have hs' := hread.derived.symbol_first (Tree.rule_of_symbol hs hpart) rfl rfl
    exact hread'.text_type (Tree.rule_of_symbol hs' hfirst)
  · have hs' := hread.derived.symbol_first (Tree.rule_of_symbol hs hpart) rfl rfl
    exact hread'.text_enumConstant (Tree.rule_of_symbol hs' hfirst)

/-- What is read is what is written just if the head is plain. -/
theorem Reads.written_iff (h : t.ReadFrom text) (hd : t.declaresClass = true)
    (hh : t.headless = false) (hreads : Reads t head) :
    (head.extends_ = t.writtenHead.extends_ ∧ head.implements = t.writtenHead.implements) ↔
      t.plainlyHeaded = true := by
  cases hreads with
  | bare told =>
    obtain ⟨htold, hextends, himplements⟩ := symbols_bare h.derived hd hh told
    simp [Tree.writtenHead, Tree.plainlyHeaded, htold, Tree.after?_eq_none hextends,
      Tree.after?_eq_none himplements]
  | @extending type first told word next begins =>
    obtain ⟨htold, hat, hs, himplements⟩ := symbols_extending h.derived hd told word
    have hafter : t.after? .kwExtends = some type := by rw [Tree.after?, hat]; exact next
    have hfirst := (h.part (List.mem_of_getElem? next)).text_first_iff (Tree.rule_of_symbol hs next)
      begins
    simp [Tree.writtenHead, Tree.plainlyHeaded, htold, hafter, Tree.after?_eq_none himplements,
      hfirst]
  | @implementing list told word next =>
    obtain ⟨htold, hat, hs, hextends⟩ := symbols_implementing h.derived hd told word
    have hafter : t.after? .kwImplements = some list := by rw [Tree.after?, hat]; exact next
    have hnames := everyOther_children (alternates_types
      (h.derived.of_mem (List.mem_of_getElem? next)) (Tree.rule_of_symbol hs next))
    simp [Tree.writtenHead, Tree.plainlyHeaded, htold, hafter, Tree.after?_eq_none hextends, hnames]
  | @both part first list told next begins later =>
    rcases symbols_both h.derived hd hh told with ⟨htold, hat, hs, hat', hs'⟩ |
      ⟨htold, himplements⟩ | ⟨htold, hextends, hs⟩
    · have hafter : t.after? .kwExtends = some part := by rw [Tree.after?, hat]; exact next
      have hafter' : t.after? .kwImplements = some list := by rw [Tree.after?, hat']; exact later
      have hfirst := (h.part (List.mem_of_getElem? next)).text_first_iff (Tree.rule_of_symbol hs next)
        begins
      have hnames := everyOther_children (alternates_types
        (h.derived.of_mem (List.mem_of_getElem? later)) (Tree.rule_of_symbol hs' later))
      simp [Tree.writtenHead, Tree.plainlyHeaded, htold, hafter, hafter', hfirst, hnames]
    · -- The permitted classes are taken for interfaces.
      simp [Tree.writtenHead, Tree.plainlyHeaded, htold, Tree.after?_eq_none himplements]
    · -- An interface or a constant is taken for the class that is extended.
      have hne := text_first_ne h hs next begins
      simp [Tree.writtenHead, Tree.plainlyHeaded, htold, Tree.after?_eq_none hextends, hne]

/-- A visit brings a class, which is found under its name. It has the name that is written, and the types
that are written just if its head is plain. -/
def RecordsHead (t : Tree) (c c' : Collector) : Prop :=
  ∃ e, c'.pool = c.pool ++ [e] ∧ c'.outline.classes.get? e.name = some e ∧
    e.name = t.writtenHead.name ∧
    (e.extends_ = t.writtenHead.extends_ ∧ e.implements = t.writtenHead.implements ↔
      t.plainlyHeaded = true)

theorem recordsHead_visit (h : t.ReadFrom text) (hd : t.declaresClass = true)
    {around : List Tree} {c : Collector}
    (hok : (visit (.enter t around) c).1.result = .ok ()) :
    RecordsHead t c (visit (.enter t around) c).2 := by
  have ho := outcome_of_result hok
  rw [outcome_enterClass hd] at ho
  cases hh : t.headless with
  | true =>
    rw [classHead_headless h.derived hd hh] at ho
    cases ho
  | false =>
    obtain ⟨head, hhead, hreads⟩ := classHead_reads (c := c) h.derived hd hh
    rw [hhead] at ho
    have hafter : c.opening head = (visit (.enter t around) c).2 := Except.ok.inj ho
    rw [← hafter]
    refine ⟨_, rfl, ?_, ?_, hreads.written_iff h hd hh⟩
    · have hclasses : (c.opening head).classes = c.classes.put head.name c.pool.length := rfl
      rw [get?_outline, hclasses, Table.get?_put, if_pos rfl, Option.map_some, entry_opening_self]
    · rw [name_written h.derived hd]
      exact hreads.name

/-- Every class and every enumeration of a text that is read without a report, if it is entered without
a fault, is recorded with the name that is written, whatever has been collected before, and with the
types that are written just if its head is plain. -/
theorem head_recorded_iff (text : String) (c : Collector) :
    (∀ t around, t.ReadFrom text → t.declaresClass = true →
      (visit (.enter t around) c).1.result = .ok () →
      RecordsHead t c (visit (.enter t around) c).2) ∧
    ∀ rule level p, Parse.ofText? text rule level = some p → p.reports = [] →
      ∀ t around, .enter t around ∈ p.tree.walk → t.declaresClass = true →
        (visit (.enter t around) c).1.result = .ok () →
        RecordsHead t c (visit (.enter t around) c).2 := by
  refine ⟨fun _ _ h hd hok => recordsHead_visit h hd hok, ?_⟩
  intro rule level p h hclean t around hmem hd hok
  have hread := of_enter_mem_visits (fun hp => hp.part) p.tree
    (Parse.readFrom_of_reports_nil h hclean) hmem
  exact recordsHead_visit hread hd hok

/-- A class that extends another one, with a second list of types after a word. -/
def twoListsText (word : String) : String := "class A extends B " ++ word ++ " C , D \x7b \x7d"

open Callscope.Tree in
/-- The class in the text. -/
def twoLists (kind : Kind) (second : String) : Tree :=
  lined (phrase .classDeclaration [word .kwClass "class", named "A", word .kwExtends "extends",
    type "B", word kind second, phrase .typeList [type "C", word .comma ",", type "D"],
    phrase .classBody [word .lbrace "\x7b", word .rbrace "\x7d"]])
where
  type (name : String) : Tree :=
    phrase .typeType [phrase .classOrInterfaceType [phrase .typeIdentifier [word .identifier name]]]

/-- A class and its interfaces are recorded as they are written. -/
theorem head_recorded_iff_interfaces :
    (twoLists .kwImplements "implements").ReadFrom (twoListsText "implements") ∧
    (twoLists .kwImplements "implements").plainlyHeaded = true ∧
    RecordsHead (twoLists .kwImplements "implements") {}
      (visit (.enter (twoLists .kwImplements "implements") []) {}).2 := by
  have hread : (twoLists .kwImplements "implements").ReadFrom (twoListsText "implements") :=
    Tree.readFrom_of_visible (.atEnd ⟨38, 1, 38⟩ 19) (by decide +kernel) (by decide +kernel)
      (by decide +kernel)
  refine ⟨hread, by decide +kernel, ?_⟩
  exact (head_recorded_iff _ {}).1 _ [] hread (by decide +kernel) (by decide +kernel)

/-- Permitted classes are recorded as interfaces, although there are none. -/
theorem permitted_recorded_as_interfaces :
    (twoLists .kwPermits "permits").ReadFrom (twoListsText "permits") ∧
    (visit (.enter (twoLists .kwPermits "permits") []) {}).1.result = .ok () ∧
    (visit (.enter (twoLists .kwPermits "permits") []) {}).2.pool =
      [{ name := "A", extends_ := "B", implements := some ["C", "D"] }] ∧
    (twoLists .kwPermits "permits").writtenHead.implements = none := by
  refine ⟨?_, by decide +kernel, by decide +kernel, by decide +kernel⟩
  exact Tree.readFrom_of_visible (.atEnd ⟨35, 1, 35⟩ 19) (by decide +kernel) (by decide +kernel)
    (by decide +kernel)

end Collector

end Callscope
