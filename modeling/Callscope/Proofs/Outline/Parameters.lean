import Callscope.Proofs.Outline.Atomicity
import Callscope.Proofs.Outline.Declarations
import Callscope.Proofs.Outline.Growth
import Callscope.Proofs.Outline.Parts
import Callscope.Proofs.Parse.Recognition
import Callscope.Proofs.Parse.Standing

/-!
# Parameters as written

Of each parameter the first child is taken for its type and the second for its name. Modifiers stand
before the type, and annotations and an ellipsis before the name, so a parameter is recorded as it is
written just if it has none of them: what is taken for the name then is no name. A receiver is taken for
the list of parameters, or hides it. `parameters_recorded_iff` says so for every method that is stored.
-/

namespace Callscope

open Collector

namespace Tree

/-- What can stand in a parameter besides its type and its name. -/
def isAside (s : Symbol) : Bool :=
  s == .phrase .variableModifier || s == .phrase .annotationUse || s == .token .ellipsis

/-- The brackets of a method. -/
def brackets? (t : Tree) : Option Tree := t.part? (· == .phrase .formalParameters)

/-- The parameters in the brackets of a method. -/
def parameterPhrases (t : Tree) : List Tree :=
  ((t.brackets?.bind (part? (· == .phrase .formalParameterList))).map (partsOf isParameter)).getD []

/-- A parameter by the type and the name in it. -/
def writtenParameter (p : Tree) : Param where
  name := p.textOf (· == .phrase .variableDeclaratorId)
  type := p.textOf (· == .phrase .typeType)

def writtenParameters (t : Tree) : List Param := t.parameterPhrases.map writtenParameter

/-- A parameter that has a type and a name and nothing else. -/
def isPlainParameter (p : Tree) : Bool :=
  p.symbols == [.phrase .typeType, .phrase .variableDeclaratorId]

/-- Whether a method names the object that it is called on among its parameters. -/
def receives (t : Tree) : Bool := t.brackets?.any (has · (.phrase .receiverParameter))

/-- Whether a method has plain parameters only and no receiver. -/
def plainParameters (t : Tree) : Bool := !t.receives && t.parameterPhrases.all isPlainParameter

variable {text : String} {t p q : Tree}

/-! ## Declarators -/

/-- A name that is a keyword in some places is none that stands for a modifier. -/
theorem spelling_ne_final : ∀ k ∈ Java.wordKinds .identifier,
    k = .identifier ∨ k.spelling? ≠ none ∧ k.spelling? ≠ some "final" := by
  decide +kernel

namespace ReadFrom

/-- The name of a parameter is a word of the text, or has brackets after it. -/
theorem declarator (h : t.ReadFrom text) (hr : t.rule? = some .variableDeclaratorId) :
    t.mark = some '[' ∨ ∃ tk ∈ (Lexed.ofText text).visible, t.text = tk.text ∧ tk.Proper ∧
      tk.kind ∈ Java.wordKinds .identifier ∧ Lexicon.isWord tk.text = true := by
  have hspells := h.derived.spells hr rfl
  simp only [Java.body, Item.ref, Item.tok, Item.many, Item.spellsAll_cons, Item.spellsAll_nil,
    Item.Spells] at hspells
  obtain ⟨_, _, hw, rfl, _, _, rfl, ⟨ws, rfl, hws⟩, rfl⟩ := hspells
  rw [List.append_nil] at hw
  obtain ⟨name, rest, hchildren, hname, hrest⟩ := List.map_eq_cons_iff.mp hw
  have hread := h.part (p := name) (by rw [hchildren]; exact List.mem_cons_self)
  cases ws with
  | nil =>
    obtain rfl : rest = [] := List.map_eq_nil_iff.mp hrest
    obtain ⟨tk, hvisible, htoken, hproper, hkind, hword⟩ := hread.word (of_eq_phrase.mp hname) rfl
    refine .inr ⟨tk, hvisible, ?_, hproper, hkind, hword⟩
    rw [text_of_child hchildren, text_of_children htoken]
  | cons u us =>
    obtain ⟨_, _, rfl, rfl, _⟩ := hws u List.mem_cons_self
    obtain ⟨bracket, rest', rfl, hbracket, _⟩ := List.map_eq_cons_iff.mp hrest
    have hread' := h.part (p := bracket) (by rw [hchildren]; simp)
    have hmark : bracket.mark = some '[' := hread'.derived.mark_token hbracket rfl
    left
    rw [mark_of_rule hr, hchildren, List.findSome?_cons,
      hread.mark_word (of_eq_phrase.mp hname) rfl, List.findSome?_cons, hmark]

/-- How a modifier, an annotation or an ellipsis reads. -/
theorem aside (h : t.ReadFrom text) (hs : isAside (Symbol.of t) = true) :
    t.mark = some '@' ∨ t.text = "final" ∨ t.text = "..." := by
  simp only [isAside, Bool.or_eq_true, beq_iff_eq] at hs
  rcases hs with (hs | hs) | hs
  · have hr := of_eq_phrase.mp hs
    have hmem := h.derived.mem_words hr rfl rfl
    have hone : t.symbols = [.token .kwFinal] ∨ t.symbols = [.phrase .annotationUse] := by
      generalize t.symbols = w at hmem
      revert w
      decide
    rcases hone with hone | hone
    · obtain ⟨c, hc, hs⟩ := List.map_eq_singleton_iff.mp hone
      obtain ⟨tk, rfl, hproper, hk⟩ :=
        (h.derived.of_mem (hc ▸ List.mem_singleton_self c)).of_token hs
      rw [text_of_children hc]
      exact .inr (.inl (hproper.2 "final" (by rw [hk]; rfl)))
    · obtain ⟨c, hc, hs⟩ := List.map_eq_singleton_iff.mp hone
      have hmark := (h.part (hc ▸ List.mem_singleton_self c)).mark_annotationUse (of_eq_phrase.mp hs)
      rw [mark, ← text_of_child hc, ← mark] at hmark
      exact .inl hmark
  · exact .inl (h.mark_annotationUse (of_eq_phrase.mp hs))
  · obtain ⟨tk, rfl, hproper, hk⟩ := h.derived.of_token hs
    rw [Tree.text]
    exact .inr (.inr (hproper.2 "..." (by rw [hk]; rfl)))

/-- What can stand in a parameter besides its name reads otherwise than the name. -/
theorem declarator_ne (h : p.ReadFrom text) (hr : p.rule? = some .variableDeclaratorId)
    (hq : q.ReadFrom text) (haside : isAside (Symbol.of q) = true) : q.text ≠ p.text := by
  intro heq
  have hmark : q.mark = p.mark := by rw [mark, heq, ← mark]
  have hsigns : q.mark = some '@' ∨ q.mark = none := by
    rcases hq.aside haside with hat | htext | htext
    · exact .inl hat
    · exact .inr (by rw [mark, htext]; decide)
    · exact .inr (by rw [mark, htext]; decide)
  rcases h.declarator hr with hbracket | ⟨tk, hvisible, htext, hproper, hkind, hisWord⟩
  · rw [hmark, hbracket] at hsigns
    revert hsigns
    decide
  · have hnone := hmark.trans (mark_of_isWord (htext ▸ hisWord))
    rcases hq.aside haside with hat | hfinal | hdots
    · rw [hnone] at hat
      cases hat
    · -- Neither an identifier nor a word that can be one is spelled so.
      have hspelled : tk.text = "final" := by rw [← htext, ← heq, hfinal]
      rcases spelling_ne_final _ hkind with hk | ⟨hsome, hne⟩
      · exact Lexed.spelling_ne_of_identifier hvisible hk .kwFinal (by rw [hspelled]; rfl)
      · obtain ⟨s, hs⟩ := Option.ne_none_iff_exists'.mp hsome
        exact hne (by rw [hs, ← hproper.2 s hs, hspelled])
    · rw [← htext, ← heq, hdots] at hisWord
      cases hisWord

end ReadFrom

/-- A parameter has its type, its name at the end, and something aside before each of them. -/
theorem Derived.symbols_parameter (h : t.Derived Java.body)
    (hs : isParameter (Symbol.of t) = true) :
    ∃ before between, t.symbols =
        before ++ .phrase .typeType :: (between ++ [.phrase .variableDeclaratorId]) ∧
      ∀ s ∈ before ++ between, isAside s = true := by
  simp only [isParameter, Bool.or_eq_true, beq_iff_eq] at hs
  rcases hs with hs | hs
  · have hspells := h.spells (of_eq_phrase.mp hs) rfl
    simp only [Java.body, Item.spellsAll_cons, Item.spellsAll_nil] at hspells
    obtain ⟨before, _, hw, hbefore, _, _, rfl, htype, _, _, rfl, hname, rfl⟩ := hspells
    simp only [Item.ref, Item.Spells] at htype hname
    refine ⟨before, [], by simpa [htype, hname] using hw, ?_⟩
    rw [List.append_nil]
    exact Item.forall_of_spells hbefore rfl
  · have hspells := h.spells (of_eq_phrase.mp hs) rfl
    simp only [Java.body, Item.spellsAll_cons, Item.spellsAll_nil] at hspells
    obtain ⟨before, _, hw, hbefore, _, _, rfl, htype, annotations, _, rfl, hannotations, dots, _, rfl,
      hdots, _, _, rfl, hname, rfl⟩ := hspells
    simp only [Item.ref, Item.Spells] at htype hname
    refine ⟨before, annotations ++ dots, by simpa [htype, hname] using hw, ?_⟩
    simp only [List.forall_mem_append]
    exact ⟨Item.forall_of_spells hbefore rfl, Item.forall_of_spells hannotations rfl,
      Item.forall_of_spells hdots rfl⟩

/-- What stands aside is neither a type nor a name. -/
theorem isAside_ne {s : Symbol} (h : isAside s = true) :
    s ≠ .phrase .typeType ∧ s ≠ .phrase .variableDeclaratorId := by
  simp only [isAside, Bool.or_eq_true, beq_iff_eq] at h
  rcases h with (rfl | rfl) | rfl <;> decide

/-- The parts of a parameter in order. -/
structure ParameterParts (t : Tree) (before : List Tree) (type : Tree) (between : List Tree)
    (name : Tree) : Prop where
  children : t.children = before ++ type :: (between ++ [name])
  asides : ∀ c ∈ before ++ between, isAside (Symbol.of c) = true
  typed : Symbol.of type = .phrase .typeType
  named : Symbol.of name = .phrase .variableDeclaratorId

theorem Derived.parts_parameter (h : t.Derived Java.body)
    (hs : isParameter (Symbol.of t) = true) :
    ∃ before type between name, ParameterParts t before type between name := by
  obtain ⟨_, _, hw, haside⟩ := h.symbols_parameter hs
  obtain ⟨before, _, hchildren, rfl, hrest⟩ := List.map_eq_append_iff.mp hw
  obtain ⟨type, _, rfl, htype, hrest⟩ := List.map_eq_cons_iff.mp hrest
  obtain ⟨between, _, rfl, rfl, hlast⟩ := List.map_eq_append_iff.mp hrest
  obtain ⟨name, rfl, hname⟩ := List.map_eq_singleton_iff.mp hlast
  rw [← List.map_append, List.forall_mem_map] at haside
  exact ⟨before, type, between, name, hchildren, haside, htype, hname⟩

namespace ParameterParts

variable {before between : List Tree} {type name : Tree}

theorem written (h : ParameterParts t before type between name) :
    t.writtenParameter = { name := name.text, type := type.text } := by
  have htype : t.textOf (· == .phrase .typeType) = type.text := by
    refine textOf_append h.children (fun c hc => ?_) (by rw [h.typed]; rfl)
    simpa using (isAside_ne (h.asides c (List.mem_append_left _ hc))).1
  have hname : t.textOf (· == .phrase .variableDeclaratorId) = name.text := by
    have hends : t.children = (before ++ type :: between) ++ name :: [] := by
      simpa using h.children
    refine textOf_append hends (fun c hc => ?_) (by rw [h.named]; rfl)
    rcases List.mem_append.mp hc with hc | hc
    · simpa using (isAside_ne (h.asides c (List.mem_append_left _ hc))).2
    · rcases List.mem_cons.mp hc with rfl | hc
      · rw [h.typed]
        rfl
      · simpa using (isAside_ne (h.asides c (List.mem_append_right _ hc))).2
  rw [writtenParameter, htype, hname]

/-- Nothing aside reads like the name. -/
theorem aside_ne (h : ParameterParts t before type between name) (hread : t.ReadFrom text)
    (hp : p ∈ before ++ between) : p.text ≠ name.text := by
  have hmem : p ∈ t.children := by
    rw [h.children]
    rcases List.mem_append.mp hp with hp | hp <;> simp [hp]
  have hname : name ∈ t.children := by simp [h.children]
  exact (hread.part hname).declarator_ne (of_eq_phrase.mp h.named) (hread.part hmem) (h.asides p hp)

theorem plain_iff (h : ParameterParts t before type between name) :
    t.isPlainParameter = true ↔ before = [] ∧ between = [] := by
  rw [isPlainParameter, beq_iff_eq, symbols, h.children]
  cases before with
  | nil =>
    cases between with
    | nil => simp [h.typed, h.named]
    | cons c cs => simp
  | cons c cs =>
    have hne := (isAside_ne (h.asides c (by simp))).1
    simp [hne]

end ParameterParts

/-- A parameter is read as it is written just if nothing stands aside in it. -/
theorem ReadFrom.parameter_iff (h : t.ReadFrom text) (hs : isParameter (Symbol.of t) = true) :
    ({ name := t.partText 1, type := t.partText 0 } : Param) = t.writtenParameter ↔
      t.isPlainParameter = true := by
  obtain ⟨before, type, between, name, hparts⟩ := h.derived.parts_parameter hs
  have hchildren := hparts.children
  rw [hparts.plain_iff, hparts.written, Param.mk.injEq]
  cases before with
  | nil =>
    rw [List.nil_append] at hchildren
    have htype : t.partText 0 = type.text := partText_of_child (by rw [hchildren]; rfl)
    cases between with
    | nil =>
      have hname : t.partText 1 = name.text := partText_of_child (by rw [hchildren]; rfl)
      simp [htype, hname]
    | cons c cs =>
      have hname : t.partText 1 = c.text := partText_of_child (by rw [hchildren]; rfl)
      have hne : c.text ≠ name.text := hparts.aside_ne h (by simp)
      simp [hname, hne]
  | cons c cs =>
    have htype : t.partText 0 = c.text := partText_of_child (by rw [hchildren]; rfl)
    have hne : c.text ≠ name.text := hparts.aside_ne h (by simp)
    cases cs with
    | nil =>
      have hname : t.partText 1 = type.text := partText_of_child (by rw [hchildren]; rfl)
      rw [htype, hname]
      -- The type would be the name, and what is aside the type.
      have hno : ¬ (type.text = name.text ∧ c.text = type.text) :=
        fun heq => hne (heq.2.trans heq.1)
      simp [hno]
    | cons d ds =>
      have hname : t.partText 1 = d.text := partText_of_child (by rw [hchildren]; rfl)
      have hne' : d.text ≠ name.text := hparts.aside_ne h (by simp)
      simp [hname, hne']

/-! ## Lists of parameters -/

theorem Derived.symbols_brackets (h : t.Derived Java.body)
    (hr : t.rule? = some .formalParameters) :
    t.symbols = [.token .lparen, .token .rparen] ∨
    t.symbols = [.token .lparen, .phrase .formalParameterList, .token .rparen] ∨
    t.symbols = [.token .lparen, .phrase .receiverParameter, .token .rparen] ∨
    t.symbols = [.token .lparen, .phrase .receiverParameter, .token .comma,
      .phrase .formalParameterList, .token .rparen] := by
  have hmem := h.mem_words hr rfl rfl
  generalize t.symbols = w at hmem
  revert w
  decide

section Brackets

variable {b : Tree}

theorem parameters_of_three {x list y : Tree} (hb : t.children[2]? = some b)
    (hc : b.children = [x, list, y]) : t.parameters =
      (everyOther list.children).map fun p => { name := p.partText 1, type := p.partText 0 } := by
  rw [parameters, hb, Option.map_some, hc]

theorem parameterPhrases_of_list (hb : t.brackets? = some b) {list : Tree}
    (hlist : b.part? (· == .phrase .formalParameterList) = some list) :
    t.parameterPhrases = list.partsOf isParameter := by
  rw [parameterPhrases, hb, Option.bind_some, hlist, Option.map_some, Option.getD_some]

theorem parameterPhrases_of_none (hb : t.brackets? = some b)
    (hnone : b.part? (· == .phrase .formalParameterList) = none) : t.parameterPhrases = [] := by
  rw [parameterPhrases, hb, Option.bind_some, hnone, Option.map_none, Option.getD_none]

theorem receives_eq (hb : t.brackets? = some b) :
    t.receives = b.has (.phrase .receiverParameter) := by
  rw [receives, hb, Option.any_some]

/-- A method without a receiver has each of its parameters read. -/
theorem parameters_iff_of_list (hb : t.children[2]? = some b) (hbrackets : t.brackets? = some b)
    (hread : b.ReadFrom text)
    (hw : b.symbols = [.token .lparen, .phrase .formalParameterList, .token .rparen]) :
    t.parameters = t.writtenParameters ↔ t.plainParameters = true := by
  have hreceives : t.receives = false := by
    rw [receives_eq hbrackets, has, hw]
    decide
  simp only [symbols, List.map_eq_cons_iff, List.map_eq_nil_iff] at hw
  obtain ⟨x, _, hc, hx, list, _, rfl, hlist, y, _, rfl, hy, rfl⟩ := hw
  have hreadList := hread.part (p := list) (by simp [hc])
  have halternate := alternates_parameters hreadList.derived (of_eq_phrase.mp hlist)
  have hpart : b.part? (· == .phrase .formalParameterList) = some list := by
    simp [part?, hc, hx, hlist]
  have hphrases := parameterPhrases_of_list hbrackets hpart
  rw [parameters_of_three hb hc, everyOther_children halternate, writtenParameters, plainParameters,
    hphrases, hreceives, List.map_inj_left, Bool.not_false, Bool.true_and, List.all_eq_true]
  refine forall₂_congr fun q hq => ?_
  obtain ⟨hmem, hparameter⟩ := List.mem_filter.mp hq
  exact (hreadList.part hmem).parameter_iff hparameter

/-- A receiver alone is taken for a list of parameters, which is never empty. -/
theorem parameters_ne_of_receiver (hb : t.children[2]? = some b) (hbrackets : t.brackets? = some b)
    (hread : b.ReadFrom text)
    (hw : b.symbols = [.token .lparen, .phrase .receiverParameter, .token .rparen]) :
    t.parameters ≠ t.writtenParameters := by
  simp only [symbols, List.map_eq_cons_iff, List.map_eq_nil_iff] at hw
  obtain ⟨x, _, hc, hx, receiver, _, rfl, hreceiver, y, _, rfl, hy, rfl⟩ := hw
  have hphrases := parameterPhrases_of_none hbrackets (by simp [part?, hc, hx, hreceiver, hy])
  have hreadReceiver := hread.part (p := receiver) (by simp [hc])
  have hlength := hreadReceiver.derived.le_length (of_eq_phrase.mp hreceiver) rfl
  rw [parameters_of_three hb hc, writtenParameters, hphrases, List.map_nil, Ne, List.map_eq_nil_iff]
  cases hparts : receiver.children with
  | nil =>
    rw [hparts] at hlength
    revert hlength
    decide
  | cons part parts => cases parts <;> simp [everyOther]

/-- A receiver before a list of parameters hides the list, which is never empty. -/
theorem parameters_ne_of_both (hb : t.children[2]? = some b) (hbrackets : t.brackets? = some b)
    (hread : b.ReadFrom text)
    (hw : b.symbols = [.token .lparen, .phrase .receiverParameter, .token .comma,
      .phrase .formalParameterList, .token .rparen]) :
    t.parameters ≠ t.writtenParameters := by
  simp only [symbols, List.map_eq_cons_iff, List.map_eq_nil_iff] at hw
  obtain ⟨x, _, hc, hx, receiver, _, rfl, hreceiver, comma, _, rfl, hcomma, list, _, rfl, hlist, y, _,
    rfl, hy, rfl⟩ := hw
  have hpart : b.part? (· == .phrase .formalParameterList) = some list := by
    simp [part?, hc, hx, hreceiver, hcomma, hlist]
  have hphrases := parameterPhrases_of_list hbrackets hpart
  have hreadList := hread.part (p := list) (by simp [hc])
  obtain ⟨q, hq, hparameter⟩ := hreadList.derived.exists_child (of_eq_phrase.mp hlist) rfl
    (p := isParameter) (by decide)
  have hmem : q ∈ list.partsOf isParameter := List.mem_filter.mpr ⟨hq, hparameter⟩
  have hparameters : t.parameters = [] := by rw [parameters, hb, Option.map_some, hc]
  rw [hparameters, writtenParameters, hphrases]
  intro heq
  rw [List.map_eq_nil_iff.mp heq.symm] at hmem
  cases hmem

end Brackets

/-- The parameters of a method are read as they are written just if all are plain. -/
theorem ReadFrom.parameters_iff (h : t.ReadFrom text) (hr : t.rule? = some .methodDeclaration) :
    t.parameters = t.writtenParameters ↔ t.plainParameters = true := by
  obtain ⟨more, hsymbols⟩ := h.derived.symbols_method hr
  obtain ⟨b, hb, hderived, hbr⟩ :=
    h.derived.child (i := 2) (r := .formalParameters) (by rw [hsymbols]; rfl)
  have hbrackets : t.brackets? = some b := by
    rw [brackets?, part?_eq_getElem?, hsymbols]
    exact hb
  have hread := h.part (List.mem_of_getElem? hb)
  have hreceiver : t.receives = true → t.parameters ≠ t.writtenParameters →
      (t.parameters = t.writtenParameters ↔ t.plainParameters = true) := by
    intro hreceives hne
    simp [plainParameters, hreceives, hne]
  rcases hderived.symbols_brackets hbr with hw | hw | hw | hw
  · have hreceives : t.receives = false := by
      rw [receives_eq hbrackets, has, hw]
      decide
    simp only [symbols, List.map_eq_cons_iff, List.map_eq_nil_iff] at hw
    obtain ⟨x, _, hc, hx, y, _, rfl, hy, rfl⟩ := hw
    have hparameters : t.parameters = [] := by rw [parameters, hb, Option.map_some, hc]
    have hphrases := parameterPhrases_of_none hbrackets (by simp [part?, hc, hx, hy])
    simp [writtenParameters, plainParameters, hparameters, hphrases, hreceives]
  · exact parameters_iff_of_list hb hbrackets hread hw
  · refine hreceiver ?_ (parameters_ne_of_receiver hb hbrackets hread hw)
    rw [receives_eq hbrackets, has, hw]
    decide
  · refine hreceiver ?_ (parameters_ne_of_both hb hbrackets hread hw)
    rw [receives_eq hbrackets, has, hw]
    decide

end Tree

namespace Collector

variable {text : String} {t : Tree} {around : List Tree} {c : Collector} {stack : List Nat}

/-- If the innermost open class does not know a method of the name, the method is stored in the class
that has the name of that class now, with the parameters that are written just if they are plain. -/
def RecordsParameters (t : Tree) (c c' : Collector) : Prop :=
  ∀ j, c.innermost = .ok j → (c.entry j).methods.has (t.partText 1) = false →
    ∃ e m, c'.outline.classes.get? (c.entry j).name = some e ∧
      e.methods.get? (t.partText 1) = some m ∧
      (m.parameters = t.writtenParameters ↔ t.plainParameters = true)

theorem recordsParameters_visit (hcoherent : Coherent c stack) (h : t.ReadFrom text)
    (hr : t.rule? = some .methodDeclaration)
    (hok : (visit (.enter t around) c).1.result = .ok ()) :
    RecordsParameters t c (visit (.enter t around) c).2 := by
  intro j hj hnew
  have ho := outcome_of_result hok
  simp only [outcome, hr] at ho
  obtain ⟨name, j', hname, hj', hcases⟩ := methodOutcome_ok ho
  obtain rfl : j = j' := Except.ok.inj (hj.symm.trans hj')
  rw [Tree.partText_of_childText hname] at hnew ⊢
  rcases hcases with ⟨hknown, _⟩ | ⟨_, m, i, hm, hi, hafter⟩
  · rw [hnew] at hknown
    cases hknown
  · have hget := get?_of_classNamed hi
    have hlt := (hcoherent.named _ i (Table.mem_of_get? hget)).1
    have hentry : (c.inMethod i name m).entry i =
        { c.entry i with methods := (c.entry i).methods.put name m } := by
      have honClass := entry_onClass c i i fun e => { e with methods := e.methods.put name m }
      rw [if_pos ⟨rfl, hlt⟩] at honClass
      exact honClass
    have hclasses : (c.inMethod i name m).classes = c.classes := rfl
    refine ⟨(c.inMethod i name m).entry i, m, ?_, ?_, ?_⟩
    · rw [hafter, get?_outline, hclasses, hget, Option.map_some]
    · rw [hentry, Table.get?_put, if_pos rfl]
    · rw [signature_of_methodPart hname hm]
      exact h.parameters_iff hr

/-- At every point of every session, the parameters of a method that a visit stores are recorded as they
are written just if they are plain. -/
theorem parameters_recorded_iff (walks : List (Tree × Nat)) :
    let c := afterWalks {} walks
    (∀ text t around, t.ReadFrom text → t.rule? = some .methodDeclaration →
      (visit (.enter t around) c).1.result = .ok () →
      RecordsParameters t c (visit (.enter t around) c).2) ∧
    ∀ text rule level p, Parse.ofText? text rule level = some p → p.reports = [] →
      ∀ t around, .enter t around ∈ p.tree.walk → t.rule? = some .methodDeclaration →
        (visit (.enter t around) c).1.result = .ok () →
        RecordsParameters t c (visit (.enter t around) c).2 := by
  intro c
  obtain ⟨stack, hcoherent⟩ : ∃ stack, Coherent c stack := coherent_afterWalks coherent_fresh walks
  refine ⟨fun _ _ _ h hr hok => recordsParameters_visit hcoherent h hr hok, ?_⟩
  intro text rule level p h hclean t around hmem hr hok
  have hread := of_enter_mem_visits (fun hp => hp.part) p.tree
    (Parse.readFrom_of_reports_nil h hclean) hmem
  exact recordsParameters_visit hcoherent hread hr hok

open Callscope.Tree in
/-- A method of one parameter with some modifiers. -/
def modified (modifiers : List Tree) : Tree :=
  lined (methodOf "m" [phrase .formalParameterList [phrase .formalParameter (modifiers ++
    [phrase .typeType [phrase .primitiveType [word .kwInt "int"]],
      phrase .variableDeclaratorId [named "x"]])]] [])

/-- The walk into a class that has no methods. -/
def intoClass : List (Tree × Nat) := [(Tree.unitOf [Tree.classOf "A" []], 3)]

/-- A parameter without modifiers is recorded as it is written. -/
theorem parameters_recorded_iff_plain :
    (modified []).ReadFrom "void m ( int x ) \x7b \x7d" ∧
    ∃ e m, (visit (.enter (modified []) []) (afterWalks {} intoClass)).2.outline.classes.get? "A" =
        some e ∧
      e.methods.get? "m" = some m ∧ m.parameters = [{ name := "x", type := "int" }] := by
  have hread : (modified []).ReadFrom "void m ( int x ) \x7b \x7d" :=
    Tree.readFrom_of_visible (.atEnd ⟨20, 1, 20⟩ 15) (by decide +kernel) (by decide +kernel)
      (by decide +kernel)
  obtain ⟨e, m, he, hm, hiff⟩ := (parameters_recorded_iff intoClass).1 _ (modified []) [] hread
    (by decide +kernel) (by decide +kernel) 0 (by decide +kernel) (by decide +kernel)
  have hwritten : (modified []).writtenParameters = [{ name := "x", type := "int" }] := by
    decide +kernel
  exact ⟨hread, e, m, he, hm, (hiff.mpr (by decide +kernel)).trans hwritten⟩

open Callscope.Tree in
/-- A modifier is recorded as the type of a parameter, and the type as its name. -/
theorem modifier_recorded_as_type :
    let t := modified [phrase .variableModifier [word .kwFinal "final"]]
    t.ReadFrom "void m ( final int x ) \x7b \x7d" ∧
    (visit (.enter t []) (afterWalks {} intoClass)).1.result = .ok () ∧
    (visit (.enter t []) (afterWalks {} intoClass)).2.outline.classes.map (fun x =>
      x.2.methods.map fun y => y.2.parameters) = [[[{ name := "int", type := "final" }]]] ∧
    t.writtenParameters = [{ name := "x", type := "int" }] := by
  intro t
  refine ⟨?_, by decide +kernel, by decide +kernel, by decide +kernel⟩
  exact readFrom_of_visible (.atEnd ⟨26, 1, 26⟩ 17) (by decide +kernel) (by decide +kernel)
    (by decide +kernel)

end Collector

end Callscope
