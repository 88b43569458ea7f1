import Callscope.Proofs.Outline.Survey
import Callscope.Proofs.Parse.Shapes

/-!
# Parts of derived declarations

Where the parts of a declaration stand in a tree that follows the grammar, so that looking for them by
position finds them. A class is found to have no name exactly if its head is in a form that is not
foreseen.
-/

namespace Callscope

/-- A class or an enumeration that has parts which nobody looks for, so that its children cannot be told
by their number: a class with type parameters or with all three lists of types, an enumeration unless it
has one or three children besides its name, the keyword and the braces. -/
def Tree.headless (t : Tree) : Bool :=
  match t.rule? with
  | some .classDeclaration => t.has (.phrase .typeParameters) ||
    (t.has (.token .kwExtends) && t.has (.token .kwImplements) && t.has (.token .kwPermits))
  | some .enumDeclaration =>
    let parts := (t.has (.phrase .enumConstants)).toNat + (t.has (.token .comma)).toNat +
      (t.has (.phrase .enumBodyDeclarations)).toNat + 2 * (t.has (.token .kwImplements)).toNat
    !(parts == 1 || parts == 3)
  | _ => false

namespace Collector

variable {c : Collector} {t part : Tree} {around : List Tree}

/-! ## Children -/

theorem child_of_getElem? {i : Nat} (h : t.children[i]? = some part) : child t i = .ok part := by
  cases t with
  | token | skipped | missing => cases h
  | node r first last labels children =>
    cases children with
    | nil => cases h
    | cons x xs =>
      rw [Tree.children] at h
      simp only [child, child?, Tree.children, h, Noted.ok_bind, Noted.pure_eq_ok]

theorem childText_of_getElem? {i : Nat} (h : t.children[i]? = some part) :
    childText t i = .ok part.text := by
  rw [childText, child_of_getElem? h]
  rfl

theorem partText_of_child {i : Nat} (h : t.children[i]? = some part) :
    t.partText i = part.text :=
  Tree.partText_of_childText (childText_of_getElem? h)

theorem childText_of_lt {i : Nat} (h : i < t.children.length) : ∃ text, childText t i = .ok text :=
  ⟨_, childText_of_getElem? (List.getElem?_eq_getElem h)⟩

theorem childText_of_symbol {i : Nat} {s : Symbol} (h : t.symbols[i]? = some s) :
    ∃ text, childText t i = .ok text := by
  obtain ⟨part, hpart, _⟩ := Tree.child_of_symbol h
  exact ⟨_, childText_of_getElem? hpart⟩

theorem phraseText_of_has {r : Rule} (h : t.has (.phrase r) = true) :
    ∃ text, phraseText r t = .ok text := by
  obtain ⟨part, hmem, hr⟩ := Tree.has_iff.mp h
  have hfound : (t.children.find? fun c => c.rule? = some r).isSome = true := by
    rw [List.find?_isSome]
    exact ⟨part, hmem, by simpa using Tree.of_eq_phrase.mp hr⟩
  obtain ⟨found, hfind⟩ := Option.isSome_iff_exists.mp hfound
  exact ⟨found.text, by rw [phraseText, hfind]⟩

/-! ## Class heads -/

/-- Children by whose number a class head is read. -/
def Headed (w : List Symbol) : Prop :=
  w.length = 3 ∨
  w.length = 5 ∧ (w[2]? = some (Symbol.token .lbrace) ∨ w[2]? = some (Symbol.token .kwPermits) ∨
    w[2]? = some (Symbol.token .kwExtends) ∧ w[3]? = some (Symbol.phrase .typeType) ∨
    w[2]? = some (Symbol.token .kwImplements)) ∨
  w.length = 7 ∧ (w[3]? = some (Symbol.phrase .typeType) ∨ w[3]? = some (Symbol.phrase .typeList) ∨
    w[3]? = some (Symbol.phrase .enumConstants))

instance (w : List Symbol) : Decidable (Headed w) := instDecidableOr

/-- The name is the second child, and the others are as expected unless the class is headless. -/
theorem symbols_class (h : t.Derived Java.body) (hd : t.declaresClass = true) :
    t.symbols[1]? = some (Symbol.phrase .identifier) ∧
      (t.headless = true → t.symbols.length ∉ [2, 3, 5, 7]) ∧
      (t.headless = false → Headed t.symbols) := by
  rcases Tree.declaresClass_iff.mp hd with hr | hr
  · have hmem := h.mem_words hr rfl rfl
    simp only [Tree.headless, hr, Tree.has]
    generalize t.symbols = w at hmem
    revert w
    decide
  · have hmem := h.mem_words hr rfl rfl
    simp only [Tree.headless, hr, Tree.has]
    generalize t.symbols = w at hmem
    revert w
    decide

/-- The name of a class. -/
theorem name_class (h : t.Derived Java.body) (hd : t.declaresClass = true) :
    childText t 1 = .ok (t.partText 1) ∧ t.partText 1 ≠ "" := by
  obtain ⟨part, hpart, hderived, hr⟩ := h.child (symbols_class h hd).1
  rw [partText_of_child hpart]
  exact ⟨childText_of_getElem? hpart, hderived.text_identifier hr⟩

theorem length_symbols (t : Tree) : t.symbols.length = t.children.length := by
  simp [Tree.symbols]

/-- A type, a list of types and a list of constants all begin with something. -/
theorem child_first (h : t.Derived Java.body) {i : Nat} {r : Rule}
    (hs : t.symbols[i]? = some (Symbol.phrase r)) (ht : Item.trailing (Java.body r) = [])
    (hleast : 0 < Item.leastAll (fun _ => true) (Java.body r)) :
    ∃ part first, t.children[i]? = some part ∧ part.children[0]? = some first := by
  obtain ⟨part, hpart, hderived, hr⟩ := h.child hs
  have hlt := Nat.lt_of_lt_of_le hleast (hderived.le_length hr ht)
  exact ⟨part, part.children[0], hpart, List.getElem?_eq_getElem hlt⟩

/-- A class without a foreseen head has no name. -/
theorem classHead_headless (h : t.Derived Java.body) (hd : t.declaresClass = true)
    (hh : t.headless = true) : (c.classHead t).result = .error .noClassName := by
  have hlength := (symbols_class h hd).2.1 hh
  rw [length_symbols] at hlength
  simp only [List.mem_cons, List.not_mem_nil, or_false, not_or] at hlength
  rw [result_classHead, (name_class h hd).1, Noted.ok_bind]
  have hparts : (c.headParts t (t.partText 1)).result = .ok { name := "" } := by
    unfold headParts
    split
    · omega
    · omega
    · omega
    · omega
    · rfl
  rw [hparts]
  rfl

theorem result_implementsPart (c : Collector) (t : Tree) :
    (c.implementsPart t).result = .ok ((everyOther t.children).map Tree.text) := by
  simp [implementsPart, stage]

/-- A child that is a token of one spelling. -/
theorem childText_token (h : t.Derived Java.body) {i : Nat} {k : Kind} {word : String}
    (hs : t.symbols[i]? = some (Symbol.token k)) (hk : k.spelling? = some word) :
    childText t i = .ok word := by
  obtain ⟨part, hpart, hs⟩ := Tree.child_of_symbol hs
  obtain ⟨tk, rfl, hproper, hkind⟩ := (h.of_mem (List.mem_of_getElem? hpart)).of_token hs
  rw [childText_of_getElem? hpart, Tree.text, hproper.2 word (by rw [hkind]; exact hk)]

/-- What is read off the children of a class whose head is foreseen. -/
inductive Reads (t : Tree) : ClassHead → Prop
  | bare (told : t.symbols.length = 3 ∨ t.symbols.length = 5 ∧
      (t.symbols[2]? = some (Symbol.token .lbrace) ∨ t.symbols[2]? = some (Symbol.token .kwPermits))) :
      Reads t { name := t.partText 1 }
  | extending {type first : Tree} (told : t.symbols.length = 5)
      (word : t.symbols[2]? = some (Symbol.token .kwExtends)) (next : t.children[3]? = some type)
      (begins : type.children[0]? = some first) :
      Reads t { name := t.partText 1, extends_ := first.text }
  | implementing {list : Tree} (told : t.symbols.length = 5)
      (word : t.symbols[2]? = some (Symbol.token .kwImplements)) (next : t.children[3]? = some list) :
      Reads t { name := t.partText 1, implements := some ((everyOther list.children).map Tree.text) }
  | both {part first list : Tree} (told : t.symbols.length = 7) (next : t.children[3]? = some part)
      (begins : part.children[0]? = some first) (later : t.children[5]? = some list) :
      Reads t { name := t.partText 1, extends_ := first.text,
                implements := some ((everyOther list.children).map Tree.text) }

theorem Reads.name {head : ClassHead} (h : Reads t head) : head.name = t.partText 1 := by
  cases h <;> rfl

/-- Two lists of types, or whatever stands in their places in an enumeration. -/
theorem headParts_seven (h : t.Derived Java.body) (hlength : t.symbols.length = 7)
    (hthird : t.symbols[3]? = some (Symbol.phrase .typeType) ∨
      t.symbols[3]? = some (Symbol.phrase .typeList) ∨
      t.symbols[3]? = some (Symbol.phrase .enumConstants)) :
    ∃ head, (c.headParts t (t.partText 1)).result = .ok head ∧ Reads t head := by
  have hfirst : ∃ part first, t.children[3]? = some part ∧ part.children[0]? = some first := by
    rcases hthird with hs | hs | hs
    · exact child_first h hs rfl (by decide)
    · exact child_first h hs rfl (by decide)
    · exact child_first h hs rfl (by decide)
  obtain ⟨part, first, hpart, hfirst⟩ := hfirst
  obtain ⟨list, hlist⟩ : ∃ list, t.children[5]? = some list :=
    ⟨_, List.getElem?_eq_getElem (by rw [← length_symbols]; omega)⟩
  refine ⟨_, ?_, .both hlength hpart hfirst hlist⟩
  unfold headParts
  rw [← length_symbols, hlength]
  simp only [Noted.result_bind, Noted.result_lift, child_of_getElem? hpart,
    childText_of_getElem? hfirst, child_of_getElem? hlist, Noted.ok_bind, result_implementsPart,
    Noted.result_pure]

/-- One list of types, or what is in the braces of an enumeration. -/
theorem headParts_five (h : t.Derived Java.body) (hlength : t.symbols.length = 5)
    (hthird : t.symbols[2]? = some (Symbol.token .lbrace) ∨
      t.symbols[2]? = some (Symbol.token .kwPermits) ∨
      t.symbols[2]? = some (Symbol.token .kwExtends) ∧ t.symbols[3]? = some (Symbol.phrase .typeType) ∨
      t.symbols[2]? = some (Symbol.token .kwImplements)) :
    ∃ head, (c.headParts t (t.partText 1)).result = .ok head ∧ Reads t head := by
  unfold headParts
  rw [← length_symbols, hlength]
  simp only [Noted.result_bind, Noted.result_lift]
  rcases hthird with hword | hword | ⟨hword, htype⟩ | hword
  · rw [childText_token h hword rfl]
    exact ⟨_, rfl, .bare (.inr ⟨hlength, .inl hword⟩)⟩
  · rw [childText_token h hword rfl]
    exact ⟨_, rfl, .bare (.inr ⟨hlength, .inr hword⟩)⟩
  · obtain ⟨type, first, hpart, hfirst⟩ := child_first h htype rfl (by decide)
    refine ⟨_, ?_, .extending hlength hword hpart hfirst⟩
    simp only [childText_token h hword rfl, Noted.ok_bind, Noted.result_bind, Noted.result_lift,
      child_of_getElem? hpart, childText_of_getElem? hfirst, Noted.result_pure]
  · obtain ⟨list, hlist⟩ : ∃ list, t.children[3]? = some list :=
      ⟨_, List.getElem?_eq_getElem (by rw [← length_symbols]; omega)⟩
    refine ⟨_, ?_, .implementing hlength hword hlist⟩
    simp only [childText_token h hword rfl, Noted.ok_bind, Noted.result_bind, Noted.result_lift,
      child_of_getElem? hlist, result_implementsPart, Noted.result_pure]

/-- The head of a class is read off its children unless the class is headless. -/
theorem classHead_reads (h : t.Derived Java.body) (hd : t.declaresClass = true)
    (hh : t.headless = false) :
    ∃ head, (c.classHead t).result = .ok head ∧ Reads t head := by
  have hparts : ∃ head, (c.headParts t (t.partText 1)).result = .ok head ∧ Reads t head := by
    rcases (symbols_class h hd).2.2 hh with hlength | ⟨hlength, hthird⟩ | ⟨hlength, hthird⟩
    · refine ⟨_, ?_, .bare (.inl hlength)⟩
      unfold headParts
      rw [← length_symbols, hlength]
      rfl
    · exact headParts_five h hlength hthird
    · exact headParts_seven h hlength hthird
  obtain ⟨hname, hne⟩ := name_class h hd
  obtain ⟨head, hhead, hreads⟩ := hparts
  refine ⟨head, ?_, hreads⟩
  rw [result_classHead, hname, Noted.ok_bind, hhead, Noted.ok_bind, if_neg (hreads.name ▸ hne)]
  rfl

/-- A class with a foreseen head goes by the text of its second child. -/
theorem classHead_headed (h : t.Derived Java.body) (hd : t.declaresClass = true)
    (hh : t.headless = false) :
    ∃ head, (c.classHead t).result = .ok head ∧ head.name = t.partText 1 := by
  obtain ⟨head, hhead, hreads⟩ := classHead_reads (c := c) h hd hh
  exact ⟨head, hhead, hreads.name⟩

/-- A phrase with two children is taken for a body of the innermost open class. -/
theorem classHead_two (hlength : t.children.length = 2) :
    (c.classHead t).result = (do
      let i ← c.innermost
      if (c.entry i).name = "" then .error .noClassName
      else return { name := (c.entry i).name }) := by
  obtain ⟨second, hsecond⟩ := childText_of_lt (t := t) (i := 1) (by omega)
  rw [result_classHead, hsecond, Noted.ok_bind]
  unfold headParts
  rw [hlength]
  simp only [Noted.result_bind, Noted.result_lift, Noted.result_pure]
  cases c.innermost with
  | error f => rfl
  | ok i => rfl

/-! ## Parameters and methods -/

/-- Members of a sort, with one of another sort between any two of them. -/
def alternates {α : Type} (p : α → Bool) : List α → Bool
  | [] => true
  | [a] => p a
  | a :: b :: as => p a && !p b && alternates p as

/-- Where two sorts alternate, the members at even positions are those of the first sort. -/
theorem everyOther_eq_filter {α : Type} {p : α → Bool} {l : List α}
    (h : alternates p l = true) : everyOther l = l.filter p := by
  fun_induction everyOther l with
  | case1 => rfl
  | case2 a =>
    have ha : p a = true := h
    rw [List.filter_cons_of_pos ha, List.filter_nil]
  | case3 a b as ih =>
    simp only [alternates, Bool.and_eq_true, Bool.not_eq_true'] at h
    obtain ⟨⟨ha, hb⟩, has⟩ := h
    rw [List.filter_cons_of_pos ha, List.filter_cons_of_neg (by simp [hb]), ih has]

theorem alternates_map {α β : Type} (f : α → β) (p : β → Bool) (l : List α) :
    alternates p (l.map f) = alternates (fun a => p (f a)) l := by
  fun_induction everyOther l with
  | case1 => rfl
  | case2 a => rfl
  | case3 a b as ih => simp only [List.map_cons, alternates, ih]

/-- A member, and then any number of pairs of a separator and a member. -/
theorem alternates_separated {α : Type} {p : α → Bool} {x : α} {ws : List (List α)}
    {tail : List α} (hx : p x = true)
    (hws : ∀ u ∈ ws, ∃ s y, u = [s, y] ∧ p s = false ∧ p y = true)
    (htail : tail = [] ∨ ∃ s y, tail = [s, y] ∧ p s = false ∧ p y = true) :
    alternates p (x :: (ws.flatten ++ tail)) = true := by
  induction ws generalizing x with
  | nil =>
    rcases htail with rfl | ⟨s, y, rfl, hs, hy⟩
    · simp [alternates, hx]
    · simp [alternates, hx, hs, hy]
  | cons u us ih =>
    obtain ⟨s, y, rfl, hs, hy⟩ := hws u List.mem_cons_self
    have hrest := ih hy fun v hv => hws v (List.mem_cons_of_mem _ hv)
    simpa [alternates, hx, hs] using hrest

/-- Children of a sort, with one of another sort between any two of them. -/
theorem everyOther_children {p : Symbol → Bool} (h : alternates p t.symbols = true) :
    everyOther t.children = t.partsOf p :=
  everyOther_eq_filter ((alternates_map Symbol.of p t.children).symm.trans h)

/-- A parameter of a method. -/
def isParameter (s : Symbol) : Bool :=
  s == .phrase .formalParameter || s == .phrase .lastFormalParameter

/-- Between the commas of a list of parameters there are parameters. -/
theorem alternates_parameters (h : t.Derived Java.body)
    (hr : t.rule? = some .formalParameterList) : alternates isParameter t.symbols = true := by
  have hspells := h.spells hr rfl
  simp only [Java.body, Item.ref, Item.tok, Item.many, Item.opt, Item.choice, Item.spellsAll_cons,
    Item.spellsAll_nil, Item.Spells, Item.SpellsOne] at hspells
  obtain ⟨w, _, hw, halt, rfl⟩ := hspells
  rw [hw, List.append_nil]
  rcases halt with ⟨_, _, rfl, rfl, _, _, rfl, ⟨ws, rfl, hws⟩, tail, _, rfl, htail, rfl⟩ |
    ⟨_, _, rfl, rfl, rfl⟩ | hfalse
  · rw [List.append_nil]
    refine alternates_separated rfl (fun u hu => ?_) ?_
    · obtain ⟨_, _, rfl, rfl, _, _, rfl, rfl, rfl⟩ := hws u hu
      exact ⟨_, _, rfl, rfl, rfl⟩
    · rcases htail with ⟨_, _, rfl, rfl, _, _, rfl, rfl, rfl⟩ | rfl | hfalse
      · exact .inr ⟨_, _, rfl, rfl, rfl⟩
      · exact .inl rfl
      · exact hfalse.elim
  · rfl
  · exact hfalse.elim

theorem mapM_ok {α β : Type} {f : α → Except Fault β} {l : List α}
    (h : ∀ a ∈ l, ∃ b, f a = .ok b) : ∃ bs, l.mapM f = .ok bs := by
  induction l with
  | nil => exact ⟨[], rfl⟩
  | cons a as ih =>
    obtain ⟨b, hb⟩ := h a List.mem_cons_self
    obtain ⟨bs, hbs⟩ := ih fun x hx => h x (List.mem_cons_of_mem _ hx)
    exact ⟨b :: bs, by rw [List.mapM_cons, hb, hbs]; rfl⟩

/-- Parameters without a receiver are found. -/
theorem parametersPart_ok (h : t.Derived Java.body) (hr : t.rule? = some .formalParameters)
    (hreceiver : t.has (.phrase .receiverParameter) = false) :
    ∃ parameters, (c.parametersPart t).result = .ok parameters := by
  simp only [parametersPart, stage, Noted.result_bind, Noted.result_note, Noted.ok_bind]
  split
  · rename_i first list last hchildren
    have hlist : list ∈ t.children := by simp [hchildren]
    have hrule : list.rule? = some .formalParameterList := by
      have hsecond := (h.symbols_parameters hr).2 hreceiver (by simp [Tree.symbols, hchildren])
      simpa [Tree.symbols, hchildren, Tree.of_eq_phrase] using hsecond
    rw [everyOther_children (alternates_parameters (h.of_mem hlist) hrule)]
    refine mapM_ok fun p hp => ?_
    obtain ⟨hmem, hparameter⟩ := List.mem_filter.mp hp
    have hp' := (h.of_mem hlist).of_mem hmem
    have hlength : 2 ≤ p.children.length := by
      rcases Bool.or_eq_true_iff.mp hparameter with hs | hs
      · exact hp'.le_length (Tree.of_eq_phrase.mp (eq_of_beq hs)) rfl
      · exact Nat.le_of_succ_le (hp'.le_length (Tree.of_eq_phrase.mp (eq_of_beq hs)) rfl)
    obtain ⟨type, htype⟩ := childText_of_lt (t := p) (i := 0) (by omega)
    obtain ⟨name, hname⟩ := childText_of_lt (t := p) (i := 1) (by omega)
    rw [htype, Noted.ok_bind, hname]
    exact ⟨_, rfl⟩
  · exact ⟨_, rfl⟩

/-- A method has taken a token before its end. -/
theorem lastToken_method (h : t.Derived Java.body) (hr : t.rule? = some .methodDeclaration) :
    ∃ last, lastToken? t = some last := by
  obtain ⟨more, hsymbols⟩ := h.symbols_method hr
  obtain ⟨brackets, hb, hderived, hbr⟩ :=
    h.child (i := 2) (r := .formalParameters) (by rw [hsymbols]; rfl)
  obtain ⟨paren, hp, hk⟩ := Tree.child_of_symbol (hderived.symbols_parameters hbr).1
  obtain ⟨tk, rfl, _, hkind⟩ := (hderived.of_mem (List.mem_of_getElem? hp)).of_token hk
  cases h with
  | token => cases hr
  | @node r first last labels children form parts ended =>
    cases last with
    | some last => exact ⟨last, rfl⟩
    | none =>
      -- Nothing but ends of the text would be below, and the bracket is none.
      have honly := ended rfl brackets (List.mem_of_getElem? hb)
      have hleaf : Tree.token tk ∈ brackets.leaves := by
        cases brackets with
        | token | skipped | missing => cases hbr
        | node =>
          rw [Tree.leaves, Tree.mem_leavesAll]
          exact ⟨_, List.mem_of_getElem? hp, by simp [Tree.leaves]⟩
      have heof := honly _ hleaf
      rw [Tree.kind?, hkind] at heof
      cases heof

/-- The parts of a method are found unless it has a receiver. -/
theorem methodPart_ok (h : t.Derived Java.body) (hr : t.rule? = some .methodDeclaration)
    (hreceiver : ∀ part ∈ t.children, part.has (.phrase .receiverParameter) = false)
    (name : String) : ∃ m, (c.methodPart t around name).result = .ok m := by
  obtain ⟨more, hsymbols⟩ := h.symbols_method hr
  obtain ⟨type, htype⟩ := childText_of_symbol (t := t) (i := 0) (by rw [hsymbols]; rfl)
  obtain ⟨last, hlast⟩ := lastToken_method h hr
  obtain ⟨brackets, hb, hderived, hbr⟩ :=
    h.child (i := 2) (r := .formalParameters) (by rw [hsymbols]; rfl)
  obtain ⟨parameters, hparameters⟩ := parametersPart_ok (c := c) hderived hbr
    (hreceiver brackets (List.mem_of_getElem? hb))
  simp only [methodPart, Noted.result_bind, Noted.result_lift, htype, Noted.ok_bind, hlast,
    child_of_getElem? hb, hparameters, Noted.result_pure]
  exact ⟨_, rfl⟩

end Collector

end Callscope
