import Callscope.Proofs.Outline.Grouping
import Callscope.Proofs.Outline.Parts
import Callscope.Proofs.Parse.Recognition

/-!
# When collecting fails

On a text without errors a walk fails at the first node that the collector cannot deal with, and only
there: a class or an enumeration whose head is in a form that is not foreseen, or a method, a field or a
call with no class around it. Left aside are receivers of methods and the fields of two kinds of body, of
records and of constants with arguments or annotations.
-/

namespace Callscope

/-- Whether a tree belongs to a class. -/
def Tree.isMember (t : Tree) : Bool :=
  t.rule? = some .methodDeclaration || t.rule? = some .fieldDeclaration ||
    t.rule? = some .methodCall

theorem Tree.isMember_iff {t : Tree} : t.isMember = true ↔
    t.rule? = some .methodDeclaration ∨ t.rule? = some .fieldDeclaration ∨
      t.rule? = some .methodCall := by
  simp [isMember, or_assoc]

theorem Tree.declaresClass_of_headless {t : Tree} (h : t.headless = true) :
    t.declaresClass = true := by
  unfold headless at h
  split at h
  · rename_i hr
    exact declaresClass_iff.mpr (.inl hr)
  · rename_i hr
    exact declaresClass_iff.mpr (.inr hr)
  · cases h

namespace Visit

/-- What is wrong with a node that is entered. -/
def offence : Visit → Option Fault
  | .enter t around =>
    if t.headless then some .noClassName
    else if t.isMember && !around.any Tree.declaresClass then some (.noOpenClass 0)
    else none
  | _ => none

theorem offence_enter_iff {t : Tree} {around : List Tree} {f : Fault} :
    (enter t around).offence = some f ↔
      t.headless = true ∧ .noClassName = f ∨
      t.headless = false ∧ t.isMember = true ∧ around.any Tree.declaresClass = false ∧
        .noOpenClass 0 = f := by
  simp only [offence]
  cases t.headless <;> cases t.isMember <;> cases around.any Tree.declaresClass <;> simp

theorem offence_eq_none_iff {t : Tree} {around : List Tree} :
    (enter t around).offence = none ↔
      t.headless = false ∧ (t.isMember = true → around.any Tree.declaresClass = true) := by
  simp only [offence]
  cases t.headless <;> cases t.isMember <;> cases around.any Tree.declaresClass <;> simp

/-- The nodes with an offence. -/
theorem offence_ne_none_iff {v : Visit} : v.offence ≠ none ↔ ∃ t around, v = enter t around ∧
    (t.headless = true ∨ t.isMember = true ∧ around.any Tree.declaresClass = false) := by
  cases v with
  | exit | leaf => simp [offence]
  | enter t around =>
    rw [ne_eq, offence_eq_none_iff]
    constructor
    · intro h
      refine ⟨t, around, rfl, ?_⟩
      cases hh : t.headless with
      | true => exact .inl rfl
      | false => simpa [hh] using h
    · rintro ⟨_, _, heq, h⟩ ⟨hh, hopen⟩
      cases heq
      obtain ⟨hmember, hany⟩ := h.resolve_left (by simp [hh])
      rw [hopen hmember] at hany
      cases hany

/-- The faults that offences come to. -/
theorem fault_of_offence {v : Visit} {f : Fault} (h : v.offence = some f) :
    f = .noClassName ∨ f = .noOpenClass 0 := by
  obtain ⟨t, around, rfl, _⟩ := offence_ne_none_iff.mp (Option.ne_none_iff_exists'.mpr ⟨f, h⟩)
  rcases offence_enter_iff.mp h with ⟨_, rfl⟩ | ⟨_, _, _, rfl⟩
  · exact .inl rfl
  · exact .inr rfl

/-- No receiver inside of a method, and no field that is a member of a record or of a constant with
arguments or annotations. -/
def foreseen : Visit → Bool
  | .enter t around =>
    !(t.rule? = some .receiverParameter && around.any fun p => p.rule? = some .methodDeclaration) &&
    !(t.rule? = some .fieldDeclaration &&
      (around[2]?.any (fun p => p.rule? = some .recordBody) ||
        around[3]?.any fun p => p.rule? = some .enumConstant &&
          (p.has (.phrase .arguments) || p.has (.phrase .annotationUse))))
  | _ => true

end Visit

/-! ## Places in a tree -/

/-- Each tree is a child of the next. -/
def Nested : Tree → List Tree → Prop
  | _, [] => True
  | t, p :: ps => t ∈ p.children ∧ Nested p ps

/-- A place in the tree of a text without errors, inside of classes with foreseen heads. -/
structure Placed (t : Tree) (around : List Tree) : Prop where
  nested : Nested t around
  derived : ∀ p ∈ t :: around, p.Derived Java.body
  rooted : ∀ root, (t :: around).getLast? = some root → root.rule? = some .compilationUnit
  headed : ∀ p ∈ around, p.headless = false

namespace Placed

variable {t p : Tree} {around : List Tree}

theorem self (h : Placed t around) : t.Derived Java.body := h.derived t List.mem_cons_self

theorem child (h : Placed t around) (hh : t.headless = false) (hp : p ∈ t.children) :
    Placed p (t :: around) where
  nested := ⟨hp, h.nested⟩
  derived := by
    intro q hq
    rcases List.mem_cons.mp hq with rfl | hq
    · exact h.self.of_mem hp
    · exact h.derived q hq
  rooted := fun root hroot => h.rooted root (by rwa [List.getLast?_cons_cons] at hroot)
  headed := by
    intro q hq
    rcases List.mem_cons.mp hq with rfl | hq
    · exact hh
    · exact h.headed q hq

/-- Only the whole text has nothing around it. -/
theorem parent (h : Placed t around) {r : Rule} (hr : t.rule? = some r) (hne : r ≠ .compilationUnit) :
    ∃ p ps, around = p :: ps ∧ t ∈ p.children ∧ Placed p ps ∧
      ∃ outer ∈ Java.parents r, p.rule? = some outer := by
  cases around with
  | nil =>
    have hrule := h.rooted t rfl
    rw [hr] at hrule
    exact absurd (Option.some.inj hrule) hne
  | cons p ps =>
    have hp : p.Derived Java.body := h.derived p (List.mem_cons_of_mem _ List.mem_cons_self)
    refine ⟨p, ps, rfl, h.nested.1, ⟨h.nested.2, fun q hq => ?_, ?_, fun q hq => ?_⟩,
      hp.parent h.nested.1 hr⟩
    · exact h.derived q (List.mem_cons_of_mem _ hq)
    · exact fun root hroot => h.rooted root (by rwa [List.getLast?_cons_cons])
    · exact h.headed q (List.mem_cons_of_mem _ hq)

/-- The phrases around a field up to the one that its body belongs to. -/
theorem fieldChain (h : Placed t around) (hr : t.rule? = some .fieldDeclaration)
    (hf : (Visit.enter t around).foreseen = true) :
    ∃ member declaration body owner rest, around = member :: declaration :: body :: owner :: rest ∧
      member.declaresClass = false ∧ declaration.declaresClass = false ∧
      body.declaresClass = false ∧ Placed owner rest ∧
      (owner.declaresClass = true ∨ owner.has (.phrase .classBody) = true ∧
        (owner.rule? = some .enumConstant ∨ owner.rule? = some .classCreatorRest)) := by
  obtain ⟨hfields, hmembers, hdeclarations, hbodies, henums⟩ := Java.parents_members
  obtain ⟨member, _, rfl, _, hmember, _, ho, hmr⟩ := h.parent hr (by decide)
  rw [hfields, List.mem_singleton] at ho
  subst ho
  obtain ⟨declaration, _, rfl, _, hdeclaration, _, ho, hdr⟩ := hmember.parent hmr (by decide)
  rw [hmembers, List.mem_singleton] at ho
  subst ho
  obtain ⟨body, _, rfl, _, hbody, _, ho, hbr⟩ := hdeclaration.parent hdr (by decide)
  rw [hdeclarations] at ho
  have hm : member.declaresClass = false := by simp [Tree.declaresClass, hmr]
  have hd : declaration.declaresClass = false := by simp [Tree.declaresClass, hdr]
  simp only [List.mem_cons, List.not_mem_nil, or_false] at ho
  rcases ho with rfl | rfl | rfl
  · obtain ⟨owner, rest, rfl, _, howner, _, ho, hor⟩ := hbody.parent hbr (by decide)
    rw [henums, List.mem_singleton] at ho
    subst ho
    refine ⟨member, declaration, body, owner, rest, rfl, hm, hd, ?_, howner, .inl ?_⟩
    · simp [Tree.declaresClass, hbr]
    · exact Tree.declaresClass_iff.mpr (.inr hor)
  · obtain ⟨owner, rest, rfl, hin, howner, _, ho, hor⟩ := hbody.parent hbr (by decide)
    refine ⟨member, declaration, body, owner, rest, rfl, hm, hd, ?_, howner, ?_⟩
    · simp [Tree.declaresClass, hbr]
    · have hhas : owner.has (.phrase .classBody) = true :=
        Tree.has_iff.mpr ⟨body, hin, Tree.of_eq_phrase.mpr hbr⟩
      rw [hbodies] at ho
      simp only [List.mem_cons, List.not_mem_nil, or_false] at ho
      rcases ho with rfl | rfl | rfl
      · exact .inl (Tree.declaresClass_iff.mpr (.inl hor))
      · exact .inr ⟨hhas, .inl hor⟩
      · exact .inr ⟨hhas, .inr hor⟩
  · simp [Visit.foreseen, hr, hbr] at hf

/-- The fourth phrase around a field is the class it belongs to, or has two children. -/
theorem fieldOwner (h : Placed t around) (hr : t.rule? = some .fieldDeclaration)
    (hf : (Visit.enter t around).foreseen = true) :
    ∃ owner, around[3]? = some owner ∧ owner.Derived Java.body ∧ owner.headless = false ∧
      (owner.declaresClass = true ∧ (around.filter Tree.declaresClass).head? = some owner ∨
        owner.children.length = 2) := by
  obtain ⟨member, declaration, body, owner, rest, rfl, hm, hd, hb, howner, hkind⟩ :=
    h.fieldChain hr hf
  have hmem : owner ∈ member :: declaration :: body :: owner :: rest := by simp
  refine ⟨owner, rfl, howner.self, h.headed owner hmem, ?_⟩
  rcases hkind with hclass | ⟨hbody, hor | hor⟩
  · exact .inl ⟨hclass, by simp [hm, hd, hb, hclass]⟩
  · have hplain : owner.has (.phrase .arguments) = false ∧
        owner.has (.phrase .annotationUse) = false := by
      have hrecord : body.rule? ≠ some .recordBody ∧ owner.has (.phrase .arguments) = false ∧
          owner.has (.phrase .annotationUse) = false := by
        simpa [Visit.foreseen, hr, hor] using hf
      exact hrecord.2
    have hsymbols := howner.self.symbols_enumConstant hor hplain.1 hplain.2 hbody
    exact .inr (by rw [← Collector.length_symbols, hsymbols]; rfl)
  · have hsymbols := howner.self.symbols_creator hor hbody
    exact .inr (by rw [← Collector.length_symbols, hsymbols]; rfl)

end Placed

namespace Collector

variable {c c' : Collector} {t : Tree} {around : List Tree} {stack : List Nat} {i : Nat} {f : Fault}

/-! ## Collectors at a place -/

/-- The open classes are those around a place, and calls outside of every class are in no method. -/
structure Inside (c : Collector) (stack : List Nat) (around : List Tree) : Prop where
  coherent : Coherent c stack
  names : stack.map (fun i => (c.entry i).name) =
    (around.filter Tree.declaresClass).map fun k => k.partText 1
  outside : stack = [] → c.method = none

theorem inside_fresh : Inside {} [] [] := ⟨coherent_fresh, rfl, fun _ => rfl⟩

/-- No class is open where there is none around. -/
theorem Inside.eq_nil_iff (h : Inside c stack around) :
    stack = [] ↔ around.any Tree.declaresClass = false := by
  have hlength := congrArg List.length h.names
  rw [List.length_map, List.length_map] at hlength
  rw [← List.length_eq_zero_iff, hlength, List.length_eq_zero_iff, List.filter_eq_nil_iff,
    List.any_eq_false]

theorem Inside.exists_cons (h : Inside c stack around)
    (hany : around.any Tree.declaresClass = true) : ∃ i below, stack = i :: below := by
  refine List.ne_nil_iff_exists_cons.mp fun hnil => ?_
  rw [h.eq_nil_iff.mp hnil] at hany
  cases hany

/-- The innermost open class goes by the name of the innermost class around. -/
theorem Inside.name_head (h : Inside c (i :: stack) around) {k : Tree}
    (hk : (around.filter Tree.declaresClass).head? = some k) : (c.entry i).name = k.partText 1 := by
  have hhead := congrArg List.head? h.names
  rw [List.map_cons, List.head?_cons, List.head?_map, hk] at hhead
  exact Option.some.inj hhead

theorem Inside.name_ne (h : Inside c (i :: stack) around) : (c.entry i).name ≠ "" := by
  obtain ⟨j, hj⟩ := h.coherent.classNamed_entry
  exact (h.coherent.lt_of_classNamed hj).2.2

/-! ## Entering a node -/

/-- The owner of a field goes by the name of the innermost open class. -/
theorem classHead_fieldOwner (h : Placed t around) (hr : t.rule? = some .fieldDeclaration)
    (hf : (Visit.enter t around).foreseen = true) (hi : Inside c (i :: stack) around) :
    ∃ owner head, around[3]? = some owner ∧ (c.classHead owner).result = .ok head ∧
      head.name = (c.entry i).name := by
  obtain ⟨owner, howner, hderived, hheadless, ⟨hclass, hfirst⟩ | hlength⟩ := h.fieldOwner hr hf
  · obtain ⟨head, hhead, hname⟩ := classHead_headed (c := c) hderived hclass hheadless
    exact ⟨owner, head, howner, hhead, hname.trans (hi.name_head hfirst).symm⟩
  · refine ⟨owner, { name := (c.entry i).name }, howner, ?_, rfl⟩
    rw [classHead_two hlength, hi.coherent.innermost_cons, Noted.ok_bind, if_neg hi.name_ne]
    rfl

theorem fieldOutcome_inside (h : Placed t around) (hr : t.rule? = some .fieldDeclaration)
    (hf : (Visit.enter t around).foreseen = true) (hi : Inside c (i :: stack) around) :
    ∃ c', c.fieldOutcome t around = .ok c' := by
  obtain ⟨owner, head, howner, hhead, hname⟩ := classHead_fieldOwner h hr hf hi
  obtain ⟨j, hj⟩ := hi.coherent.classNamed_entry
  have hlength := h.self.le_length hr rfl
  obtain ⟨type, htype⟩ := childText_of_lt (t := t) (i := 0) (Nat.lt_of_lt_of_le (by decide) hlength)
  obtain ⟨define, hdefine⟩ :=
    childText_of_lt (t := t) (i := 1) (Nat.lt_of_lt_of_le (by decide) hlength)
  refine ⟨c.withField j ⟨type, define⟩, ?_⟩
  simp only [fieldOutcome, howner, hhead, Noted.ok_bind, hi.coherent.innermost_cons, hname, hj,
    htype, hdefine, ne_eq, not_true_eq_false, if_false, Noted.pure_eq_ok]

theorem fieldOutcome_outside (h : Placed t around) (hr : t.rule? = some .fieldDeclaration)
    (hf : (Visit.enter t around).foreseen = true) (hi : Inside c [] around) :
    c.fieldOutcome t around = .error (.noOpenClass 0) := by
  obtain ⟨owner, howner, _, _, ⟨_, hfirst⟩ | hlength⟩ := h.fieldOwner hr hf
  · have hnone := congrArg List.head? hi.names
    rw [List.map_nil, List.head?_map, hfirst] at hnone
    cases hnone
  · simp only [fieldOutcome, howner, classHead_two hlength, hi.coherent.innermost_nil,
      Noted.error_bind]

theorem methodOutcome_inside (h : t.Derived Java.body) (hr : t.rule? = some .methodDeclaration)
    (hreceiver : ∀ part ∈ t.children, part.has (.phrase .receiverParameter) = false)
    (hi : Inside c (i :: stack) around) : ∃ c', c.methodOutcome t around = .ok c' := by
  obtain ⟨more, hsymbols⟩ := h.symbols_method hr
  obtain ⟨name, hname⟩ := childText_of_symbol (t := t) (i := 1) (by rw [hsymbols]; rfl)
  obtain ⟨m, hm⟩ : ∃ m, (c.methodPart t around name).result = .ok m :=
    methodPart_ok h hr hreceiver name
  obtain ⟨j, hj⟩ := hi.coherent.classNamed_entry
  simp only [methodOutcome, hname, Noted.ok_bind, hi.coherent.innermost_cons, hm, hj]
  split
  · exact ⟨_, rfl⟩
  · exact ⟨_, rfl⟩

theorem methodOutcome_outside (h : t.Derived Java.body) (hr : t.rule? = some .methodDeclaration)
    (hi : Inside c [] around) : c.methodOutcome t around = .error (.noOpenClass 0) := by
  obtain ⟨more, hsymbols⟩ := h.symbols_method hr
  obtain ⟨name, hname⟩ := childText_of_symbol (t := t) (i := 1) (by rw [hsymbols]; rfl)
  simp only [methodOutcome, hname, Noted.ok_bind, hi.coherent.innermost_nil, Noted.error_bind]

theorem childText_call (h : t.Derived Java.body) (hr : t.rule? = some .methodCall) :
    ∃ value, childText t 0 = .ok value :=
  childText_of_lt (Nat.lt_of_lt_of_le (by decide) (h.le_length hr rfl))

theorem callOutcome_inside (h : t.Derived Java.body) (hr : t.rule? = some .methodCall)
    (hi : Inside c (i :: stack) around) : ∃ c', c.callOutcome t = .ok c' := by
  obtain ⟨value, hvalue⟩ := childText_call h hr
  obtain ⟨j, hj⟩ := hi.coherent.classNamed_entry
  simp only [callOutcome, hvalue, Noted.ok_bind]
  split
  · exact ⟨_, by rw [hi.coherent.innermost_cons, Noted.ok_bind, hj]; rfl⟩
  · exact ⟨_, rfl⟩

theorem callOutcome_outside (h : t.Derived Java.body) (hr : t.rule? = some .methodCall)
    (hi : Inside c [] around) : c.callOutcome t = .error (.noOpenClass 0) := by
  obtain ⟨value, hvalue⟩ := childText_call h hr
  simp only [callOutcome, hvalue, Noted.ok_bind, hi.outside rfl, hi.coherent.innermost_nil,
    Noted.error_bind]

/-- A node with an offence is not entered. -/
theorem outcome_enter_offence (h : Placed t around) (hf : (Visit.enter t around).foreseen = true)
    (hi : Inside c stack around) (ho : (Visit.enter t around).offence = some f) :
    c.outcome (.enter t around) = .error f := by
  rcases Visit.offence_enter_iff.mp ho with ⟨hh, rfl⟩ | ⟨_, hmember, hany, rfl⟩
  · have hd := Tree.declaresClass_of_headless hh
    rw [outcome_enterClass hd, classHead_headless h.self hd hh]
    rfl
  · obtain rfl := hi.eq_nil_iff.mpr hany
    rcases Tree.isMember_iff.mp hmember with hr | hr | hr
    · simp only [outcome, hr]
      exact methodOutcome_outside h.self hr hi
    · simp only [outcome, hr]
      exact fieldOutcome_outside h hr hf hi
    · simp only [outcome, hr]
      exact callOutcome_outside h.self hr hi

/-- Any other node is entered. -/
theorem outcome_enter_ok (h : Placed t around) (hf : (Visit.enter t around).foreseen = true)
    (hreceiver : t.rule? = some .methodDeclaration →
      ∀ part ∈ t.children, part.has (.phrase .receiverParameter) = false)
    (hi : Inside c stack around) (ho : (Visit.enter t around).offence = none) :
    ∃ c', c.outcome (.enter t around) = .ok c' := by
  obtain ⟨hh, hmembers⟩ := Visit.offence_eq_none_iff.mp ho
  have hopen : t.isMember = true → ∃ i below, stack = i :: below :=
    fun hmember => hi.exists_cons (hmembers hmember)
  cases hd : t.declaresClass with
  | true =>
    obtain ⟨head, hhead, _⟩ := classHead_headed (c := c) h.self hd hh
    exact ⟨_, by rw [outcome_enterClass hd, hhead]; rfl⟩
  | false =>
    simp only [outcome]
    split
    · rename_i hr
      obtain ⟨name, hname⟩ := phraseText_of_has (r := .qualifiedName)
        (h.self.has_of_least hr rfl (by decide))
      exact ⟨_, by rw [hname]; rfl⟩
    · rename_i hr
      obtain ⟨name, hname⟩ := phraseText_of_has (r := .qualifiedName)
        (h.self.has_of_least hr rfl (by decide))
      exact ⟨_, by rw [hname]; rfl⟩
    · rename_i hr
      rw [Tree.declaresClass_iff.mpr (.inl hr)] at hd
      cases hd
    · rename_i hr
      rw [Tree.declaresClass_iff.mpr (.inr hr)] at hd
      cases hd
    · rename_i hr
      obtain ⟨i, below, rfl⟩ := hopen (Tree.isMember_iff.mpr (.inr (.inl hr)))
      exact fieldOutcome_inside h hr hf hi
    · rename_i hr
      obtain ⟨i, below, rfl⟩ := hopen (Tree.isMember_iff.mpr (.inl hr))
      exact methodOutcome_inside h.self hr (hreceiver hr) hi
    · rename_i hr
      obtain ⟨i, below, rfl⟩ := hopen (Tree.isMember_iff.mpr (.inr (.inr hr)))
      exact callOutcome_inside h.self hr hi
    · exact ⟨c, rfl⟩

/-! ## From visit to visit -/

/-- Open classes keep their names, whatever else a collector goes through. -/
theorem Inside.kept (h : Inside c stack around) (hcoherent : Coherent c' stack)
    (hnames : ∃ more, c'.pool.map ClassEntry.name = c.pool.map ClassEntry.name ++ more)
    (houtside : stack = [] → c'.method = none) : Inside c' stack around := by
  refine ⟨hcoherent, ?_, houtside⟩
  obtain ⟨more, hmore⟩ := hnames
  have hsame : ∀ i ∈ stack, (c'.entry i).name = (c.entry i).name := by
    intro i hi
    have hlt := (h.coherent.stacked i hi).1
    have hlt' := (hcoherent.stacked i hi).1
    have hname : (c'.pool.map ClassEntry.name)[i]? = (c.pool.map ClassEntry.name)[i]? := by
      rw [hmore, List.getElem?_append_left (by rwa [List.length_map])]
    simpa [entry, hlt, hlt'] using hname
  rw [List.map_congr_left hsame]
  exact h.names

/-- The open classes once a node is entered. -/
theorem Inside.enter (h : Inside c stack around) (hderived : t.Derived Java.body)
    (hh : t.headless = false) (hc : c.outcome (.enter t around) = .ok c') :
    ∃ stack', Inside c' stack' (t :: around) := by
  cases hd : t.declaresClass with
  | true =>
    obtain ⟨head, hhead, hname⟩ := classHead_headed (c := c) hderived hd hh
    rw [outcome_enterClass hd, hhead] at hc
    cases hc
    refine ⟨c.pool.length :: stack, h.coherent.opening (name_ne_of_classHead hhead), ?_, ?_⟩
    · have hkept : ∀ i ∈ stack, ((c.opening head).entry i).name = (c.entry i).name := by
        intro i hi
        rw [entry_opening_of_lt head (h.coherent.stacked i hi).1]
      rw [List.map_cons, entry_opening_self, List.map_congr_left hkept, h.names,
        List.filter_cons_of_pos hd, List.map_cons]
      exact congrArg (· :: _) hname
    · intro hnil
      cases hnil
  | false =>
    have hkept := h.kept (h.coherent.update (update_of_enter hd hc)) (names_of_outcome hc) ?_
    · refine ⟨stack, hkept.coherent, ?_, hkept.outside⟩
      rw [hkept.names, List.filter_cons_of_neg (by simp [hd])]
    · rintro rfl
      by_cases hr : t.rule? = some .methodDeclaration
      · -- Outside of every class no method is entered.
        simp only [outcome, hr, methodOutcome_outside hderived hr h] at hc
        cases hc
      · exact (method_of_enter hr hc).trans (h.outside rfl)

theorem Inside.passes (h : Inside c stack around) (hp : Passes c (t.visits around) c') :
    Inside c' stack around :=
  h.kept (h.coherent.passes hp) (names_of_passes hp) fun hnil =>
    method_of_passes (h.outside hnil) hp

/-- A node that was entered is left. -/
theorem outcome_exit_ok (h : t.Derived Java.body) (hi : Inside c stack (t :: around)) :
    ∃ c', c.outcome (.exit t around) = .ok c' := by
  cases hd : t.declaresClass with
  | true =>
    obtain ⟨i, below, rfl⟩ := hi.exists_cons (by rw [List.any_cons, hd, Bool.true_or])
    rw [outcome_exitClass hd, (name_class h hd).1, Noted.ok_bind, hi.coherent.innermost_cons]
    exact ⟨_, rfl⟩
  | false =>
    simp only [outcome]
    split
    · rename_i hr
      rw [Tree.declaresClass_iff.mpr (.inl hr)] at hd
      cases hd
    · rename_i hr
      rw [Tree.declaresClass_iff.mpr (.inr hr)] at hd
      cases hd
    · rename_i hr
      obtain ⟨more, hsymbols⟩ := h.symbols_method hr
      obtain ⟨name, hname⟩ := childText_of_symbol (t := t) (i := 1) (by rw [hsymbols]; rfl)
      exact ⟨_, by rw [hname]; rfl⟩
    · exact ⟨c, rfl⟩

/-! ## Whole walks -/

/-- The visits are followed up to the first offence. -/
def Heeds (c : Collector) (vs : List Visit) : Prop :=
  (c.follow vs).fault = vs.findSome? Visit.offence

theorem Heeds.append {us vs : List Visit} (hu : Heeds c us)
    (hv : ∀ c', Passes c us c' → Heeds c' vs) : Heeds c (us ++ vs) := by
  unfold Heeds at hu ⊢
  rw [List.findSome?_append]
  cases h : us.findSome? Visit.offence with
  | some f =>
    rw [h] at hu
    exact follow_append_of_fault hu vs
  | none =>
    rw [h] at hu
    obtain ⟨log, hf⟩ := follow_append_of_passes ⟨hu, rfl⟩ vs
    rw [hf]
    exact hv _ ⟨hu, rfl⟩

theorem heeds_singleton {v : Visit} (herror : ∀ f, v.offence = some f → c.outcome v = .error f)
    (hok : v.offence = none → ∃ c', c.outcome v = .ok c') : Heeds c [v] := by
  unfold Heeds
  rw [List.findSome?_singleton]
  cases ho : v.offence with
  | some f =>
    obtain ⟨log, hf⟩ := follow_cons_error (herror f ho) []
    rw [hf]
  | none =>
    obtain ⟨c', hc⟩ := hok ho
    obtain ⟨log, hf⟩ := follow_cons_ok hc []
    rw [hf]
    rfl

/-- A walk through trees side by side is one that heeds offences in each of them. -/
theorem heeds_visitsAll {ts : List Tree} (hi : Inside c stack around)
    (hts : ∀ t ∈ ts, ∀ c, Inside c stack around → Heeds c (t.visits around)) :
    Heeds c (Tree.visitsAll around ts) ∧
      ∀ c', Passes c (Tree.visitsAll around ts) c' → Inside c' stack around := by
  induction ts generalizing c with
  | nil =>
    rw [visitsAll_nil]
    exact ⟨rfl, fun c' hp => passes_nil.mp hp ▸ hi⟩
  | cons t ts ih =>
    have hrest : ∀ c, Inside c stack around → _ := fun c hc =>
      ih (c := c) hc fun u hu => hts u (List.mem_cons_of_mem _ hu)
    rw [visitsAll_cons]
    refine ⟨(hts t List.mem_cons_self c hi).append fun c' hp => (hrest c' (hi.passes hp)).1, ?_⟩
    intro c'' hp
    obtain ⟨c', ht, hp⟩ := passes_append.mp hp
    exact (hrest c' (hi.passes ht)).2 c'' hp

/-- A method all of whose visits are foreseen has no receiver. -/
theorem no_receiver (hf : ∀ v ∈ t.visits around, v.foreseen = true)
    (hr : t.rule? = some .methodDeclaration) :
    ∀ part ∈ t.children, part.has (.phrase .receiverParameter) = false := by
  intro part hpart
  rw [← Bool.not_eq_true, Tree.has_iff]
  rintro ⟨receiver, hreceiver, hs⟩
  have hrr := Tree.of_eq_phrase.mp hs
  have hmem : .enter receiver (part :: t :: around) ∈ t.visits around :=
    mem_visits_of_child hpart (mem_visits_of_child hreceiver (enter_mem_visits hrr))
  simpa [Visit.foreseen, hrr, hr] using hf _ hmem

/-- A walk that begins in the classes around a tree is followed up to the first offence in it. -/
theorem heeds_visits (t : Tree) : ∀ {around c stack}, Placed t around → Inside c stack around →
    (∀ v ∈ t.visits around, v.foreseen = true) → Heeds c (t.visits around) := by
  induction t using tree_induction with
  | hleaf t ht =>
    intro around c stack _ _ _
    rw [visits_leaf ht]
    exact heeds_singleton (fun f hf => nomatch hf) fun _ => ⟨c, rfl⟩
  | hnode r first last labels children ih =>
    intro around c stack hp hi hf
    have hself := hf _ (enter_mem_visits rfl)
    have hreceiver := no_receiver hf
    rw [visits_node, ← List.singleton_append]
    have henter := heeds_singleton (fun f => outcome_enter_offence (f := f) hp hself hi)
      (outcome_enter_ok hp hself hreceiver hi)
    refine henter.append fun d hpass => ?_
    obtain ⟨_, hd, hnil⟩ := passes_cons.mp hpass
    rw [passes_nil.mp hnil] at hd
    have hh : (Tree.node r first last labels children).headless = false := by
      rw [← Bool.not_eq_true]
      intro hh
      have ho : (Visit.enter _ around).offence = some .noClassName :=
        Visit.offence_enter_iff.mpr (.inl ⟨hh, rfl⟩)
      rw [outcome_enter_offence hp hself hi ho] at hd
      cases hd
    obtain ⟨stack', hi'⟩ := hi.enter hp.self hh hd
    have hchildren := heeds_visitsAll hi' fun u hu e he =>
      ih u hu (hp.child hh hu) he fun v hv => hf v (mem_visits_of_child hu hv)
    refine hchildren.1.append fun e he => ?_
    exact heeds_singleton (fun f hf => nomatch hf) fun _ =>
      outcome_exit_ok hp.self (hchildren.2 e he)

/-- A walk fails just if it enters a class whose head is not foreseen or a member with no class around
it. It ends at the first such node, with a fault that says which of the two it was. -/
structure EndsAtOffence (t : Tree) : Prop where
  first : (collect {} t).fault = t.walk.findSome? Visit.offence
  fails : (collect {} t).fault ≠ none ↔ ∃ u around, Visit.enter u around ∈ t.walk ∧
    (u.headless = true ∨ u.isMember = true ∧ around.any Tree.declaresClass = false)
  worded : ∀ f, (collect {} t).fault = some f →
    f = .noClassName ∧ f.message? = some "Class name is not found" ∨
    f = .noOpenClass 0 ∧ f.message? = some "0"

theorem endsAtOffence {t : Tree} (h : t.Derived Java.body) (hr : t.rule? = some .compilationUnit)
    (hf : ∀ v ∈ t.walk, v.foreseen = true) : EndsAtOffence t := by
  have hplaced : Placed t [] :=
    { nested := trivial
      derived := fun p hp => List.mem_singleton.mp hp ▸ h
      rooted := fun root hroot => Option.some.inj hroot ▸ hr
      headed := fun p hp => nomatch hp }
  have hfirst : (collect {} t).fault = t.walk.findSome? Visit.offence :=
    heeds_visits t hplaced inside_fresh hf
  refine ⟨hfirst, ?_, ?_⟩
  · rw [hfirst, ne_eq, List.findSome?_eq_none_iff]
    simp only [not_forall, exists_prop]
    constructor
    · rintro ⟨v, hv, ho⟩
      obtain ⟨u, around, rfl, hu⟩ := Visit.offence_ne_none_iff.mp ho
      exact ⟨u, around, hv, hu⟩
    · rintro ⟨u, around, hv, hu⟩
      exact ⟨_, hv, Visit.offence_ne_none_iff.mpr ⟨u, around, rfl, hu⟩⟩
  · intro f hfault
    rw [hfirst] at hfault
    obtain ⟨v, _, hv⟩ := List.exists_of_findSome?_eq_some hfault
    rcases Visit.fault_of_offence hv with rfl | rfl
    · exact .inl ⟨rfl, rfl⟩
    · exact .inr ⟨rfl, rfl⟩

/-- Collecting fails at the first offence and only there, in every tree that follows the grammar and so
for every text without errors. -/
theorem collect_fails_at_offence :
    (∀ t : Tree, t.Derived Java.body → t.rule? = some .compilationUnit →
      (∀ v ∈ t.walk, v.foreseen = true) → EndsAtOffence t) ∧
    ∀ text level p, Parse.ofText? text .compilationUnit level = some p → p.reports = [] →
      (∀ v ∈ p.tree.walk, v.foreseen = true) → EndsAtOffence p.tree := by
  refine ⟨fun t h hr hf => endsAtOffence h hr hf, ?_⟩
  intro text level p hp hclean hf
  obtain ⟨hderived, hr⟩ := Parse.derived_of_reports_nil hp hclean
  exact endsAtOffence hderived hr hf

/-- A class without members, and an enumeration without constants after it. -/
def classThenEnum : Tree :=
  .phrase .compilationUnit [.phrase .typeDeclaration [.classOf "A" []],
    .phrase .typeDeclaration [.phrase .enumDeclaration
      [.word .kwEnum "enum", .named "E", .word .lbrace "\x7b", .word .rbrace "\x7d"]]]

theorem derived_classThenEnum : classThenEnum.Derived Java.body :=
  Tree.derived_of_recognized classThenEnum (by decide +kernel)

/-- The class is taken, and the enumeration has no name. -/
theorem collect_fails_at_offence_enum :
    classThenEnum.Derived Java.body ∧ (∀ v ∈ classThenEnum.walk, v.foreseen = true) ∧
      EndsAtOffence classThenEnum ∧ (collect {} classThenEnum).fault = some .noClassName := by
  have hf : ∀ v ∈ classThenEnum.walk, v.foreseen = true := by decide
  have h := collect_fails_at_offence.1 classThenEnum derived_classThenEnum rfl hf
  refine ⟨derived_classThenEnum, hf, h, ?_⟩
  rw [h.first]
  decide

end Collector

end Callscope
