import Callscope.Proofs.Outline.Visit

/-!
# Chains of visits

A walk follows its visits until one ends with a fault. `Passes` says that none does, and where the
walk then ends. A walk through a node is the visit that enters it, the walks through its children and
the visit that exits it, so a statement about walks is shown by an induction over the tree.
-/

namespace Callscope

namespace Tree

/-! ## Trees written down -/

/-- A word of a text. -/
def word (kind : Kind) (text : String) : Tree := .token ⟨kind, text, .start, 0⟩

/-- A phrase of some parts. -/
def phrase (r : Rule) (parts : List Tree) : Tree := .node r default (some default) [] parts

/-- A name. -/
def named (name : String) : Tree := phrase .identifier [word .identifier name]

/-- A class without a head besides its name. -/
def classOf (name : String) (members : List Tree) : Tree :=
  phrase .classDeclaration [word .kwClass "class", named name,
    phrase .classBody (word .lbrace "\x7b" ::
      members.map (fun m => phrase .classBodyDeclaration [phrase .memberDeclaration [m]]) ++
      [word .rbrace "\x7d"])]

/-- A list of one parameter, a number. -/
def parameter (name : String) : Tree :=
  phrase .formalParameterList [phrase .formalParameter
    [phrase .typeType [phrase .primitiveType [word .kwInt "int"]],
      phrase .variableDeclaratorId [named name]]]

/-- A method without a result. -/
def methodOf (name : String) (parameters : List Tree) (statements : List Tree) : Tree :=
  phrase .methodDeclaration [phrase .typeTypeOrVoid [word .kwVoid "void"], named name,
    phrase .formalParameters (word .lparen "(" :: parameters ++ [word .rparen ")"]),
    phrase .methodBody [phrase .block (word .lbrace "\x7b" ::
      statements.map (fun s => phrase .blockStatement [phrase .statement [s, word .semi ";"]]) ++
      [word .rbrace "\x7d"])]]

/-- A call without arguments. -/
def calling (name : String) : Tree :=
  phrase .expression [phrase .methodCall [named name, word .lparen "(", word .rparen ")"]]

/-- A text of some types. -/
def unitOf (types : List Tree) : Tree :=
  phrase .compilationUnit
    (types.map (fun t => phrase .typeDeclaration [t]) ++ [word .eof "<EOF>"])

end Tree

namespace Collector

variable {c c' c'' : Collector} {v : Visit} {vs us : List Visit} {f : Fault}

theorem follow_nil (c : Collector) : c.follow [] = ⟨c, none, 0, []⟩ := rfl

theorem follow_cons_ok (h : c.outcome v = .ok c') (vs : List Visit) :
    ∃ log, c.follow (v :: vs) =
      { c'.follow vs with done := (c'.follow vs).done + 1, log := log } := by
  have he := ends_visit v c
  rw [h] at he
  simp only [ends, settle, Prod.mk.injEq] at he
  rw [follow]
  rcases hv : visit v c with ⟨⟨log, r⟩, d⟩
  rw [hv] at he
  obtain ⟨rfl, rfl⟩ := he
  exact ⟨_, rfl⟩

theorem follow_cons_error (h : c.outcome v = .error f) (vs : List Visit) :
    ∃ log, c.follow (v :: vs) = ⟨c, some f, 0, log⟩ := by
  have he := ends_visit v c
  rw [h] at he
  simp only [ends, settle, Prod.mk.injEq] at he
  rw [follow]
  rcases hv : visit v c with ⟨⟨log, r⟩, d⟩
  rw [hv] at he
  obtain ⟨rfl, rfl⟩ := he
  exact ⟨_, rfl⟩

/-- What every visit of a chain keeps is kept by the chain, also by one that a fault cuts short. -/
theorem follow_keeps_of_mem {P : Collector → Prop}
    (hstep : ∀ {c c' : Collector}, ∀ v ∈ vs, c.outcome v = .ok c' → P c → P c') (hc : P c) :
    P (c.follow vs).collector := by
  induction vs generalizing c with
  | nil => exact hc
  | cons v vs ih =>
    cases h : c.outcome v with
    | error f =>
      obtain ⟨log, hf⟩ := follow_cons_error h vs
      rw [hf]
      exact hc
    | ok c' =>
      obtain ⟨log, hf⟩ := follow_cons_ok h vs
      rw [hf]
      exact ih (fun u hu => hstep u (List.mem_cons_of_mem _ hu)) (hstep v List.mem_cons_self h hc)

theorem follow_keeps {P : Collector → Prop}
    (hstep : ∀ {c c' : Collector} {v : Visit}, c.outcome v = .ok c' → P c → P c')
    (vs : List Visit) (hc : P c) : P (c.follow vs).collector :=
  follow_keeps_of_mem (fun _ _ => hstep) hc

/-- The visits lead from one collector to another without a fault. -/
def Passes (c : Collector) (vs : List Visit) (c' : Collector) : Prop :=
  (c.follow vs).fault = none ∧ (c.follow vs).collector = c'

theorem passes_nil : Passes c [] c' ↔ c = c' := by
  simp [Passes, follow_nil]

theorem passes_cons :
    Passes c (v :: vs) c'' ↔ ∃ c', c.outcome v = .ok c' ∧ Passes c' vs c'' := by
  cases h : c.outcome v with
  | error f =>
    obtain ⟨log, hf⟩ := follow_cons_error h vs
    simp [Passes, hf]
  | ok c' =>
    obtain ⟨log, hf⟩ := follow_cons_ok h vs
    simp [Passes, hf]

theorem passes_append :
    Passes c (us ++ vs) c'' ↔ ∃ c', Passes c us c' ∧ Passes c' vs c'' := by
  induction us generalizing c with
  | nil => simp [passes_nil]
  | cons u us ih =>
    simp only [List.cons_append, passes_cons, ih]
    constructor
    · rintro ⟨d, hd, c', hu, hv⟩
      exact ⟨c', ⟨d, hd, hu⟩, hv⟩
    · rintro ⟨c', ⟨d, hd, hu⟩, hv⟩
      exact ⟨d, hd, c', hu, hv⟩

/-- A chain that passes is followed to its end before the next one begins. -/
theorem follow_append_of_passes (h : Passes c us c') (vs : List Visit) :
    ∃ log, c.follow (us ++ vs) =
      { c'.follow vs with done := us.length + (c'.follow vs).done, log := log } := by
  induction us generalizing c with
  | nil =>
    rw [passes_nil] at h
    subst h
    exact ⟨_, by rw [List.nil_append, List.length_nil, Nat.zero_add]⟩
  | cons u us ih =>
    obtain ⟨d, hd, hu⟩ := passes_cons.mp h
    obtain ⟨log, hf⟩ := follow_cons_ok hd (us ++ vs)
    obtain ⟨log', hf'⟩ := ih hu
    refine ⟨log, ?_⟩
    rw [List.cons_append, hf, hf']
    simp only [List.length_cons, Walked.mk.injEq, and_true, true_and]
    omega

/-- Nothing is followed after a fault. -/
theorem follow_append_of_fault (h : (c.follow us).fault = some f) (vs : List Visit) :
    (c.follow (us ++ vs)).fault = some f := by
  induction us generalizing c with
  | nil => simp [follow_nil] at h
  | cons u us ih =>
    cases hu : c.outcome u with
    | error g =>
      obtain ⟨log, hf⟩ := follow_cons_error hu us
      obtain ⟨log', hf'⟩ := follow_cons_error hu (us ++ vs)
      rw [hf] at h
      rw [List.cons_append, hf']
      exact h
    | ok d =>
      obtain ⟨log, hf⟩ := follow_cons_ok hu us
      obtain ⟨log', hf'⟩ := follow_cons_ok hu (us ++ vs)
      rw [hf] at h
      rw [List.cons_append, hf']
      exact ih h

/-! ## Walks through a tree -/

section Node

variable {r : Rule} {first : Token} {last : Option Token} {labels : List (Label × String)}
  {children : List Tree} {around : List Tree}

theorem visits_node : (Tree.node r first last labels children).visits around =
    .enter (.node r first last labels children) around ::
      (Tree.visitsAll (.node r first last labels children :: around) children ++
        [.exit (.node r first last labels children) around]) := by
  rw [Tree.visits, List.cons_append]

theorem visitsAll_cons (t : Tree) (ts : List Tree) :
    Tree.visitsAll around (t :: ts) = t.visits around ++ Tree.visitsAll around ts := by
  rw [Tree.visitsAll]

theorem visitsAll_nil : Tree.visitsAll around [] = [] := by
  rw [Tree.visitsAll]

theorem passes_node :
    Passes c ((Tree.node r first last labels children).visits around) c'' ↔
      ∃ d e, c.outcome (.enter (.node r first last labels children) around) = .ok d ∧
        Passes d (Tree.visitsAll (.node r first last labels children :: around) children) e ∧
        e.outcome (.exit (.node r first last labels children) around) = .ok c'' := by
  rw [visits_node, passes_cons]
  constructor
  · rintro ⟨d, hd, h⟩
    obtain ⟨e, he, hx⟩ := passes_append.mp h
    obtain ⟨g, hg, hn⟩ := passes_cons.mp hx
    obtain rfl := passes_nil.mp hn
    exact ⟨d, e, hd, he, hg⟩
  · rintro ⟨d, e, hd, he, hg⟩
    exact ⟨d, hd, passes_append.mpr ⟨e, he, passes_cons.mpr ⟨c'', hg, passes_nil.mpr rfl⟩⟩⟩

theorem passes_visitsAll_cons {t : Tree} {ts : List Tree} :
    Passes c (Tree.visitsAll around (t :: ts)) c'' ↔
      ∃ c', Passes c (t.visits around) c' ∧ Passes c' (Tree.visitsAll around ts) c'' := by
  rw [visitsAll_cons, passes_append]

end Node

theorem visits_leaf {t : Tree} (h : t.rule? = none) (around : List Tree) :
    t.visits around = [.leaf t] := by
  cases t with
  | node => cases h
  | token | skipped | missing => simp [Tree.visits]

/-- A leaf is visited and nothing comes of it. -/
theorem passes_leaf {t : Tree} {around : List Tree} (h : t.rule? = none) :
    Passes c (t.visits around) c' ↔ c = c' := by
  rw [visits_leaf h, passes_cons]
  simp [outcome, passes_nil]

theorem mem_visitsAll {ts around : List Tree} :
    v ∈ Tree.visitsAll around ts ↔ ∃ t ∈ ts, v ∈ t.visits around := by
  induction ts with
  | nil => simp [visitsAll_nil]
  | cons t ts ih => simp [visitsAll_cons, ih]

/-- The visits of a part are among those of the whole. -/
theorem mem_visits_of_child {t p : Tree} {around : List Tree} (hp : p ∈ t.children)
    (hv : v ∈ p.visits (t :: around)) : v ∈ t.visits around := by
  cases t with
  | token | skipped | missing => cases hp
  | node r first last labels children =>
    rw [visits_node]
    exact List.mem_cons_of_mem _ (List.mem_append_left _ (mem_visitsAll.mpr ⟨p, hp, hv⟩))

theorem enter_mem_visits {t : Tree} {around : List Tree} {r : Rule} (hr : t.rule? = some r) :
    .enter t around ∈ t.visits around := by
  cases t with
  | token | skipped | missing => cases hr
  | node =>
    rw [visits_node]
    exact List.mem_cons_self

/-- A tree induction: a leaf, or a node all of whose children have the property. -/
theorem tree_induction {P : Tree → Prop} (hleaf : ∀ t : Tree, t.rule? = none → P t)
    (hnode : ∀ r first last labels children, (∀ t ∈ children, P t) →
      P (.node r first last labels children)) (t : Tree) : P t := by
  induction t using Tree.rec (motive_2 := fun ts => ∀ t ∈ ts, P t) with
  | token t => exact hleaf _ rfl
  | skipped t => exact hleaf _ rfl
  | missing k => exact hleaf _ rfl
  | node r first last labels children ih => exact hnode r first last labels children ih
  | nil =>
    rename_i hu
    simp at hu
  | cons t ts ht hts =>
    rename_i u hu
    rcases List.mem_cons.mp hu with rfl | hu
    · exact ht
    · exact hts u hu

/-- A property that passes from a node to its children holds of every node that is entered. -/
theorem of_enter_mem_visits {P : Tree → Prop} (hparts : ∀ {t p}, P t → p ∈ t.children → P p)
    {u : Tree} {above : List Tree} (t : Tree) : ∀ {around}, P t →
      .enter u above ∈ t.visits around → P u := by
  induction t using tree_induction with
  | hleaf t ht =>
    intro around _ hu
    rw [visits_leaf ht] at hu
    cases List.mem_singleton.mp hu
  | hnode r first last labels children ih =>
    intro around hp hu
    rw [visits_node] at hu
    rcases List.mem_cons.mp hu with hu | hu
    · cases hu
      exact hp
    · rcases List.mem_append.mp hu with hu | hu
      · obtain ⟨p, hmem, hu⟩ := mem_visitsAll.mp hu
        exact ih p hmem (hparts hp hmem) hu
      · cases List.mem_singleton.mp hu

/-- The same next to a property of lists of children. -/
theorem forest_induction {P : Tree → Prop} {Q : List Tree → Prop}
    (hleaf : ∀ t : Tree, t.rule? = none → P t)
    (hnode : ∀ r first last labels children, Q children → P (.node r first last labels children))
    (hnil : Q []) (hcons : ∀ t ts, P t → Q ts → Q (t :: ts)) (t : Tree) : P t := by
  refine tree_induction hleaf (fun r first last labels children ih => ?_) t
  refine hnode r first last labels children ?_
  clear hnode
  induction children with
  | nil => exact hnil
  | cons t ts iht =>
    exact hcons t ts (ih t List.mem_cons_self) (iht fun u hu => ih u (List.mem_cons_of_mem _ hu))

/-- A relation between the collectors before and after a walk holds of every walk that passes, if it
holds of nothing done and of one thing after the other, and if it leads from the children of a node to
the node. -/
theorem passes_rec {R : Collector → Collector → Prop} (hrefl : ∀ c, R c c)
    (htrans : ∀ {a b c}, R a b → R b c → R a c)
    (hnode : ∀ {t around c d e c'}, c.outcome (.enter t around) = .ok d → R d e →
      e.outcome (.exit t around) = .ok c' → R c c') (t : Tree) :
    ∀ {around c c'}, Passes c (t.visits around) c' → R c c' := by
  induction t using tree_induction with
  | hleaf t ht =>
    intro around c c' hp
    rw [passes_leaf ht] at hp
    exact hp ▸ hrefl c
  | hnode r first last labels children ih =>
    intro around c c' hp
    obtain ⟨d, e, hd, hchildren, he⟩ := passes_node.mp hp
    refine hnode hd ?_ he
    clear hd he hp
    generalize Tree.node r first last labels children :: around = around' at hchildren
    induction children generalizing d with
    | nil =>
      rw [visitsAll_nil, passes_nil] at hchildren
      exact hchildren ▸ hrefl d
    | cons t ts iht =>
      obtain ⟨d', ht, hp⟩ := passes_visitsAll_cons.mp hchildren
      exact htrans (ih t List.mem_cons_self ht)
        (iht (fun u hu => ih u (List.mem_cons_of_mem _ hu)) d' hp)

end Collector

end Callscope
