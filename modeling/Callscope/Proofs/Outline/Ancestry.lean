import Callscope.Proofs.Outline.Survey

/-!
# Nodes and the classes around them

The nodes of a tree, each with the nodes around it, and what the nodes around it say: the innermost class
is the first one among them that declares a class. A survey passes ranks of classes down the tree
instead; `Charted` says that it finds the same nodes in the same order, with the same class.
-/

namespace Callscope

open Collector

/-- The node that a visit enters, and the nodes around it. -/
def Visit.entered? : Visit → Option (Tree × List Tree)
  | enter u around => some (u, around)
  | _ => none

namespace Tree

/-- The nodes of a tree in the order in which they begin, each with the nodes around it, innermost
first. -/
def nodes (t : Tree) : List (Tree × List Tree) := t.walk.filterMap Visit.entered?

theorem mem_nodes {t u : Tree} {around : List Tree} :
    (u, around) ∈ t.nodes ↔ .enter u around ∈ t.walk := by
  rw [nodes, List.mem_filterMap]
  constructor
  · rintro ⟨v, hv, hentered⟩
    cases v with
    | enter => cases hentered; exact hv
    | exit | leaf => cases hentered
  · exact fun h => ⟨_, h, rfl⟩

/-- The nodes of a rule. -/
def nodesOf (r : Rule) (t : Tree) : List (Tree × List Tree) :=
  t.nodes.filter fun x => x.1.rule? = some r

/-- The nodes of a rule without the nodes around them. -/
def phrasesOf (r : Rule) (t : Tree) : List Tree := (t.nodesOf r).map Prod.fst

/-- The classes that a tree declares. -/
def declared (t : Tree) : List Tree := (t.nodes.filter fun x => x.1.declaresClass).map Prod.fst

/-- The innermost class among the nodes around another one. -/
def innermostClass? (around : List Tree) : Option Tree := around.find? declaresClass

/-- The name of the innermost class. -/
def home? (around : List Tree) : Option String := (innermostClass? around).map (partText · 1)

end Tree

namespace Survey

variable {s s' : Survey} {owner : Option Nat} {inside : List Nat} {around : List Tree} {t : Tree}
  {xs : List (Tree × List Tree)}

/-- The class of a rank, if one is given. -/
def classAt (s : Survey) (owner : Option Nat) : Option Tree := owner.bind (s.classes[·]?)

/-- A rank, if one is given, is that of the innermost class around a node. -/
structure Home (s : Survey) (owner : Option Nat) (around : List Tree) : Prop where
  known : ∀ i, owner = some i → i < s.classes.length
  innermost : s.classAt owner = Tree.innermostClass? around

/-- Classes that are met later do not change which class has a rank. -/
theorem classAt_append (h : ∀ i, owner = some i → i < s.classes.length) {more : List Tree}
    (hmore : s'.classes = s.classes ++ more) : s'.classAt owner = s.classAt owner := by
  cases owner with
  | none => rfl
  | some i =>
    rw [classAt, classAt, Option.bind_some, Option.bind_some, hmore,
      List.getElem?_append_left (h i rfl)]

theorem Home.append (h : Home s owner around) {more : List Tree}
    (hmore : s'.classes = s.classes ++ more) : Home s' owner around where
  known := by
    intro i hi
    have hlt := h.known i hi
    rw [hmore, List.length_append]
    omega
  innermost := (classAt_append h.known hmore).trans h.innermost

/-- A survey has found some nodes, in their order, and the innermost class around each of them that is
no call. -/
structure Charted (s : Survey) (xs : List (Tree × List Tree)) : Prop where
  classes : s.classes = (xs.filter fun x => x.1.declaresClass).map Prod.fst
  known : ∀ f ∈ s.fields, ∀ i, f.owner = some i → i < s.classes.length
  fields : s.fields.map (fun f => (f.node, s.classAt f.owner)) =
    (xs.filter fun x => x.1.rule? = some .fieldDeclaration).map
      fun x => (x.1, Tree.innermostClass? x.2)
  methods : s.methods.map (fun m => (m.node, m.around)) =
    xs.filter fun x => x.1.rule? = some .methodDeclaration
  homes : ∀ m ∈ s.methods, Home s m.owner m.around
  calls : s.calls.map CallSite.node =
    (xs.filter fun x => x.1.rule? = some .methodCall).map Prod.fst

theorem charted_empty : Charted {} [] :=
  ⟨rfl, by simp, rfl, rfl, by simp, rfl⟩

/-- A class is charted, and nothing that was charted before loses its class. -/
theorem Charted.addClass (h : Charted s xs) (ht : t.declaresClass = true) :
    Charted { s with classes := s.classes ++ [t] } (xs ++ [(t, around)]) where
  classes := by simp [h.classes, ht]
  known := by
    intro f hf i hi
    have hlt := h.known f hf i hi
    rw [List.length_append]
    omega
  fields := by
    have hfield : t.rule? ≠ some .fieldDeclaration := by
      intro hr
      simp [Tree.declaresClass, hr] at ht
    have hold : s.fields.map (fun f =>
        (f.node, classAt { s with classes := s.classes ++ [t] } f.owner)) =
        s.fields.map fun f => (f.node, s.classAt f.owner) := by
      apply List.map_congr_left
      intro f hf
      rw [classAt_append (h.known f hf) rfl]
    rw [hold, h.fields]
    simp [hfield]
  methods := by
    have hmethod : t.rule? ≠ some .methodDeclaration := by
      intro hr
      simp [Tree.declaresClass, hr] at ht
    simp [h.methods, hmethod]
  homes := fun m hm => (h.homes m hm).append rfl
  calls := by
    have hcall : t.rule? ≠ some .methodCall := by
      intro hr
      simp [Tree.declaresClass, hr] at ht
    simp [h.calls, hcall]

theorem Charted.addField (h : Charted s xs) (hhome : Home s owner around)
    (hr : t.rule? = some .fieldDeclaration) :
    Charted { s with fields := s.fields ++ [⟨t, owner⟩] } (xs ++ [(t, around)]) where
  classes := by simp [h.classes, Tree.declaresClass, hr]
  known := by
    intro f hf
    rcases List.mem_append.mp hf with hf | hf
    · exact h.known f hf
    · obtain rfl := List.mem_singleton.mp hf
      exact hhome.known
  fields := by
    have hself : classAt { s with fields := s.fields ++ [⟨t, owner⟩] } = s.classAt := rfl
    rw [List.filter_append, List.map_append, List.map_append, hself, h.fields]
    simp [hr, hhome.innermost]
  methods := by simp [h.methods, hr]
  homes := fun m hm => (h.homes m hm).append (List.append_nil _).symm
  calls := by simp [h.calls, hr]

theorem Charted.addMethod (h : Charted s xs) (hhome : Home s owner around)
    (hr : t.rule? = some .methodDeclaration) :
    Charted { s with methods := s.methods ++ [⟨t, owner, around⟩] } (xs ++ [(t, around)]) where
  classes := by simp [h.classes, Tree.declaresClass, hr]
  known := h.known
  fields := by
    have hself : classAt { s with methods := s.methods ++ [⟨t, owner, around⟩] } = s.classAt := rfl
    rw [hself, h.fields]
    simp [hr]
  methods := by simp [h.methods, hr]
  homes := by
    intro m hm
    rcases List.mem_append.mp hm with hm | hm
    · exact (h.homes m hm).append (List.append_nil _).symm
    · obtain rfl := List.mem_singleton.mp hm
      exact hhome.append (List.append_nil _).symm
  calls := by simp [h.calls, hr]

/-- A node of another rule adds nothing but itself, and only if it is a call. -/
theorem Charted.addOther (h : Charted s xs) {calls : List CallSite} (hclass : t.declaresClass = false)
    (hfield : t.rule? ≠ some .fieldDeclaration) (hmethod : t.rule? ≠ some .methodDeclaration)
    (hcalls : calls.map CallSite.node =
      s.calls.map CallSite.node ++ if t.rule? = some .methodCall then [t] else []) :
    Charted { s with calls := calls } (xs ++ [(t, around)]) where
  classes := by simp [h.classes, hclass]
  known := h.known
  fields := by
    have hself : classAt { s with calls := calls } = s.classAt := rfl
    rw [hself, h.fields]
    simp [hfield]
  methods := by simp [h.methods, hmethod]
  homes := fun m hm => (h.homes m hm).append (List.append_nil _).symm
  calls := by
    rw [hcalls, h.calls, List.filter_append, List.map_append]
    by_cases hr : t.rule? = some .methodCall <;> simp [hr]

/-- One more node is charted. -/
theorem Charted.note (h : Charted s xs) (hhome : Home s owner around) (inside : List Nat)
    (t : Tree) : Charted (s.note owner inside around t) (xs ++ [(t, around)]) := by
  rw [Survey.note]
  split <;> rename_i hr
  · exact h.addClass (Tree.declaresClass_iff.mpr (.inl hr))
  · exact h.addClass (Tree.declaresClass_iff.mpr (.inr hr))
  · exact h.addField hhome hr
  · exact h.addMethod hhome hr
  · exact h.addOther (by simp [Tree.declaresClass, hr]) (by simp [hr]) (by simp [hr]) (by simp [hr])
  · rename_i hclass henum hfield hmethod
    have ht : t.declaresClass = false := by
      rw [Bool.eq_false_iff, Ne, Tree.declaresClass_iff]
      rintro (h | h) <;> contradiction
    exact h.addOther ht hfield hmethod (by rw [if_neg hr, List.append_nil])

/-- The classes among the nodes that come next are added in order. -/
theorem Charted.classes_append (h : Charted s xs) {ys : List (Tree × List Tree)}
    (h' : Charted s' (xs ++ ys)) :
    s'.classes = s.classes ++ (ys.filter fun x => x.1.declaresClass).map Prod.fst := by
  rw [h'.classes, h.classes, List.filter_append, List.map_append]

/-- The class around the parts of a node is the node itself, or else the class around the node. -/
theorem Home.parts (hhome : Home s owner around) (h : Charted s xs)
    (h' : Charted s' (xs ++ [(t, around)])) : Home s' (s.ownerIn owner t) (t :: around) := by
  have hclasses := h.classes_append h'
  cases ht : t.declaresClass with
  | false =>
    have hskip : Tree.innermostClass? (t :: around) = Tree.innermostClass? around := by
      simp [Tree.innermostClass?, ht]
    have happend := hhome.append hclasses
    rw [ownerIn, ht, if_neg (by simp)]
    exact ⟨happend.known, happend.innermost.trans hskip.symm⟩
  | true =>
    have hself : s'.classes = s.classes ++ [t] := by simpa [ht] using hclasses
    rw [ownerIn, ht, if_pos rfl]
    refine ⟨?_, ?_⟩
    · intro i hi
      cases hi
      simp [hself]
    · simp [classAt, hself, Tree.innermostClass?, ht]

/-! ## Classes by their names -/

section Names

variable (hn : (s.classes.map (Tree.partText · 1)).Nodup)

include hn in
/-- If classes have different names, the name of a class tells its rank. -/
theorem map_classAt_iff {i : Nat} {k : Tree} (hk : s.classes[i]? = some k) :
    (s.classAt owner).map (Tree.partText · 1) = some (k.partText 1) ↔ owner = some i := by
  have hi := (List.getElem?_eq_some_iff.mp hk).1
  have hname : (s.classes.map (Tree.partText · 1))[i]? = some (k.partText 1) := by simp [hk]
  cases owner with
  | none => simp [classAt]
  | some j =>
    rw [classAt, Option.bind_some, ← List.getElem?_map, ← hname, eq_comm,
      List.getElem?_inj (by simpa using hi) hn, eq_comm, Option.some.injEq]

include hn in
theorem Home.home?_iff (h : Home s owner around) {i : Nat} {k : Tree}
    (hk : s.classes[i]? = some k) :
    Tree.home? around = some (k.partText 1) ↔ owner = some i := by
  rw [Tree.home?, ← h.innermost]
  exact map_classAt_iff hn hk

include hn in
/-- The same for two nodes. -/
theorem Home.home?_eq_iff {owner' : Option Nat} {around' : List Tree} (h : Home s owner around)
    (h' : Home s owner' around') : Tree.home? around = Tree.home? around' ↔ owner = owner' := by
  cases owner' with
  | some i =>
    have hi := List.getElem?_eq_getElem (h'.known i rfl)
    rw [(h'.home?_iff hn hi).mpr rfl]
    exact h.home?_iff hn hi
  | none =>
    have hnone : Tree.home? around' = none := by
      rw [Tree.home?, ← h'.innermost]
      rfl
    rw [hnone, Tree.home?, ← h.innermost]
    cases owner with
    | none => simp [classAt]
    | some j => simp [classAt, h.known j rfl]

end Names

end Survey

namespace Tree

/-- A survey charts a tree that stands inside of other nodes. -/
theorem charted_surveyFrom (t : Tree) : ∀ {owner} (inside) {around s xs},
    Survey.Home s owner around → Survey.Charted s xs →
      Survey.Charted (t.surveyFrom owner inside around s)
        (xs ++ (t.visits around).filterMap Visit.entered?) := by
  induction t using forest_induction (Q := fun ts => ∀ {owner} (inside) {around s xs},
    Survey.Home s owner around → Survey.Charted s xs →
      Survey.Charted (surveyAll owner inside around s ts)
        (xs ++ (visitsAll around ts).filterMap Visit.entered?)) with
  | hleaf t ht =>
    intro owner inside around s xs _ h
    have hnone : [Visit.leaf t].filterMap Visit.entered? = [] := rfl
    rw [visits_leaf ht, hnone, List.append_nil]
    cases t with
    | node => simp [Tree.rule?] at ht
    | token | skipped | missing => simpa only [Tree.surveyFrom] using h
  | hnode r first last labels children ih =>
    intro owner inside around s xs hhome h
    have hself := h.note hhome inside (node r first last labels children)
    have hinner := ih (s.insideIn inside (node r first last labels children))
      (hhome.parts h hself) hself
    have hexit : [Visit.exit (node r first last labels children) around].filterMap
        Visit.entered? = [] := rfl
    rw [surveyFrom, visits_node, List.filterMap_cons, List.filterMap_append, hexit,
      List.append_nil]
    simpa only [Visit.entered?, List.append_assoc, List.singleton_append] using hinner
  | @hnil owner inside around s xs _ h =>
    simpa [surveyAll, visitsAll_nil] using h
  | @hcons t ts iht ihts owner inside around s xs hhome h =>
    have hfirst := iht inside hhome h
    rw [surveyAll, visitsAll_cons, List.filterMap_append, ← List.append_assoc]
    exact ihts inside (hhome.append (h.classes_append hfirst)) hfirst

/-- A survey charts a whole tree. -/
theorem charted_survey (t : Tree) : Survey.Charted t.survey t.nodes :=
  charted_surveyFrom t [] ⟨by simp, rfl⟩ Survey.charted_empty

/-- A survey has all calls of a tree in order. -/
theorem calls_survey (t : Tree) : t.survey.calls.map CallSite.node = t.phrasesOf .methodCall :=
  t.charted_survey.calls

end Tree

end Callscope
