import Mathlib.Data.List.Basic
import Callscope.Outline.Dot

/-!
# Reading a call graph back

The lines of a graph have two shapes only, a name and an arrow between two names, and nothing marks
where a class or a method begins. They can be told apart all the same: a method's name is followed by
the arrow from its class, and a class is never followed by such an arrow, since no class has the name of
another one. So the graph of an outline can be read back, and two outlines with the same graph have the
same classes, methods and calls in the same order.
-/

namespace Callscope

/-- What a graph shows of a class: its key, the calls outside of its methods, and the keys of its methods
with the calls in each. -/
structure ClassNode where
  name : String
  calls : List String
  methods : List (String × List String)
  deriving DecidableEq, Inhabited, Repr

namespace ClassNode

def ofEntry (key : String) (c : ClassEntry) : ClassNode :=
  ⟨key, c.calls.map Call.value, c.methods.map fun (n, m) => (n, m.calls.map Call.value)⟩

def names (c : ClassNode) : List String :=
  c.name :: c.calls ++ c.methods.flatMap fun m => m.1 :: m.2

end ClassNode

namespace Outline

/-- What a graph shows of an outline. -/
def graph (o : Outline) : List ClassNode := o.classes.map fun (k, c) => .ofEntry k c

/-- All texts that a graph is written with. -/
def names (o : Outline) : List String := o.graph.flatMap ClassNode.names

/-- Every class has a key of its own, and no text has a character that ends a name or a line. -/
structure Legible (o : Outline) : Prop where
  unique : o.classes.keys.Nodup
  plain : ∀ s ∈ o.names, '"' ∉ s.toList ∧ '\n' ∉ s.toList

end Outline

/-! ## Lines -/

inductive DotLine where
  | node (name : String)
  | arrow (source target : String)

namespace DotLine

def text : DotLine → String
  | node x => Outline.dotNode x
  | arrow x y => Outline.dotEdge x y

def names : DotLine → List String
  | node x => [x]
  | arrow x y => [x, y]

/-- Reads a line by the places of its quotes. The first and the last line of a graph are not of either
shape. -/
def ofText? (cs : List Char) : Option DotLine :=
  match cs.splitOn '"' with
  | [[], x, []] => some (node (String.ofList x))
  | [[], x, [' ', '-', '>', ' '], y, [';']] => some (arrow (String.ofList x) (String.ofList y))
  | _ => none

theorem ofText?_text {l : DotLine} (h : ∀ s ∈ l.names, '"' ∉ s.toList) :
    ofText? l.text.toList = some l := by
  cases l with
  | node x =>
    have hline : (text (node x)).toList = ['"'].intercalate [[], x.toList, []] := by
      simp [text, Outline.dotNode, List.intercalate, List.intersperse]
    have hx : '"' ∉ x.toList := h x List.mem_cons_self
    rw [ofText?, hline, List.splitOn_intercalate '"' (by simp [hx]) (by simp)]
    simp
  | arrow x y =>
    have hline : (text (arrow x y)).toList =
        ['"'].intercalate [[], x.toList, [' ', '-', '>', ' '], y.toList, [';']] := by
      simp [text, Outline.dotEdge, Outline.dotNode, List.intercalate, List.intersperse]
    have hx : '"' ∉ x.toList := h x List.mem_cons_self
    have hy : '"' ∉ y.toList := h y (List.mem_cons_of_mem _ List.mem_cons_self)
    rw [ofText?, hline, List.splitOn_intercalate '"' (by simp [hx, hy]) (by simp)]
    simp

theorem newline_notMem_text {l : DotLine} (h : ∀ s ∈ l.names, '\n' ∉ s.toList) :
    '\n' ∉ l.text.toList := by
  cases l with
  | node x => simpa [text, Outline.dotNode, names] using h
  | arrow x y => simpa [text, Outline.dotEdge, Outline.dotNode, names] using h

end DotLine

/-! ## Names with the arrows after them -/

/-- A name and the arrows up to the next name. -/
structure Bundle where
  name : String
  arrows : List (String × String)

namespace Bundle

def lines (b : Bundle) : List DotLine := .node b.name :: b.arrows.map fun a => .arrow a.1 a.2

/-- Arrows from one name to others. -/
def fan (source : String) (targets : List String) : List (String × String) :=
  targets.map fun v => (source, v)

theorem map_snd_fan (source : String) (targets : List String) :
    (fan source targets).map Prod.snd = targets := by
  rw [fan, List.map_map]
  exact List.map_id targets

/-- The arrows before the first name of some lines, and the names with their arrows. -/
def gather : List DotLine → List (String × String) × List Bundle
  | [] => ([], [])
  | .arrow x y :: ls => let (arrows, bundles) := gather ls; ((x, y) :: arrows, bundles)
  | .node x :: ls => let (arrows, bundles) := gather ls; ([], ⟨x, arrows⟩ :: bundles)

theorem gather_arrows (as : List (String × String)) (ls : List DotLine) :
    gather ((as.map fun a => .arrow a.1 a.2) ++ ls) = (as ++ (gather ls).1, (gather ls).2) := by
  induction as with
  | nil => rfl
  | cons a as ih => rw [List.map_cons, List.cons_append, gather, ih, List.cons_append]

theorem gather_lines (bs : List Bundle) : gather (bs.flatMap lines) = ([], bs) := by
  induction bs with
  | nil => rfl
  | cons b bs ih =>
    rw [List.flatMap_cons, lines, List.cons_append, gather, gather_arrows, ih, List.append_nil]

end Bundle

/-! ## Classes -/

namespace ClassNode

open Callscope.Bundle

/-- A class is written as its name with arrows to its calls, and then each of its methods as a name with
the arrow from the class and arrows to the calls. -/
def bundles (c : ClassNode) : List Bundle :=
  ⟨c.name, fan c.name c.calls⟩ :: c.methods.map fun m => ⟨m.1, (c.name, m.1) :: fan m.1 m.2⟩

theorem map_text_bundles (key : String) (c : ClassEntry) :
    ((ofEntry key c).bundles.flatMap Bundle.lines).map DotLine.text = Outline.dotClass key c := by
  simp [ofEntry, bundles, Bundle.lines, fan, DotLine.text, Outline.dotClass, Outline.dotMethod,
    List.flatMap_map, List.map_flatMap, Function.comp_def]

theorem names_of_mem_bundles {c : ClassNode} {b : Bundle} {l : DotLine} {s : String}
    (hb : b ∈ c.bundles) (hl : l ∈ b.lines) (hs : s ∈ l.names) : s ∈ c.names := by
  -- The names of a bundle of arrows from one name are that name and what the arrows lead to.
  have hfan : ∀ {x : String} {vs : List String},
      l ∈ ((fan x vs).map fun a => DotLine.arrow a.1 a.2) → s = x ∨ s ∈ vs := by
    intro x vs hl
    simp only [fan, List.map_map, List.mem_map, Function.comp_apply] at hl
    obtain ⟨v, hv, rfl⟩ := hl
    rcases List.mem_cons.mp hs with rfl | hs
    · exact .inl rfl
    · exact .inr (List.mem_singleton.mp hs ▸ hv)
  rw [names, List.cons_append, List.mem_cons, List.mem_append, List.mem_flatMap]
  rcases List.mem_cons.mp hb with rfl | hb
  · rcases List.mem_cons.mp hl with rfl | hl
    · exact .inl (List.mem_singleton.mp hs)
    · exact (hfan hl).imp_right .inl
  · obtain ⟨m, hm, rfl⟩ := List.mem_map.mp hb
    simp only [Bundle.lines, List.map_cons, List.mem_cons] at hl
    rcases hl with rfl | rfl | hl
    · exact .inr (.inr ⟨m, hm, List.mem_cons.mpr (.inl (List.mem_singleton.mp hs))⟩)
    · rcases List.mem_cons.mp hs with rfl | hs
      · exact .inl rfl
      · exact .inr (.inr ⟨m, hm, List.mem_cons.mpr (.inl (List.mem_singleton.mp hs))⟩)
    · exact .inr (.inr ⟨m, hm, List.mem_cons.mpr (hfan hl)⟩)

/-- Whether the first arrow of a name comes from a class. -/
def isMethodOf (owner : Option String) (b : Bundle) : Bool :=
  owner.any fun k => b.arrows.head? == some (k, b.name)

/-- Sorts names with their arrows into the methods of the class before them and the classes that
follow. -/
def regroup (owner : Option String) : List Bundle → List (String × List String) × List ClassNode
  | [] => ([], [])
  | b :: bs =>
    if isMethodOf owner b then
      let (methods, classes) := regroup owner bs
      ((b.name, b.arrows.tail.map Prod.snd) :: methods, classes)
    else
      let (methods, classes) := regroup (some b.name) bs
      ([], ⟨b.name, b.arrows.map Prod.snd, methods⟩ :: classes)

theorem regroup_methods (k : String) (ms : List (String × List String)) (bs : List Bundle) :
    regroup (some k) (ms.map (fun m => ⟨m.1, (k, m.1) :: fan m.1 m.2⟩) ++ bs) =
      (ms ++ (regroup (some k) bs).1, (regroup (some k) bs).2) := by
  induction ms with
  | nil => rfl
  | cons m ms ih =>
    have hmethod : isMethodOf (some k) ⟨m.1, (k, m.1) :: fan m.1 m.2⟩ = true := by
      simp [isMethodOf]
    rw [List.map_cons, List.cons_append, regroup, if_pos hmethod, ih]
    simp only [List.tail_cons, map_snd_fan, List.cons_append]

/-- A class is not taken for a method of the class before it, which has another name. -/
theorem not_isMethodOf {owner : Option String} {c : ClassNode} (h : owner ≠ some c.name) :
    isMethodOf owner ⟨c.name, fan c.name c.calls⟩ = false := by
  cases owner with
  | none => rfl
  | some k =>
    have hk : c.name ≠ k := fun e => h (e ▸ rfl)
    cases hc : c.calls with
    | nil => simp [isMethodOf, fan]
    | cons v vs => simp [isMethodOf, fan, hk]

/-- The induction is on the classes; the class before them has the name of none. -/
theorem regroup_bundles {owner : Option String} {cs : List ClassNode}
    (hunique : (cs.map ClassNode.name).Nodup) (howner : ∀ c ∈ cs, owner ≠ some c.name) :
    regroup owner (cs.flatMap bundles) = ([], cs) := by
  induction cs generalizing owner with
  | nil => rfl
  | cons c cs ih =>
    rw [List.map_cons, List.nodup_cons] at hunique
    have hclass := not_isMethodOf (howner c List.mem_cons_self)
    have hrest : regroup (some c.name) (cs.flatMap bundles) = ([], cs) := by
      refine ih hunique.2 fun d hd e => hunique.1 ?_
      exact Option.some.inj e ▸ List.mem_map_of_mem hd
    rw [List.flatMap_cons, bundles, List.cons_append, regroup, hclass, regroup_methods, hrest]
    simp only [Bool.false_eq_true, if_false, map_snd_fan, List.append_nil]

end ClassNode

/-! ## Graphs of outlines -/

namespace Outline

variable {o : Outline}

/-- The lines of a graph between its first and its last line. -/
def lines (o : Outline) : List DotLine := (o.graph.flatMap ClassNode.bundles).flatMap Bundle.lines

theorem dotLines_eq (o : Outline) :
    o.dotLines = "digraph \"callGraph\" \x7b" :: (o.lines.map DotLine.text ++ ["\x7d"]) := by
  rw [dotLines, lines, graph, List.flatMap_map, List.flatMap_assoc, List.map_flatMap,
    List.cons_append]
  simp only [ClassNode.map_text_bundles]

theorem names_of_mem_lines {l : DotLine} {s : String} (hl : l ∈ o.lines) (hs : s ∈ l.names) :
    s ∈ o.names := by
  obtain ⟨b, hb, hl⟩ := List.mem_flatMap.mp hl
  obtain ⟨c, hc, hb⟩ := List.mem_flatMap.mp hb
  exact List.mem_flatMap.mpr ⟨c, hc, ClassNode.names_of_mem_bundles hb hl hs⟩

/-- The lines of a graph are those that it is written with. -/
theorem splitOn_dot (h : ∀ s ∈ o.names, '\n' ∉ s.toList) :
    o.dot.toList.splitOn '\n' = o.dotLines.map String.toList := by
  rw [dot, String.toList_intercalate]
  refine List.splitOn_intercalate '\n' ?_ (by simp [dotLines])
  rw [dotLines_eq]
  intro cs hcs
  obtain ⟨line, hline, rfl⟩ := List.mem_map.mp hcs
  rcases List.mem_cons.mp hline with rfl | hline
  · decide
  · rcases List.mem_append.mp hline with hline | hline
    · obtain ⟨l, hl, rfl⟩ := List.mem_map.mp hline
      exact l.newline_notMem_text fun s hs => h s (names_of_mem_lines hl hs)
    · rw [List.mem_singleton.mp hline]
      decide

/-- Reads a graph. -/
def graphOfDot (text : String) : List ClassNode :=
  let lines := (text.toList.splitOn '\n').filterMap DotLine.ofText?
  (ClassNode.regroup none (Bundle.gather lines).2).2

theorem filterMap_ofText?_dotLines (h : ∀ s ∈ o.names, '"' ∉ s.toList) :
    (o.dotLines.map String.toList).filterMap DotLine.ofText? = o.lines := by
  have hread : ∀ l ∈ o.lines, DotLine.ofText? l.text.toList = some l := fun l hl =>
    l.ofText?_text fun s hs => h s (names_of_mem_lines hl hs)
  have hlines : ((o.lines.map DotLine.text).map String.toList).filterMap DotLine.ofText? =
      o.lines := by
    rw [List.map_map, List.filterMap_map]
    exact (List.filterMap_congr hread).trans List.filterMap_some
  have hfirst : DotLine.ofText? "digraph \"callGraph\" \x7b".toList = none := by decide
  have hlast : DotLine.ofText? "\x7d".toList = none := by decide
  rw [dotLines_eq, List.map_cons, List.map_append, List.filterMap_cons_none hfirst,
    List.filterMap_append, hlines, List.map_singleton, List.filterMap_cons_none hlast,
    List.filterMap_nil, List.append_nil]

theorem graphOfDot_dot (h : o.Legible) : graphOfDot o.dot = o.graph := by
  have hunique : (o.graph.map ClassNode.name).Nodup := by
    have hkeys : o.graph.map ClassNode.name = o.classes.keys := by
      simp [graph, Table.keys, ClassNode.ofEntry]
    rw [hkeys]
    exact h.unique
  rw [graphOfDot, splitOn_dot fun s hs => (h.plain s hs).2,
    filterMap_ofText?_dotLines fun s hs => (h.plain s hs).1, lines, Bundle.gather_lines,
    ClassNode.regroup_bundles hunique fun c _ => Option.some_ne_none c.name |>.symm]

/-- The graph of an outline can be read back, so outlines with the same graph have the same class keys in
the same order, and for each class the same calls, the same method keys and for each method the same
calls, all in the same order. -/
theorem dot_determines_graph :
    (∀ o : Outline, o.Legible → graphOfDot o.dot = o.graph) ∧
    ∀ o₁ o₂ : Outline, o₁.Legible → o₂.Legible → o₁.dot = o₂.dot → o₁.graph = o₂.graph := by
  refine ⟨fun o h => graphOfDot_dot h, fun o₁ o₂ h₁ h₂ hdot => ?_⟩
  calc o₁.graph = graphOfDot o₁.dot := (graphOfDot_dot h₁).symm
    _ = graphOfDot o₂.dot := by rw [hdot]
    _ = o₂.graph := graphOfDot_dot h₂

/-- A class with a method of its name before a class that it calls, and the same at other places. -/
theorem dot_determines_graph_same_name :
    let o₁ : Outline := { classes := [("A", { calls := [⟨"B", 1, 4⟩], methods :=
      [("A", { calls := [⟨"A", 2, 4⟩] })] }), ("B", { calls := [⟨"A", 3, 0⟩] })] }
    let o₂ : Outline := { package := "p", classes := [("A", { calls := [⟨"B", 5, 0⟩], methods :=
      [("A", { start := 6, calls := [⟨"A", 7, 0⟩] })] }), ("B", { calls := [⟨"A", 8, 0⟩] })] }
    o₁.Legible ∧ o₂.Legible ∧ o₁.dot = o₂.dot ∧ graphOfDot o₁.dot = o₁.graph ∧
      o₁.graph = o₂.graph := by
  intro o₁ o₂
  have h₁ : o₁.Legible := ⟨by decide, by decide⟩
  have h₂ : o₂.Legible := ⟨by decide, by decide⟩
  have hdot : o₁.dot = o₂.dot := by decide
  exact ⟨h₁, h₂, hdot, dot_determines_graph.1 o₁ h₁, dot_determines_graph.2 o₁ o₂ h₁ h₂ hdot⟩

-- With one key twice, a method of a class can look like another class.
example : dot { classes := [("A", { methods := [("A", {})] })] } =
    dot { classes := [("A", {}), ("A", { calls := [⟨"A", 1, 0⟩] })] } := by
  decide

end Outline

end Callscope
