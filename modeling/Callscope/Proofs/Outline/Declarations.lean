import Mathlib.Data.List.Induction
import Callscope.Proofs.Outline.Ancestry
import Callscope.Proofs.Outline.Attribution
import Callscope.Proofs.Outline.Warnings

/-!
# Declarations grouped by class

What a tree declares, said by its nodes and the nodes around them: the fields and methods of a class are
those nodes whose innermost class has its name. A method is described by the first node of its name in
its class, and every later one is an overload. `declarations_grouped` says that this is what collecting
finds, with its stack of open classes, and that it warns of the overloads and of nothing else.
-/

namespace Callscope

open Collector

namespace Tree

/-- The fields of the class of a name. -/
def fieldsIn (k : String) (t : Tree) : List Field :=
  ((t.nodesOf .fieldDeclaration).filter fun x => home? x.2 = some k).map
    fun x => ⟨x.1.partText 0, x.1.partText 1⟩

/-- The method declarations of the class of a name. -/
def methodsIn (k : String) (t : Tree) : List (Tree × List Tree) :=
  (t.nodesOf .methodDeclaration).filter fun x => home? x.2 = some k

/-- The parameters of a method: of every other phrase between the brackets the first part is the type
and the second the name. -/
def parameters (u : Tree) : List Param :=
  match u.children[2]?.map children with
  | some [_, list, _] =>
    (everyOther list.children).map fun p => { name := p.partText 1, type := p.partText 0 }
  | _ => []

/-- What a method declaration says of the method, its calls aside. -/
def signature (u : Tree) (around : List Tree) : Method :=
  { name := u.partText 1
    start := (firstToken u).line
    stop := ((lastToken? u).map Token.line).getD 0
    depth := around.length + 1
    parameters := u.parameters
    returnType := u.partText 0 }

/-- The names of the methods that come after another one of the same name in the same class. -/
def overloads (t : Tree) : List String :=
  let ms := t.nodesOf .methodDeclaration
  (ms.zipIdx.filter fun x => (ms.take x.2).any fun y =>
    home? y.2 = home? x.1.2 && y.1.partText 1 = x.1.1.partText 1).map fun x => x.1.1.partText 1

end Tree

namespace MethodSite

variable {ms : List MethodSite} {m : MethodSite}

/-- Methods chosen by what they are and by whether they are the first of their key, and one more. -/
theorem filter_isFirst_concat (ms : List MethodSite) (m : MethodSite)
    (q : MethodSite → Bool → Bool) :
    ((ms ++ [m]).zipIdx.filter fun x => q x.1 (isFirst (ms ++ [m]) x.2)) =
      (ms.zipIdx.filter fun x => q x.1 (isFirst ms x.2)) ++
        if q m (!ms.any fun m' => m'.key = m.key) then [(m, ms.length)] else [] := by
  have hold : ms.zipIdx.filter (fun x => q x.1 (isFirst (ms ++ [m]) x.2)) =
      ms.zipIdx.filter fun x => q x.1 (isFirst ms x.2) := by
    apply List.filter_congr
    rintro ⟨m', j⟩ hx
    rw [isFirst_append (List.snd_lt_of_mem_zipIdx hx)]
  rw [List.zipIdx_append, List.filter_append, hold]
  simp [List.filter_cons, isFirst_last]

theorem eraseDups_concat (names : List String) (name : String) :
    (names ++ [name]).eraseDups = names.eraseDups ++ if name ∈ names then [] else [name] := by
  rw [List.eraseDups_append, List.removeAll, List.filter_cons, List.filter_nil]
  by_cases h : name ∈ names <;> simp [h, List.eraseDups_cons]

/-- The names of the first methods of a class are its names without the later ones. -/
theorem names_firsts (i : Nat) :
    ((ms.zipIdx.filter fun x => x.1.owner = some i && isFirst ms x.2).map fun x => x.1.name) =
      ((ms.filter fun m => m.owner = some i).map name).eraseDups := by
  induction ms using List.reverseRecOn with
  | nil => simp
  | append_singleton ms m ih =>
    have hfirsts := filter_isFirst_concat ms m fun m b => m.owner = some i && b
    rw [hfirsts, List.map_append, ih, List.filter_append, List.map_append]
    by_cases howner : m.owner = some i
    · have hlast : ([m].filter fun m => m.owner = some i).map name = [m.name] := by simp [howner]
      have hknown : (ms.any fun m' => m'.key = m.key) = true ↔
          m.name ∈ (ms.filter fun m => m.owner = some i).map name := by
        simp [key, howner, and_assoc]
      rw [hlast, eraseDups_concat]
      by_cases hmem : m.name ∈ (ms.filter fun m => m.owner = some i).map name
      · rw [if_pos hmem, hknown.mpr hmem]
        simp
      · rw [if_neg hmem, Bool.eq_false_iff.mpr fun h => hmem (hknown.mp h)]
        simp [howner]
    · simp [howner]

/-- The first method of its key is the one that is found first. -/
theorem find?_of_isFirst {j : Nat} (hj : ms[j]? = some m) (hfirst : isFirst ms j = true) :
    ms.find? (fun m' => m'.key = m.key) = some m := by
  obtain ⟨hlt, rfl⟩ := List.getElem?_eq_some_iff.mp hj
  rw [isFirst, hj] at hfirst
  simp only [Bool.not_eq_true', List.any_eq_false] at hfirst
  rw [List.find?_eq_some_iff_getElem]
  refine ⟨decide_eq_true rfl, j, hlt, rfl, ?_⟩
  intro k hk
  have hmem : ms[k] ∈ ms.take j := List.mem_take_iff_getElem.mpr ⟨k, by omega, rfl⟩
  simpa using hfirst ms[k] hmem

end MethodSite

/-! ## Signatures -/

namespace Collector

theorem map_of_mapM {α β : Type} {f : α → Except Fault β} {g : α → β} {l : List α} {bs : List β}
    (hf : ∀ a b, f a = .ok b → b = g a) (h : l.mapM f = .ok bs) : bs = l.map g := by
  induction l generalizing bs with
  | nil =>
    cases h
    rfl
  | cons a as ih =>
    rw [List.mapM_cons] at h
    obtain ⟨b, hb, h⟩ := Noted.bind_eq_ok.mp h
    obtain ⟨rest, hrest, h⟩ := Noted.bind_eq_ok.mp h
    cases h
    rw [List.map_cons, ← hf a b hb, ← ih hrest]

theorem getElem?_of_child {t u : Tree} {i : Nat} (h : child t i = .ok u) :
    t.children[i]? = some u := by
  obtain ⟨found, hfound, h⟩ := Noted.bind_eq_ok.mp h
  cases found with
  | none => cases h
  | some v =>
    cases h
    unfold child? at hfound
    split at hfound
    · cases hfound
    · exact Except.ok.inj hfound

theorem parameters_of_parametersPart {c : Collector} {t brackets : Tree} {ps : List Param}
    (hb : child t 2 = .ok brackets) (h : (c.parametersPart brackets).result = .ok ps) :
    ps = t.parameters := by
  simp only [parametersPart, stage, Noted.result_bind, Noted.result_note, Noted.ok_bind] at h
  rw [Tree.parameters, getElem?_of_child hb, Option.map_some]
  split at h
  · rename_i hchildren
    rw [hchildren]
    refine map_of_mapM (fun p param hp => ?_) h
    obtain ⟨type, htype, hp⟩ := Noted.bind_eq_ok.mp hp
    obtain ⟨name, hname, hp⟩ := Noted.bind_eq_ok.mp hp
    cases hp
    rw [Tree.partText_of_childText htype, Tree.partText_of_childText hname]
  · rename_i hother
    cases h
    split
    · rename_i heq
      exact absurd (Option.some.inj heq) (hother _ _ _)
    · rfl

/-- What is kept of a method is what its declaration says. -/
theorem signature_of_methodPart {c : Collector} {t : Tree} {around : List Tree} {name : String}
    {m : Method} (hname : childText t 1 = .ok name)
    (h : (c.methodPart t around name).result = .ok m) : m = t.signature around := by
  simp only [methodPart, Noted.result_bind, Noted.result_lift] at h
  obtain ⟨returnType, hreturn, h⟩ := Noted.bind_eq_ok.mp h
  split at h
  · cases h
  · rename_i last hlast
    simp only [Noted.result_bind, Noted.result_lift, Noted.result_pure] at h
    obtain ⟨brackets, hbrackets, h⟩ := Noted.bind_eq_ok.mp h
    obtain ⟨parameters, hparameters, h⟩ := Noted.bind_eq_ok.mp h
    cases h
    rw [Tree.signature, hlast, Tree.partText_of_childText hname,
      Tree.partText_of_childText hreturn, ← parameters_of_parametersPart hbrackets hparameters]
    rfl

/-! ## Overloads and warnings -/

end Collector

/-- The names of the methods in a survey that are not the first of their key. -/
def Survey.overloads (s : Survey) : List String :=
  (s.methods.zipIdx.filter fun x => !MethodSite.isFirst s.methods x.2).map fun x => x.1.name

namespace Collector

/-- The first methods of a survey have been read as declared, and there was a warning for each of the
others. -/
structure Accounted (s : Survey) (warnings : List LogLine) : Prop where
  read : ∀ x ∈ s.methods.zipIdx.filter fun x => MethodSite.isFirst s.methods x.2,
    { x.1.info with calls := [] } = x.1.node.signature x.1.around
  warned : warnings = s.overloads.map overloadWarning

variable {c c' : Collector} {s : Survey} {stack inside : List Nat} {t : Tree} {around : List Tree}
  {warnings : List LogLine}

theorem Accounted.method (ha : Accounted s warnings) (h : Surveyed c s stack inside)
    (hm : c.methodOutcome t around = .ok c') :
    Accounted { s with methods := s.methods ++ [⟨t, stack.head?, around⟩] }
      (warnings ++ c.methodWarnings t) := by
  obtain ⟨name, j, hname, hj, hcase⟩ := methodOutcome_ok hm
  obtain ⟨below, rfl⟩ := h.coherent.stack_of_innermost hj
  have hlt := (h.coherent.stacked j List.mem_cons_self).1
  have hkey : MethodSite.key ⟨t, some j, around⟩ = (some j, name) :=
    Prod.ext rfl (Tree.partText_of_childText hname)
  have hhas := h.has_method hlt hkey
  refine ⟨?_, ?_⟩
  · have hfirsts := MethodSite.filter_isFirst_concat s.methods ⟨t, some j, around⟩
      fun _ b => b
    intro x hx
    rcases List.mem_append.mp (hfirsts ▸ hx) with hx | hx
    · exact ha.read x hx
    · rw [← hhas] at hx
      rcases hcase with ⟨hold, -⟩ | ⟨hnew, m, i, hpart, -, -⟩
      · simp [hold] at hx
      · obtain rfl : x = (⟨t, some j, around⟩, s.methods.length) := by simpa [hnew] using hx
        rw [info_of_methodPart hname hpart]
        exact signature_of_methodPart hname hpart
  · have hothers := MethodSite.filter_isFirst_concat s.methods ⟨t, some j, around⟩
      fun _ b => !b
    have hwarnings : c.methodWarnings t =
        if (c.entry j).methods.has name then [overloadWarning name] else [] := by
      rw [methodWarnings, hname, hj]
    rw [hwarnings, ha.warned, hhas, Survey.overloads, Survey.overloads, List.head?_cons, hothers,
      List.map_append, List.map_append, Bool.not_not]
    split
    · rw [List.map_singleton, List.map_singleton, MethodSite.name,
        Tree.partText_of_childText hname]
    · rfl

theorem Accounted.enter (ha : Accounted s warnings) (h : Surveyed c s stack inside)
    (hd : c.outcome (.enter t around) = .ok c') :
    Accounted (s.note stack.head? inside around t)
      (warnings ++ c.warningsOf (.enter t around)) := by
  by_cases hr : t.rule? = some .methodDeclaration
  · have hm : c.methodOutcome t around = .ok c' := by simpa only [outcome, hr] using hd
    simp only [Survey.note, warningsOf, hr, if_true]
    exact ha.method h hm
  · have hsame : (s.note stack.head? inside around t).methods = s.methods := by
      rw [Survey.note]
      split <;> first | rfl | contradiction
    have hover : (s.note stack.head? inside around t).overloads = s.overloads := by
      rw [Survey.overloads, hsame, Survey.overloads]
    rw [warningsOf, if_neg hr, List.append_nil]
    exact ⟨hsame ▸ ha.read, hover ▸ ha.warned⟩

/-- A walk that passes accounts for all methods of the tree. -/
theorem accounted_of_passes (t : Tree) :
    ∀ {around c c' s stack inside warnings}, Surveyed c s stack inside →
      Passes c (t.visits around) c' → (c'.pool.map ClassEntry.name).Nodup →
      Accounted s warnings → Accounted (t.surveyFrom stack.head? inside around s)
        (warnings ++ (c.follow (t.visits around)).warnings) := by
  induction t using forest_induction (Q := fun ts =>
    ∀ {around c c' s stack inside warnings}, Surveyed c s stack inside →
      Passes c (Tree.visitsAll around ts) c' → (c'.pool.map ClassEntry.name).Nodup →
      Accounted s warnings → Accounted (Tree.surveyAll stack.head? inside around s ts)
        (warnings ++ (c.follow (Tree.visitsAll around ts)).warnings)) with
  | hleaf t ht =>
    intro around c c' s stack inside warnings _ _ _ ha
    have hnone : (c.follow [.leaf t]).warnings = [] := rfl
    rw [visits_leaf ht, hnone, List.append_nil]
    cases t with
    | node => simp [Tree.rule?] at ht
    | token | skipped | missing => simpa only [Tree.surveyFrom] using ha
  | hnode r first last labels children ih =>
    intro around c c' s stack inside warnings h hp hn ha
    obtain ⟨d, e, hd, hchildren, he⟩ := passes_node.mp hp
    have hexit : Passes e [.exit (.node r first last labels children) around] c' :=
      passes_cons.mpr ⟨c', he, passes_nil.mpr rfl⟩
    have hne := nodup_of_passes hexit hn
    have henter := h.enter hd (nodup_of_passes hchildren hne)
    have hinner := ih henter hchildren hne (ha.enter h hd)
    have hleave : (e.follow [.exit (.node r first last labels children) around]).warnings = [] := by
      rw [warnings_follow_ok he]
      rfl
    rw [head?_stackIn] at hinner
    rw [Tree.surveyFrom, visits_node, warnings_follow_ok hd, warnings_follow_append hchildren,
      hleave, List.append_nil, ← List.append_assoc]
    exact hinner
  | @hnil around c c' s stack inside warnings _ _ _ ha =>
    have hnone : (c.follow []).warnings = [] := rfl
    rw [visitsAll_nil, hnone, List.append_nil]
    simpa only [Tree.surveyAll] using ha
  | @hcons t ts iht ihts around c c' s stack inside warnings h hp hn ha =>
    obtain ⟨d, ht, hts⟩ := passes_visitsAll_cons.mp hp
    have hnd := nodup_of_passes hts hn
    rw [Tree.surveyAll, visitsAll_cons, warnings_follow_append ht, ← List.append_assoc]
    exact ihts (surveyed_of_passes t h ht hnd) hts hn (iht h ht hnd ha)

theorem accounted_collect (h : (collect {} t).fault = none)
    (hn : ((collect {} t).collector.pool.map ClassEntry.name).Nodup) :
    Accounted t.survey (collect {} t).warnings :=
  accounted_of_passes t surveyed_fresh ⟨h, rfl⟩ hn ⟨by simp, rfl⟩

end Collector

/-! ## Surveys and nodes -/

namespace Survey

variable {s : Survey} {t : Tree} (hc : Charted s t.nodes)
  (hn : (s.classes.map (Tree.partText · 1)).Nodup)

include hc hn

/-- The fields of a class are those whose innermost class has its name. -/
theorem fieldsOf_eq {i : Nat} {k : Tree} (hk : s.classes[i]? = some k) :
    s.fieldsOf i = t.fieldsIn (k.partText 1) := by
  let describe : Tree × Option Tree → Field := fun y => ⟨y.1.partText 0, y.1.partText 1⟩
  let homed : Tree × Option Tree → Bool := fun y => y.2.map (Tree.partText · 1) = some (k.partText 1)
  have hnodes : t.fieldsIn (k.partText 1) = (((t.nodesOf .fieldDeclaration).map
      fun x => (x.1, Tree.innermostClass? x.2)).filter homed).map describe := by
    rw [Tree.fieldsIn, List.filter_map, List.map_map]
    rfl
  rw [hnodes, Tree.nodesOf, ← hc.fields, List.filter_map, List.map_map, fieldsOf]
  apply congrArg (List.map FieldSite.field)
  apply List.filter_congr
  intro f hf
  rw [Function.comp_apply, decide_eq_decide]
  exact (map_classAt_iff hn hk).symm

theorem methodsIn_eq {i : Nat} {k : Tree} (hk : s.classes[i]? = some k) :
    t.methodsIn (k.partText 1) =
      (s.methods.filter fun m => m.owner = some i).map fun m => (m.node, m.around) := by
  rw [Tree.methodsIn, Tree.nodesOf, ← hc.methods, List.filter_map]
  congr 1
  apply List.filter_congr
  intro m hm
  rw [Function.comp_apply, decide_eq_decide]
  exact (hc.homes m hm).home?_iff hn hk

theorem overloads_eq : s.overloads = t.overloads := by
  rw [Tree.overloads, Tree.nodesOf, ← hc.methods, overloads]
  simp only [List.zipIdx_map, List.filter_map, List.map_map, ← List.map_take, List.any_map,
    Function.comp_def, Prod.map, id]
  apply congrArg (List.map fun x : MethodSite × Nat => x.1.name)
  apply List.filter_congr
  rintro ⟨m, j⟩ hx
  have hj := List.mk_mem_zipIdx_iff_getElem?.mp hx
  have hm := List.mem_of_getElem? hj
  rw [MethodSite.isFirst, hj, Bool.not_not]
  rw [Bool.eq_iff_iff, List.any_eq_true, List.any_eq_true]
  refine exists_congr fun m' => and_congr_right fun hm' => ?_
  have hhome := (hc.homes m' (List.mem_of_mem_take hm')).home?_eq_iff hn (hc.homes m hm)
  simp [MethodSite.key, MethodSite.name, hhome]

end Survey

namespace Collector

theorem Grouped.names_eq {c : Collector} {s : Survey} (h : Grouped c s) :
    c.pool.map ClassEntry.name = s.classes.map (Tree.partText · 1) := by
  apply List.ext_getElem?
  intro i
  rw [List.getElem?_map, List.getElem?_map]
  rcases Nat.lt_or_ge i s.classes.length with hi | hi
  · have hk := List.getElem?_eq_getElem hi
    have hname := h.names i _ hk
    rw [entry, List.getD_eq_getElem?_getD, List.getElem?_eq_getElem (h.count ▸ hi)] at hname
    rw [hk, List.getElem?_eq_getElem (h.count ▸ hi)]
    exact congrArg some hname
  · rw [List.getElem?_eq_none hi, List.getElem?_eq_none (h.count ▸ hi)]
    rfl

theorem Grouped.keys_outline {c : Collector} {s : Survey} (h : Grouped c s) :
    c.outline.classes.keys = s.classes.map (Tree.partText · 1) := by
  have hpool : c.pool.zipIdx.map (ClassEntry.name ∘ Prod.fst) = c.pool.map ClassEntry.name := by
    rw [← List.map_map, List.zipIdx_map_fst]
  rw [← h.names_eq, ← hpool, outline, h.classes]
  simp [Table.keys]

/-- A method that is kept is described by the first declaration of its name in its class. -/
theorem Accounted.find?_method {s : Survey} {warnings : List LogLine} (ha : Accounted s warnings)
    {i : Nat} {n : String} {m : Method} (hm : (n, m) ∈ s.methodsOf i) : ∃ site,
      s.methods.find? (fun m' => m'.key = (some i, n)) = some site ∧
      m = { site.node.signature site.around with calls := m.calls } := by
  obtain ⟨⟨site, j⟩, hx, hm⟩ := List.mem_map.mp hm
  obtain ⟨hname, rfl⟩ := Prod.mk.inj hm
  obtain ⟨hmem, hx⟩ := List.mem_filter.mp hx
  obtain ⟨howner, hfirst⟩ := Bool.and_eq_true_iff.mp hx
  have hkey : site.key = (some i, n) := Prod.ext (of_decide_eq_true howner) hname
  refine ⟨site, ?_, ?_⟩
  · rw [← hkey]
    exact MethodSite.find?_of_isFirst (List.mk_mem_zipIdx_iff_getElem?.mp hmem) hfirst
  · rw [← ha.read (site, j) (List.mem_filter.mpr ⟨hmem, hfirst⟩)]

/-- What collecting finds in a tree, if its walk ends without a fault and its classes get different
names. Classes are kept in the order in which they begin. The fields of a class are those whose innermost
class it is. Its methods are kept in the order in which their names first come up, each as the first
declaration of its name says. There is a warning for every other method declaration, and none besides. -/
theorem declarations_grouped (t : Tree) (h : (collect {} t).fault = none)
    (hn : ((collect {} t).collector.pool.map ClassEntry.name).Nodup) :
    let o := (collect {} t).collector.outline
    o.classes.keys = t.declared.map (Tree.partText · 1) ∧
    (∀ k e, (k, e) ∈ o.classes →
      e.fields = t.fieldsIn k ∧
      e.methods.keys = ((t.methodsIn k).map fun x => x.1.partText 1).eraseDups ∧
      ∀ n m, (n, m) ∈ e.methods → ∃ u around,
        (t.methodsIn k).find? (fun x => x.1.partText 1 = n) = some (u, around) ∧
        m = { u.signature around with calls := m.calls }) ∧
    (collect {} t).warnings = t.overloads.map overloadWarning := by
  intro o
  have hs := surveyed_collect h hn
  have ha := accounted_collect h hn
  have hc := t.charted_survey
  rw [hs.names_eq] at hn
  refine ⟨?_, ?_, ?_⟩
  · rw [Tree.declared, ← hc.classes]
    exact hs.keys_outline
  · intro k e he
    obtain ⟨i, u, hu, hpool, rfl, rfl⟩ := hs.mem_outline he
    refine ⟨?_, ?_, ?_⟩
    · rw [hs.fields i hpool, Survey.fieldsOf_eq hc hn hu]
    · rw [hs.methods i hpool, Survey.methodsIn_eq hc hn hu, List.map_map, Table.keys,
        Survey.methodsOf, List.map_map]
      exact MethodSite.names_firsts i
    · intro n m hm
      rw [hs.methods i hpool] at hm
      obtain ⟨site, hsite, hm⟩ := ha.find?_method hm
      refine ⟨site.node, site.around, ?_, hm⟩
      have hsame : (fun m : MethodSite => decide
          ((decide (m.owner = some i) = true) ∧ decide (m.node.partText 1 = n) = true)) =
          fun m => decide (m.key = (some i, n)) := by
        funext m
        simp [MethodSite.key, MethodSite.name]
      rw [Survey.methodsIn_eq hc hn hu, List.find?_map, List.find?_filter]
      simp only [Function.comp_def, hsame, hsite, Option.map_some]
  · rw [ha.warned, Survey.overloads_eq hc hn]

open Callscope.Tree in
/-- A field, a class inside of a method with a method of the same name, and an overload. -/
theorem declarations_grouped_nested :
    let t := unitOf [classOf "A" [phrase .fieldDeclaration [named "T", named "x", word .semi ";"],
      methodOf "m" [] [classOf "B" [methodOf "m" [] []]], methodOf "n" [] [],
      methodOf "m" [parameter "y"] []]]
    (collect {} t).fault = none ∧
    ((collect {} t).collector.pool.map ClassEntry.name).Nodup ∧
    (collect {} t).collector.outline.classes.keys = ["A", "B"] ∧
    (∃ e, ("A", e) ∈ (collect {} t).collector.outline.classes ∧ e.fields = [⟨"T", "x"⟩] ∧
      e.methods.keys = ["m", "n"] ∧ ∀ m, ("m", m) ∈ e.methods → m.parameters = []) ∧
    (collect {} t).warnings = [overloadWarning "m"] := by
  intro t
  have hfault : (collect {} t).fault = none := by decide +kernel
  have hnames : ((collect {} t).collector.pool.map ClassEntry.name).Nodup := by decide +kernel
  obtain ⟨hkeys, hclasses, hwarnings⟩ := declarations_grouped t hfault hnames
  have hdeclared : t.declared.map (Tree.partText · 1) = ["A", "B"] := by decide +kernel
  have hA : "A" ∈ (collect {} t).collector.outline.classes.keys := by
    rw [hkeys, hdeclared]
    exact List.mem_cons_self
  obtain ⟨⟨k, e⟩, he, rfl⟩ := List.mem_map.mp hA
  obtain ⟨hfields, hmethods, hfirst⟩ := hclasses _ e he
  refine ⟨hfault, hnames, hkeys.trans hdeclared, ⟨e, he, ?_, ?_, ?_⟩, ?_⟩
  · rw [hfields]
    decide +kernel
  · rw [hmethods]
    decide +kernel
  · intro m hm
    obtain ⟨u, around, hfind, hm⟩ := hfirst "m" m hm
    have hnone : ((t.methodsIn "A").find? fun x => x.1.partText 1 = "m").map
        (fun x => (x.1.signature x.2).parameters) = some [] := by decide +kernel
    rw [hfind] at hnone
    rw [hm]
    exact Option.some.inj hnone
  · rw [hwarnings]
    decide +kernel

end Collector

end Callscope
