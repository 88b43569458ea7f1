import Callscope.Proofs.Outline.Ancestry
import Callscope.Proofs.Outline.CallSites
import Callscope.Proofs.Token.Order

/-!
# Which invocations are collected

A method is invoked by its name in three forms: by a call, after explicit type arguments, and after
`super`. Only calls are collected. No other form can pass for a call, since a token stands in one place
of the tree only, and the nodes around the name of an invocation tell its form. `invocation_recorded_iff`
says that an invocation is recorded just if it is a call.
-/

namespace Callscope

open Collector

namespace Tree

/-- The invocation that a node is, with the text and the place of the name. -/
def invocation? (t : Tree) : Option Call :=
  match t.rule? with
  | some .methodCall => some (callOf t (t.partText 0))
  | some .explicitGenericInvocationSuffix | some .superSuffix =>
    if t.has (.phrase .arguments) then
      (t.part? (· == .phrase .identifier)).map fun name => callOf name name.text
    else none
  | _ => none

/-! ## Tokens and the nodes around them -/

mutual

/-- The tokens at the leaves from left to right, each with the nodes around it, innermost first. -/
def sites (around : List Tree) : Tree → List (Token × List Tree)
  | token x | skipped x => [(x, around)]
  | missing _ => []
  | node r first last labels children =>
    sitesAll (node r first last labels children :: around) children

def sitesAll (around : List Tree) : List Tree → List (Token × List Tree)
  | [] => []
  | t :: ts => sites around t ++ sitesAll around ts

end

variable {text : String} {t u p : Tree} {x : Token} {r : Rule} {around above : List Tree}

theorem sitesAll_eq (around ts : List Tree) : sitesAll around ts = ts.flatMap (sites around) := by
  induction ts with
  | nil => rfl
  | cons t ts ih => rw [sitesAll, ih, List.flatMap_cons]

theorem sites_of_rule (h : t.rule? = some r) (around : List Tree) :
    t.sites around = t.children.flatMap (sites (t :: around)) := by
  cases t with
  | token | skipped | missing => cases h
  | node => rw [sites, sitesAll_eq, children]

theorem map_fst_sites (t : Tree) : ∀ around, (t.sites around).map Prod.fst = t.tokens := by
  induction t using tree_induction with
  | hleaf t ht =>
    intro around
    cases t with
    | node => cases ht
    | token | skipped | missing => simp [sites, tokens, leaves, token?]
  | hnode r first last labels children ih =>
    intro around
    rw [sites, sitesAll_eq, List.map_flatMap, tokens_node]
    exact List.flatMap_congr fun p hp => ih p hp _

/-- The sites of a node are sites of the tree. -/
theorem mem_sites_of_enter (t : Tree) {s : Token × List Tree} (hs : s ∈ u.sites above) :
    ∀ {around}, .enter u above ∈ t.visits around → s ∈ t.sites around := by
  induction t using tree_induction with
  | hleaf t ht =>
    intro around hu
    rw [visits_leaf ht] at hu
    cases List.mem_singleton.mp hu
  | hnode r first last labels children ih =>
    intro around hu
    rw [visits_node] at hu
    rcases List.mem_cons.mp hu with hu | hu
    · cases hu
      exact hs
    · rcases List.mem_append.mp hu with hu | hu
      · obtain ⟨p, hmem, hu⟩ := mem_visitsAll.mp hu
        rw [sites, sitesAll_eq, List.mem_flatMap]
        exact ⟨p, hmem, ih p hmem hu⟩
      · cases List.mem_singleton.mp hu

/-- A token has the same nodes around it wherever it is found. -/
theorem ReadFrom.site_unique (h : t.ReadFrom text) {p q : List Tree} (hp : (x, p) ∈ t.sites around)
    (hq : (x, q) ∈ t.sites around) (hk : x.kind ≠ .eof) : p = q := by
  have hnodup : (((t.sites around).filter fun s => s.1.kind ≠ .eof).map Prod.fst).Nodup := by
    have hfilter := List.filter_map (f := Prod.fst) (p := fun x : Token => x.kind ≠ .eof)
      (l := t.sites around)
    rw [map_fst_sites] at hfilter
    have htokens := (Lexed.visible_nodup text).sublist h.covers.sublist
    rw [hfilter] at htokens
    exact htokens
  have hmem : ∀ {p}, (x, p) ∈ t.sites around →
      (x, p) ∈ (t.sites around).filter fun s => s.1.kind ≠ .eof :=
    fun hp => List.mem_filter.mpr ⟨hp, by simpa using hk⟩
  exact (Prod.mk.inj (List.inj_on_of_nodup_map hnodup (hmem hp) (hmem hq) rfl)).2

/-! ## Names of invocations -/

theorem sites_of_children (hr : t.rule? = some r) (h : t.children = [.token x])
    (around : List Tree) : t.sites around = [(x, t :: around)] := by
  rw [sites_of_rule hr, h, List.flatMap_singleton, sites]

/-- A name after which an invocation goes is a token of the text and stands in the name. -/
theorem ReadFrom.site_name (h : t.ReadFrom text) (hr : t.rule? = some .identifier)
    (around : List Tree) :
    ∃ x ∈ (Lexed.ofText text).visible, x.kind ≠ .eof ∧ (x, t :: around) ∈ t.sites around ∧
      callOf t t.text = ⟨x.text, x.line, x.column⟩ := by
  obtain ⟨x, hchildren, _, hk⟩ := h.derived.children_identifier hr
  have hsites := sites_of_children hr hchildren around
  have heof : x.kind ≠ .eof := (Java.isWord_of_calleeKinds _ (List.mem_append_left _ hk)).2
  have htokens : t.tokens = [x] := by rw [← map_fst_sites t around, hsites]; rfl
  have hfirst : firstToken t = x := by
    cases h.anchored with
    | token => cases hr
    | @node r first last labels children begun anchors =>
      rw [tokens_node] at htokens
      exact begun x (by rw [htokens]; rfl)
  refine ⟨x, h.mem_visible (htokens ▸ List.mem_singleton_self x) heof, heof, ?_, ?_⟩
  · rw [hsites]
    exact List.mem_singleton_self _
  · rw [callOf, hfirst, text_of_children hchildren]

/-- What stands before the bracket of a call is a leaf, or a node around one. -/
theorem ReadFrom.sites_callee (h : p.ReadFrom text)
    (hs : Symbol.of p ∈ [Symbol.phrase .identifier, .token .kwThis, .token .kwSuper])
    (around : List Tree) :
    ∃ x path, p.sites around = [(x, path)] ∧ (path = around ∨ path = p :: around) := by
  simp only [List.mem_cons, List.not_mem_nil, or_false] at hs
  rcases hs with hs | hs | hs
  · have hr := of_eq_phrase.mp hs
    obtain ⟨x, hchildren, _⟩ := h.derived.children_identifier hr
    exact ⟨x, p :: around, sites_of_children hr hchildren around, .inr rfl⟩
  · obtain ⟨x, rfl, _⟩ := h.derived.of_token hs
    exact ⟨x, around, by rw [sites], .inl rfl⟩
  · obtain ⟨x, rfl, _⟩ := h.derived.of_token hs
    exact ⟨x, around, by rw [sites], .inl rfl⟩

/-- The call is the first or the second node around its name. -/
theorem ReadFrom.site_call (h : t.ReadFrom text) (hr : t.rule? = some .methodCall)
    (around : List Tree) :
    ∃ x ∈ (Lexed.ofText text).visible, x.kind ≠ .eof ∧
      callOf t (t.partText 0) = ⟨x.text, x.line, x.column⟩ ∧
      ∃ path, (x, path) ∈ t.sites around ∧ (path[0]? = some t ∨ path[1]? = some t) := by
  obtain ⟨⟨s, hs, hfirst⟩, _⟩ := h.derived.symbols_call hr
  obtain ⟨c, hc, rfl⟩ := child_of_symbol hfirst
  obtain ⟨name, bracket, more, htokens, hk, _, _, hcall⟩ := h.called hr
  obtain ⟨x, path, hsites, hpath⟩ := (h.part (List.mem_of_getElem? hc)).sites_callee hs (t :: around)
  have hbegins : ∃ rest, t.sites around = (x, path) :: rest := by
    cases hchildren : t.children with
    | nil =>
      rw [hchildren] at hc
      cases hc
    | cons d ds =>
      rw [hchildren] at hc
      cases hc
      rw [sites_of_rule hr, hchildren, List.flatMap_cons, hsites]
      exact ⟨_, rfl⟩
  obtain ⟨rest, hbegins⟩ := hbegins
  -- The first token of the call is the one that it is recorded as.
  obtain rfl : x = name := by
    rw [← map_fst_sites t around, hbegins] at htokens
    exact (List.cons.inj htokens).1
  have heof := (Java.isWord_of_calleeKinds _ hk).2
  refine ⟨x, h.mem_visible (htokens ▸ List.mem_cons_self) heof, heof, hcall, path, ?_, ?_⟩
  · rw [hbegins]
    exact List.mem_cons_self
  · rcases hpath with rfl | rfl
    · exact .inl rfl
    · exact .inr rfl

end Tree

namespace Collector

variable {text : String} {t u : Tree} {above : List Tree} {k : Call}

/-- A call is recorded. -/
theorem call_recorded (h : (collect {} t).fault = none)
    (hn : ((collect {} t).collector.pool.map ClassEntry.name).Nodup)
    (hu : .enter u above ∈ t.walk) (hr : u.rule? = some .methodCall) :
    callOf u (u.partText 0) ∈ (collect {} t).collector.outline.calls := by
  have hs := surveyed_collect h hn
  have hphrase : u ∈ t.phrasesOf .methodCall :=
    List.mem_map.mpr ⟨(u, above), List.mem_filter.mpr ⟨Tree.mem_nodes.mpr hu, decide_eq_true hr⟩, rfl⟩
  rw [← Tree.calls_survey] at hphrase
  obtain ⟨site, hsite, rfl⟩ := List.mem_map.mp hphrase
  rw [hs.calls_outline, List.mem_flatMap]
  refine ⟨t.survey.place site, hs.mem_places hsite, List.mem_map.mpr ⟨site, ?_, rfl⟩⟩
  exact List.mem_filter.mpr ⟨hsite, decide_eq_true rfl⟩

/-- An invocation that is no call goes by a name in it. -/
theorem named_of_invocation (hr : u.rule? ≠ some .methodCall) (hk : u.invocation? = some k) :
    ∃ r name, u.rule? = some r ∧ name ∈ u.children ∧ name.rule? = some .identifier ∧
      callOf name name.text = k := by
  have hfound : ∀ {r}, u.rule? = some r →
      (u.part? (· == .phrase .identifier)).map (fun name => callOf name name.text) = some k →
      ∃ r name, u.rule? = some r ∧ name ∈ u.children ∧ name.rule? = some .identifier ∧
        callOf name name.text = k := by
    intro r hur hmap
    obtain ⟨name, hname, hcall⟩ := Option.map_eq_some_iff.mp hmap
    have hs := List.find?_some hname
    exact ⟨r, name, hur, List.mem_of_find?_eq_some hname, Tree.of_eq_phrase.mp (eq_of_beq hs), hcall⟩
  unfold Tree.invocation? at hk
  split at hk
  · contradiction
  · rename_i hur
    split at hk
    · exact hfound hur hk
    · cases hk
  · rename_i hur
    split at hk
    · exact hfound hur hk
    · cases hk
  · cases hk

/-- What stands after explicit type arguments or after `super` is not recorded. -/
theorem suffix_not_recorded (h : t.ReadFrom text) (hu : .enter u above ∈ t.walk)
    (hr : u.rule? ≠ some .methodCall) (hk : u.invocation? = some k) :
    k ∉ (collect {} t).collector.outline.calls := by
  intro hmem
  have hholds : (collect {} t).collector.outline.Holds (fun _ => True) fun call =>
      ∃ v around, .enter v around ∈ t.walk ∧ v.rule? = some .methodCall ∧
        callOf v (v.partText 0) = call :=
    holds_collect fun v around hv => ⟨fun _ => trivial, fun hr => ⟨v, around, hv, hr, rfl⟩⟩
  obtain ⟨v, around, hv, hvr, hcall⟩ := hholds.calls k hmem
  obtain ⟨r, name, hur, hname, hnr, rfl⟩ := named_of_invocation hr hk
  have hreadu := of_enter_mem_visits (fun hp => hp.part) t h hu
  have hreadv := of_enter_mem_visits (fun hp => hp.part) t h hv
  obtain ⟨x, hx, heof, hsite, hxcall⟩ := (hreadu.part hname).site_name hnr (u :: above)
  obtain ⟨y, hy, _, hycall, path, hpath, hnext⟩ := hreadv.site_call hvr around
  obtain rfl : y = x := by
    rw [hxcall, hycall, Call.mk.injEq] at hcall
    exact Lexed.eq_of_place hy hx (Int.ofNat.inj hcall.2.1) (Int.ofNat.inj hcall.2.2)
  -- The one token has one path to the root.
  have husite : (y, name :: u :: above) ∈ u.sites above := by
    rw [Tree.sites_of_rule hur, List.mem_flatMap]
    exact ⟨name, hname, hsite⟩
  have hsame : path = name :: u :: above :=
    h.site_unique (Tree.mem_sites_of_enter t hpath hv) (Tree.mem_sites_of_enter t husite hu) heof
  rw [hsame] at hnext
  rcases hnext with heq | heq
  · obtain rfl : name = v := Option.some.inj heq
    rw [hnr] at hvr
    cases hvr
  · obtain rfl : u = v := Option.some.inj heq
    exact hr hvr

theorem recorded_iff (h : t.ReadFrom text) (hfault : (collect {} t).fault = none)
    (hn : ((collect {} t).collector.pool.map ClassEntry.name).Nodup)
    (hu : .enter u above ∈ t.walk) (hk : u.invocation? = some k) :
    k ∈ (collect {} t).collector.outline.calls ↔ u.rule? = some .methodCall := by
  constructor
  · intro hmem
    exact Classical.byContradiction fun hr => suffix_not_recorded h hu hr hk hmem
  · intro hr
    rw [Tree.invocation?, hr] at hk
    cases hk
    exact call_recorded hfault hn hu hr

/-- Of the invocations in a text that is read without a report, those are recorded that are calls, and
no others, if the walk ends without a fault and the classes get different names. -/
theorem invocation_recorded_iff (text : String) :
    (∀ t, t.ReadFrom text → (collect {} t).fault = none →
      ((collect {} t).collector.pool.map ClassEntry.name).Nodup →
      ∀ u above k, .enter u above ∈ t.walk → u.invocation? = some k →
        (k ∈ (collect {} t).collector.outline.calls ↔ u.rule? = some .methodCall)) ∧
    ∀ rule level p, Parse.ofText? text rule level = some p → p.reports = [] →
      (collect {} p.tree).fault = none →
      ((collect {} p.tree).collector.pool.map ClassEntry.name).Nodup →
      ∀ u above k, .enter u above ∈ p.tree.walk → u.invocation? = some k →
        (k ∈ (collect {} p.tree).collector.outline.calls ↔ u.rule? = some .methodCall) :=
  ⟨fun _ h hfault hn _ _ _ hu hk => recorded_iff h hfault hn hu hk,
    fun _ _ _ h hclean hfault hn _ _ _ hu hk =>
      recorded_iff (Parse.readFrom_of_reports_nil h hclean) hfault hn hu hk⟩

open Callscope.Tree in
/-- An invocation of `f` with an explicit type argument, and then a call of `g`. -/
def invoking : Tree := lined (classOf "A" [methodOf "m" [] [generic, calling "g"]])
where
  generic : Tree :=
    phrase .expression [phrase .expression [phrase .primary [word .kwThis "this"]], word .dot ".",
      phrase .explicitGenericInvocation
        [phrase .nonWildcardTypeArguments [word .lt "<", phrase .typeList [phrase .typeType
          [phrase .classOrInterfaceType [phrase .typeIdentifier [word .identifier "T"]]]],
          word .gt ">"],
        phrase .explicitGenericInvocationSuffix [named "f",
          phrase .arguments [word .lparen "(", word .rparen ")"]]]]

def invokingText : String := "class A \x7b void m ( ) \x7b this . < T > f ( ) ; g ( ) ; \x7d \x7d"

theorem readFrom_invoking : invoking.ReadFrom invokingText :=
  Tree.readFrom_of_visible (.atEnd ⟨55, 1, 55⟩ 45) (by decide +kernel) (by decide +kernel)
    (by decide +kernel)

/-- An invocation among the nodes of a rule. -/
theorem exists_invocation {r : Rule} (h : (t.nodesOf r).any (fun x => x.1.invocation? = some k)) :
    ∃ u above, .enter u above ∈ t.walk ∧ u.rule? = some r ∧ u.invocation? = some k := by
  obtain ⟨⟨u, above⟩, hmem, hk⟩ := List.any_eq_true.mp h
  obtain ⟨hnode, hr⟩ := List.mem_filter.mp hmem
  exact ⟨u, above, Tree.mem_nodes.mp hnode, of_decide_eq_true hr, of_decide_eq_true hk⟩

/-- The call is recorded, and the other invocation is not. -/
theorem invocation_recorded_iff_generic :
    invoking.ReadFrom invokingText ∧ (collect {} invoking).fault = none ∧
    ((collect {} invoking).collector.pool.map ClassEntry.name).Nodup ∧
    ⟨"g", 1, 44⟩ ∈ (collect {} invoking).collector.outline.calls ∧
    ⟨"f", 1, 36⟩ ∉ (collect {} invoking).collector.outline.calls := by
  have hfault : (collect {} invoking).fault = none := by decide +kernel
  have hnames : ((collect {} invoking).collector.pool.map ClassEntry.name).Nodup := by
    decide +kernel
  have hiff := (invocation_recorded_iff invokingText).1 invoking readFrom_invoking hfault hnames
  obtain ⟨u, above, hu, hur, hcall⟩ := exists_invocation (t := invoking) (k := ⟨"g", 1, 44⟩)
    (r := .methodCall) (by decide +kernel)
  obtain ⟨v, around, hv, hvr, hgeneric⟩ := exists_invocation (t := invoking) (k := ⟨"f", 1, 36⟩)
    (r := .explicitGenericInvocationSuffix) (by decide +kernel)
  refine ⟨readFrom_invoking, hfault, hnames, (hiff u above _ hu hcall).mpr hur, fun hmem => ?_⟩
  rw [(hiff v around _ hv hgeneric).mp hmem] at hvr
  cases hvr

/-- An invocation with explicit type arguments is in the text, and all that is recorded is the call after
it. -/
theorem generic_invocation_lost :
    invoking.ReadFrom invokingText ∧ (collect {} invoking).fault = none ∧
    (invoking.nodesOf .explicitGenericInvocationSuffix).map (fun x => x.1.invocation?) =
      [some ⟨"f", 1, 36⟩] ∧
    (collect {} invoking).collector.outline.calls = [⟨"g", 1, 44⟩] := by
  refine ⟨readFrom_invoking, ?_⟩
  decide +kernel

end Collector

end Callscope
