import Callscope.Proofs.Outline.CallSites
import Callscope.Proofs.Parse.Extent
import Callscope.Proofs.Token.Order

/-!
# Calls in the order of the text

Calls are recorded as the walk meets them, and it meets them in the order of the text. So whichever list a
call is added to, it comes after all that the list has. A method gets calls only until the next method
ends, which is at its own end or before, so all its calls stand between its first and its last line. None
of this depends on the names of the classes.
-/

namespace Callscope

open Collector

/-! ## Order and range -/

/-- One call begins before another, line by line. -/
def Call.Precedes (k k' : Call) : Prop :=
  k.line < k'.line ∨ k.line = k'.line ∧ k.column < k'.column

/-- A call stands on one of the lines of a method. -/
def Method.Spans (m : Method) (k : Call) : Prop := m.start ≤ k.line ∧ k.line ≤ m.stop

/-- The calls of every class and of every method are in the order of the text, and those of a method
stand on its lines. -/
structure Outline.Chronological (o : Outline) : Prop where
  classes : ∀ k e, (k, e) ∈ o.classes → e.calls.Pairwise Call.Precedes
  methods : ∀ k e, (k, e) ∈ o.classes → ∀ n m, (n, m) ∈ e.methods →
    m.calls.Pairwise Call.Precedes ∧ ∀ call ∈ m.calls, m.Spans call

/-- The call that a token begins. -/
def Token.call (x : Token) : Call := ⟨x.text, x.line, x.column⟩

theorem Token.call_precedes {x y : Token} (h : x.place.Precedes y.place) :
    x.call.Precedes y.call := by
  simp only [Place.Precedes] at h
  simp only [Call.Precedes, Token.call, Token.line, Token.column]
  omega

/-! ## Calls of a walk -/

namespace Visit

/-- The call that a visit brings. -/
def call? : Visit → Option Call
  | .enter t _ => if t.rule? = some .methodCall then some (callOf t (t.partText 0)) else none
  | _ => none

def endsMethod : Visit → Bool
  | .exit t _ => t.rule? = some .methodDeclaration
  | _ => false

/-- The calls that are met on a chain of visits. -/
def met (vs : List Visit) : List Call := vs.filterMap call?

/-- The calls that are met before a method ends. -/
def soon (vs : List Visit) : List Call := met (vs.takeWhile fun v => !v.endsMethod)

variable {v : Visit} {vs : List Visit}

theorem met_append (us vs : List Visit) : met (us ++ vs) = met us ++ met vs :=
  List.filterMap_append

theorem soon_cons (h : v.endsMethod = false) : soon (v :: vs) = v.call?.toList ++ soon vs := by
  rw [soon, List.takeWhile_cons_of_pos (by rw [h]; rfl), met, List.filterMap_cons]
  cases v.call? <;> rfl

/-- What comes after the end of a method does not come soon. -/
theorem mem_of_mem_soon {us : List Visit} (hv : v.endsMethod = true) {k : Call}
    (hk : k ∈ soon (us ++ v :: vs)) : k ∈ met us := by
  induction us with
  | nil => simp [soon, met, hv] at hk
  | cons u us ih =>
    cases hu : u.endsMethod with
    | true => simp [soon, met, hu] at hk
    | false =>
      rw [List.cons_append, soon_cons hu, List.mem_append] at hk
      rw [← List.singleton_append, met_append, List.mem_append]
      refine hk.imp (fun hk => ?_) ih
      rw [met, List.filterMap_cons]
      cases hc : u.call? with
      | none => simp [hc] at hk
      | some k' => simpa [hc] using hk

end Visit

namespace Tree

variable {text : String} {t p : Tree} {around : List Tree}

open Visit (met soon met_append)

/-- A call stands on one of the lines from the first to the last token of a node. -/
def Spans (t : Tree) (k : Call) : Prop :=
  ((firstToken t).line : Int) ≤ k.line ∧ ∀ last ∈ lastToken? t, k.line ≤ last.line

/-- In what stands before the bracket of a call there is no other call. -/
theorem Derived.calls_callee (h : p.Derived Java.body)
    (hs : Symbol.of p ∈ [Symbol.phrase .identifier, .token .kwThis, .token .kwSuper])
    (around : List Tree) : met (p.visits around) = [] := by
  have hword : ∀ k, Symbol.of p = .token k → met (p.visits around) = [] := by
    intro k hk
    obtain ⟨x, rfl, _⟩ := h.of_token hk
    rw [visits_leaf rfl]
    rfl
  simp only [List.mem_cons, List.not_mem_nil, or_false] at hs
  rcases hs with hs | hs | hs
  · have hr := of_eq_phrase.mp hs
    obtain ⟨x, hchildren, _⟩ := h.children_identifier hr
    cases p with
    | token | skipped | missing => cases hr
    | node r first last labels children =>
      cases hr
      cases hchildren
      rw [visits_node, visitsAll_cons, visitsAll_nil, visits_leaf rfl]
      rfl
  · exact hword _ hs
  · exact hword _ hs

/-- The calls of a tree are begun by tokens of it, one after the other. -/
theorem ReadFrom.calls_visits (t : Tree) : ∀ around, t.ReadFrom text →
    ∃ names : List Token, names.Sublist (Token.inner t.tokens) ∧
      met (t.visits around) = names.map Token.call := by
  induction t using tree_induction with
  | hleaf t ht =>
    intro around _
    rw [visits_leaf ht]
    exact ⟨[], List.nil_sublist _, rfl⟩
  | hnode r first last labels children ih =>
    intro around h
    -- The children one after the other.
    have hforest : ∀ ts : List Tree, ts ⊆ children → ∀ around,
        ∃ names : List Token, names.Sublist (Token.inner (ts.flatMap tokens)) ∧
          met (visitsAll around ts) = names.map Token.call := by
      intro ts hts around
      induction ts with
      | nil => exact ⟨[], List.nil_sublist _, by rw [visitsAll_nil]; rfl⟩
      | cons t ts iht =>
        rw [List.cons_subset] at hts
        obtain ⟨ns, hns, hcalls⟩ := ih t hts.1 around (h.part hts.1)
        obtain ⟨ns', hns', hcalls'⟩ := iht hts.2
        refine ⟨ns ++ ns', ?_, ?_⟩
        · rw [List.flatMap_cons, Token.inner, List.filter_append]
          exact hns.append hns'
        · rw [visitsAll_cons, met_append, hcalls, hcalls', List.map_append]
    rw [visits_node, ← List.singleton_append, met_append, met_append]
    by_cases hr : r = .methodCall
    · subst hr
      obtain ⟨name, bracket, more, htokens, hk, _, _, hcall⟩ := h.called rfl
      obtain ⟨⟨s, hs, hfirst⟩, _⟩ := h.derived.symbols_call rfl
      obtain ⟨c, hc, rfl⟩ := child_of_symbol hfirst
      cases children with
      | nil => cases hc
      | cons c' rest =>
        obtain rfl := Option.some.inj hc
        have hread := h.part (List.mem_cons_self (a := c') (l := rest))
        obtain ⟨x, hx, _⟩ := hread.callee hs
        rw [tokens_node, List.flatMap_cons, hx, List.singleton_append] at htokens
        obtain ⟨rfl, _⟩ := List.cons.inj htokens
        obtain ⟨names, hnames, hcalls⟩ := hforest rest (List.subset_cons_self _ _)
          (node .methodCall first last labels (c' :: rest) :: around)
        refine ⟨x :: names, ?_, ?_⟩
        · rw [tokens_node, List.flatMap_cons, hx, List.singleton_append, Token.inner,
            List.filter_cons_of_pos (by simpa using (Java.isWord_of_calleeKinds _ hk).2)]
          exact hnames.cons_cons x
        · rw [visitsAll_cons, met_append, hread.derived.calls_callee hs, hcalls,
            List.map_cons, Token.call, ← hcall]
          simp [met, Visit.call?, rule?]
    · obtain ⟨names, hnames, hcalls⟩ := hforest children (List.Subset.refl _)
        (node r first last labels children :: around)
      refine ⟨names, by rw [tokens_node]; exact hnames, ?_⟩
      rw [hcalls]
      simp [met, Visit.call?, rule?, hr]

/-- The tokens of a tree stand one after the other. -/
theorem ReadFrom.ordered (h : t.ReadFrom text) :
    (Token.inner t.tokens).Pairwise fun x y => x.place.Precedes y.place :=
  (Lexed.visible_ordered text).sublist h.covers.sublist

/-- A walk meets the calls of a tree in the order of the text. -/
theorem ReadFrom.calls_ordered (h : t.ReadFrom text) (around : List Tree) :
    (met (t.visits around)).Pairwise Call.Precedes := by
  obtain ⟨names, hnames, hcalls⟩ := ReadFrom.calls_visits t around h
  rw [hcalls]
  exact (h.ordered.sublist hnames).map _ fun _ _ => Token.call_precedes

/-- In a list of tokens in order, the line of each lies between those of the first and the last. -/
theorem lines_of_ordered {ts : List Token}
    (h : ts.Pairwise fun x y => x.place.Precedes y.place) {x : Token} (hx : x ∈ ts) :
    (∀ first ∈ ts.head?, first.line ≤ x.line) ∧ ∀ last ∈ ts.getLast?, x.line ≤ last.line := by
  have hline : ∀ {y z : Token}, y.place.Precedes z.place → y.line ≤ z.line := by
    intro y z hyz
    simp only [Place.Precedes] at hyz
    simp only [Token.line]
    omega
  constructor
  · intro first hfirst
    cases ts with
    | nil => cases hx
    | cons y ys =>
      cases hfirst
      rcases List.mem_cons.mp hx with rfl | hx
      · exact Nat.le_refl _
      · exact hline (List.rel_of_pairwise_cons h hx)
  · intro last hlast
    obtain ⟨ys, rfl⟩ := List.getLast?_eq_some_iff.mp hlast
    rcases List.mem_append.mp hx with hx | hx
    · exact hline ((List.pairwise_append.mp h).2.2 x hx last (List.mem_singleton_self last))
    · rw [List.mem_singleton.mp hx]

/-- The calls inside of a node stand on its lines. -/
theorem ReadFrom.spans_met (h : t.ReadFrom text) (hended : t.Ended) {r : Rule}
    (hr : t.rule? = some r) (hunit : r ≠ .compilationUnit) (around : List Tree) {k : Call}
    (hk : k ∈ met (t.visits around)) : t.Spans k := by
  obtain ⟨names, hnames, hcalls⟩ := ReadFrom.calls_visits t around h
  rw [hcalls] at hk
  obtain ⟨x, hx, rfl⟩ := List.mem_map.mp hk
  have hmem := hnames.subset hx
  obtain ⟨hfirst, hlast⟩ := lines_of_ordered h.ordered hmem
  rw [h.derived.inner_tokens hr hunit] at hfirst hlast hmem
  cases hended with
  | token => cases hr
  | @node _ first last labels children ends parts =>
    cases h.anchored with
    | node begun =>
      have hinner := h.derived.inner_tokens hr hunit
      rw [tokens_node] at hfirst hlast hmem hinner
      rw [hinner] at ends
      refine ⟨?_, fun l hl => ?_⟩
      · have hhead := List.head?_eq_some_head (List.ne_nil_of_mem hmem)
        have hline := hfirst _ hhead
        rw [← begun _ hhead] at hline
        exact Int.ofNat_le.mpr hline
      · have hend := List.getLast?_eq_some_getLast (List.ne_nil_of_mem hmem)
        have hline := hlast _ hend
        rw [lastToken?, ends _ hend] at hl
        rw [Option.some.inj hl] at hline
        exact Int.ofNat_le.mpr hline

end Tree

/-! ## The collector -/

/-- Calls come before those still to come, all in the order of the text. -/
def Call.Dated (future ks : List Call) : Prop := (ks ++ future).Pairwise Precedes

/-- The calls of a method are dated and stand on its lines. -/
structure Method.Timely (future : List Call) (m : Method) : Prop where
  dated : Call.Dated future m.calls
  within : ∀ k ∈ m.calls, m.Spans k

structure ClassEntry.Timely (future : List Call) (e : ClassEntry) : Prop where
  dated : Call.Dated future e.calls
  methods : ∀ n m, (n, m) ∈ e.methods → m.Timely future

/-- Wherever a method begins in a chain of visits, the calls that come soon stand on its lines. -/
inductive Visit.Orderly : List Visit → Prop
  | nil : Orderly []
  | cons {v : Visit} {vs : List Visit} (spans : ∀ t around, v = .enter t around →
      t.rule? = some .methodDeclaration → ∀ k ∈ soon vs, t.Spans k) (rest : Orderly vs) :
      Orderly (v :: vs)

theorem Call.Dated.of_sublist {future future' ks : List Call} (h : Call.Dated future ks)
    (hs : future'.Sublist future) : Call.Dated future' ks :=
  h.sublist (hs.append_left ks)

/-- The next call is recorded. -/
theorem Call.Dated.concat {future ks : List Call} {k : Call} (h : Call.Dated (k :: future) ks) :
    Call.Dated future (ks ++ [k]) := by
  rw [Call.Dated, List.append_assoc]
  exact h

theorem Method.Timely.of_sublist {future future' : List Call} {m : Method} (h : m.Timely future)
    (hs : future'.Sublist future) : m.Timely future' :=
  ⟨h.dated.of_sublist hs, h.within⟩

theorem ClassEntry.Timely.of_sublist {future future' : List Call} {e : ClassEntry}
    (h : e.Timely future) (hs : future'.Sublist future) : e.Timely future' :=
  ⟨h.dated.of_sublist hs, fun n m hm => (h.methods n m hm).of_sublist hs⟩

namespace Collector

open Visit (met soon soon_cons Orderly)

variable {c c' : Collector} {t : Tree} {around : List Tree} {v : Visit} {vs : List Visit}
  {future : List Call}

/-- Everything recorded is dated, and the method that calls belong to spans those that come soon. -/
structure Timely (vs : List Visit) (c : Collector) : Prop where
  future : (met vs).Pairwise Call.Precedes
  entries : ∀ e ∈ c.pool, e.Timely (met vs)
  held : ∀ r, c.method = some r → ∀ m, (c.entry r.owner).methods.get? r.name = some m →
    ∀ k ∈ soon vs, m.Spans k

theorem met_sublist (v : Visit) (vs : List Visit) : (met vs).Sublist (met (v :: vs)) :=
  (List.sublist_cons_self v vs).filterMap _

theorem met_cons_call (hr : t.rule? = some .methodCall) :
    met (.enter t around :: vs) = callOf t (t.partText 0) :: met vs :=
  List.filterMap_cons_some (by rw [Visit.call?, if_pos hr])

/-- A visit that leaves the classes as they are, and the method too or none. -/
theorem Timely.skip (h : Timely (v :: vs) c) (hv : v.endsMethod = true → c'.method = none)
    (hpool : c'.pool = c.pool) (hmethod : c'.method = c.method ∨ c'.method = none) :
    Timely vs c' := by
  refine ⟨h.future.sublist (met_sublist v vs), fun e he => ?_, fun r hr m hm k hk => ?_⟩
  · rw [hpool] at he
    exact (h.entries e he).of_sublist (met_sublist v vs)
  · have hnone : c'.method ≠ none := by rw [hr]; nofun
    have hends : v.endsMethod = false := by
      cases hends : v.endsMethod with
      | false => rfl
      | true => exact absurd (hv hends) hnone
    rw [hmethod.resolve_right hnone] at hr
    rw [entry, hpool] at hm
    refine h.held r hr m hm k ?_
    rw [soon_cons hends]
    exact List.mem_append_right _ hk

/-- The class that is opened has nothing yet. -/
theorem Timely.opening (h : Timely (.enter t around :: vs) c) (head : ClassHead) :
    Timely vs (c.opening head) := by
  have hskip : Timely vs c := h.skip nofun rfl (.inl rfl)
  refine ⟨hskip.future, fun e he => ?_, fun r hr m hm => ?_⟩
  · rw [pool_opening, List.mem_append] at he
    rcases he with he | he
    · exact hskip.entries e he
    · rw [List.mem_singleton.mp he]
      exact ⟨hskip.future, nofun⟩
  · refine hskip.held r hr m ?_
    rcases Nat.lt_trichotomy r.owner c.pool.length with hlt | heq | hgt
    · rwa [entry_opening_of_lt head hlt] at hm
    · rw [heq, entry_opening_self] at hm
      cases hm
    · rw [entry_of_le (by rw [pool_opening, List.length_append]; exact hgt)] at hm
      cases hm

/-- A class is changed, but not the lines of its methods. -/
theorem Timely.onClass (h : Timely vs c) {i : Nat} {f : ClassEntry → ClassEntry}
    (hf : i < c.pool.length → (f (c.entry i)).Timely (met vs))
    (hlines : ∀ n m', (f (c.entry i)).methods.get? n = some m' →
      ∃ m, (c.entry i).methods.get? n = some m ∧ m'.start = m.start ∧ m'.stop = m.stop) :
    Timely vs (c.onClass i f) := by
  refine ⟨h.future, fun e he => ?_, fun r hr m' hm' k hk => ?_⟩
  · rcases mem_pool_onClass he with he | ⟨hi, rfl⟩
    · exact h.entries e he
    · exact hf hi
  · rw [entry_onClass] at hm'
    split at hm'
    · rename_i hi
      rw [← hi.1] at hm'
      obtain ⟨m, hm, hstart, hstop⟩ := hlines r.name m' hm'
      rw [Method.Spans, hstart, hstop]
      exact h.held r hr m (hi.1 ▸ hm) k hk
    · exact h.held r hr m' hm' k hk

/-- The lines of a method are those of its first and its last token. -/
theorem lines_of_methodPart {name : String} {m : Method}
    (h : (c.methodPart t around name).result = .ok m) :
    m.start = (firstToken t).line ∧ ∃ last, lastToken? t = some last ∧ m.stop = last.line := by
  simp only [methodPart, Noted.result_bind, Noted.result_lift] at h
  obtain ⟨returnType, _, h⟩ := Noted.bind_eq_ok.mp h
  split at h
  · cases h
  · rename_i last hlast
    simp only [Noted.result_bind, Noted.result_lift, Noted.result_pure] at h
    obtain ⟨brackets, _, h⟩ := Noted.bind_eq_ok.mp h
    obtain ⟨parameters, _, h⟩ := Noted.bind_eq_ok.mp h
    cases h
    exact ⟨rfl, last, hlast, rfl⟩

/-- A method that is put into a class has no calls yet, and spans what comes soon. -/
theorem Timely.addMethod (h : Timely (.enter t around :: vs) c)
    (hspans : ∀ k ∈ soon vs, t.Spans k) (hc : c.methodOutcome t around = .ok c') :
    Timely vs c' := by
  have hskip : Timely vs c := h.skip nofun rfl (.inl rfl)
  obtain ⟨name, j, _, _, ⟨_, rfl⟩ | ⟨_, m, i, hm, _, rfl⟩⟩ := methodOutcome_ok hc
  · exact hskip
  · obtain ⟨_, hcalls⟩ := name_calls_of_methodPart hm
    obtain ⟨hstart, last, hlast, hstop⟩ := lines_of_methodPart hm
    have hnew : m.Timely (met vs) := by
      refine ⟨?_, ?_⟩
      · rw [hcalls]
        exact hskip.future
      · rw [hcalls]
        nofun
    refine ⟨hskip.future, fun e he => ?_, fun r hr m' hm' k hk => ?_⟩
    · rcases mem_pool_onClass he with he | ⟨hi, rfl⟩
      · exact hskip.entries e he
      · have hold := hskip.entries _ (entry_of_lt hi)
        refine ⟨hold.dated, fun n m' hmem => ?_⟩
        rcases Table.mem_put hmem with ⟨rfl, rfl⟩ | hmem
        · exact hnew
        · exact hold.methods n m' hmem
    · -- The method that calls belong to is now the one that was put there.
      cases hr
      have hfound : m' = m := by
        change ((c.onClass i _).entry i).methods.get? name = some m' at hm'
        rw [entry_onClass] at hm'
        split at hm'
        · rw [Table.get?_put, if_pos rfl] at hm'
          exact (Option.some.inj hm').symm
        · rename_i hi
          rw [entry_of_le (Nat.le_of_not_lt fun hlt => hi ⟨rfl, hlt⟩)] at hm'
          cases hm'
      obtain ⟨hfirst, hend⟩ := hspans k hk
      rw [hfound, Method.Spans, hstart, hstop]
      exact ⟨hfirst, hend last hlast⟩

/-- A call is added at the end of a list of calls, before all that come later. -/
theorem Timely.addCall (h : Timely (.enter t around :: vs) c) (hr : t.rule? = some .methodCall)
    (hc : c.callOutcome t = .ok c') : Timely vs c' := by
  have hskip : Timely vs c := h.skip nofun rfl (.inl rfl)
  have hmet : met (.enter t around :: vs) = callOf t (t.partText 0) :: met vs := met_cons_call hr
  obtain ⟨value, hvalue, ⟨_, j, i, _, _, rfl⟩ | ⟨r, hmethod, rfl⟩⟩ := callOutcome_ok hc
  · rw [← Tree.partText_of_childText hvalue]
    refine hskip.onClass (fun hi => ?_) fun n m' hm' => ⟨m', hm', rfl, rfl⟩
    have hdated := (h.entries _ (entry_of_lt hi)).dated
    rw [hmet] at hdated
    exact ⟨hdated.concat, (hskip.entries _ (entry_of_lt hi)).methods⟩
  · rw [← Tree.partText_of_childText hvalue]
    refine hskip.onClass (fun hi => ?_) fun n m' hm' => ?_
    · have hold := hskip.entries _ (entry_of_lt hi)
      refine ⟨hold.dated, fun n m' hmem => ?_⟩
      rcases Table.mem_or_get?_of_mem_modify hmem with hmem | ⟨m, hm, rfl⟩
      · exact hold.methods n m' hmem
      · -- The method that calls belong to spans this one, which comes soonest of all.
        have htimely := (h.entries _ (entry_of_lt hi)).methods r.name m (Table.mem_of_get? hm)
        have hdated := htimely.dated
        rw [hmet] at hdated
        refine ⟨hdated.concat, fun k hk => ?_⟩
        rcases List.mem_append.mp hk with hk | hk
        · exact htimely.within k hk
        · rw [List.mem_singleton.mp hk]
          refine h.held r hmethod m hm _ ?_
          rw [soon_cons rfl, Visit.call?, if_pos hr]
          exact List.mem_append_left _ (List.mem_singleton_self _)
    · rw [Table.get?_modify] at hm'
      split at hm'
      · obtain ⟨m, hm, rfl⟩ := Option.map_eq_some_iff.mp hm'
        exact ⟨m, hm, rfl, rfl⟩
      · exact ⟨m', hm', rfl, rfl⟩

/-- A visit that succeeds keeps what is recorded timely. -/
theorem Timely.visit (h : Timely (v :: vs) c) (ho : Orderly (v :: vs))
    (hc : c.outcome v = .ok c') : Timely vs c' := by
  cases v with
  | leaf t =>
    cases hc
    exact h.skip nofun rfl (.inl rfl)
  | exit t around =>
    have hmethod := method_of_exit hc
    refine h.skip (fun hends => ?_) (classes_pool_of_exit hc).2 ?_
    · rw [hmethod, if_pos (of_decide_eq_true hends)]
    · rw [hmethod]
      split
      · exact .inr rfl
      · exact .inl rfl
  | enter t around =>
    cases hd : t.declaresClass with
    | true =>
      rw [outcome_enterClass hd] at hc
      obtain ⟨head, _, hc⟩ := Noted.bind_eq_ok.mp hc
      cases hc
      exact h.opening head
    | false =>
      have hskip : Timely vs c := h.skip nofun rfl (.inl rfl)
      simp only [outcome] at hc
      split at hc
      · obtain ⟨_, _, hc⟩ := Noted.bind_eq_ok.mp hc
        cases hc
        exact ⟨hskip.future, hskip.entries, hskip.held⟩
      · obtain ⟨_, _, hc⟩ := Noted.bind_eq_ok.mp hc
        cases hc
        exact ⟨hskip.future, hskip.entries, hskip.held⟩
      · rename_i hr
        rw [Tree.declaresClass_iff.mpr (.inl hr)] at hd
        cases hd
      · rename_i hr
        rw [Tree.declaresClass_iff.mpr (.inr hr)] at hd
        cases hd
      · obtain ⟨_, i, _, _, _, _, _, _, rfl⟩ := fieldOutcome_ok hc
        refine hskip.onClass (fun hi => ?_) fun n m' hm' => ⟨m', hm', rfl, rfl⟩
        have hold := hskip.entries _ (entry_of_lt hi)
        exact ⟨hold.dated, hold.methods⟩
      · rename_i hr
        cases ho with
        | cons spans rest => exact h.addMethod (spans t around rfl hr) hc
      · rename_i hr
        exact h.addCall hr hc
      · cases hc
        exact hskip

/-- A chain of visits in order leaves a timely collector, also one that a fault cuts short. -/
theorem Timely.follow (h : Timely vs c) (ho : Orderly vs) :
    Timely [] (c.follow vs).collector := by
  induction vs generalizing c with
  | nil => exact h
  | cons v vs ih =>
    cases hv : c.outcome v with
    | ok c' =>
      obtain ⟨log, hf⟩ := follow_cons_ok hv vs
      rw [hf]
      refine ih (h.visit ho hv) ?_
      cases ho with
      | cons spans rest => exact rest
    | error f =>
      obtain ⟨log, hf⟩ := follow_cons_error hv vs
      rw [hf]
      refine ⟨.nil, fun e he => (h.entries e he).of_sublist (List.nil_sublist _), ?_⟩
      intro r hr m hm k hk
      cases hk

theorem Timely.chronological (h : Timely [] c) : c.outline.Chronological := by
  have hentry : ∀ k e, (k, e) ∈ c.outline.classes → e.Timely [] := by
    intro k e hmem
    obtain ⟨⟨k', i⟩, hk, heq⟩ := List.mem_map.mp hmem
    cases heq
    by_cases hi : i < c.pool.length
    · exact h.entries _ (entry_of_lt hi)
    · rw [entry_of_le (Nat.le_of_not_lt hi)]
      exact ⟨.nil, nofun⟩
  have hordered : ∀ ks, Call.Dated [] ks → ks.Pairwise Call.Precedes := by
    intro ks hks
    rwa [Call.Dated, List.append_nil] at hks
  refine ⟨fun k e hmem => hordered _ (hentry k e hmem).dated, fun k e hmem n m hm => ?_⟩
  have hmethod := (hentry k e hmem).methods n m hm
  exact ⟨hordered _ hmethod.dated, hmethod.within⟩

/-! ## Walks -/

/-- The visits of a tree are in order, and so are those that come after it. -/
theorem orderly_visits {text : String} (t : Tree) : ∀ around {vs}, t.ReadFrom text → t.Ended →
    Orderly vs → Orderly (t.visits around ++ vs) := by
  induction t using tree_induction with
  | hleaf t ht =>
    intro around vs _ _ hvs
    rw [visits_leaf ht]
    exact .cons (fun _ _ => nofun) hvs
  | hnode r first last labels children ih =>
    intro around vs h hended hvs
    have hforest : ∀ ts : List Tree, ts ⊆ children → ∀ above vs, Orderly vs →
        Orderly (Tree.visitsAll above ts ++ vs) := by
      intro ts hts above vs hvs
      induction ts with
      | nil =>
        rw [visitsAll_nil]
        exact hvs
      | cons t ts iht =>
        rw [List.cons_subset] at hts
        rw [visitsAll_cons, List.append_assoc]
        exact ih t hts.1 _ (h.part hts.1) (hended.part hts.1) (iht hts.2)
    rw [visits_node, List.cons_append, List.append_assoc, List.singleton_append]
    refine .cons (fun t above heq hr k hk => ?_) ?_
    · -- What comes soon comes before the end of this very method.
      cases heq
      refine h.spans_met hended hr nofun around ?_
      rw [visits_node, ← List.singleton_append, Visit.met_append, Visit.met_append]
      have hends : (Visit.exit (.node r first last labels children) around).endsMethod = true :=
        decide_eq_true hr
      exact List.mem_append_right _ (List.mem_append_left _ (Visit.mem_of_mem_soon hends hk))
    · exact hforest children (List.Subset.refl _) _ _ (.cons (fun _ _ => nofun) hvs)

theorem chronological_collect {text : String} {t : Tree} (h : t.ReadFrom text)
    (hended : t.Ended) : (collect {} t).collector.outline.Chronological := by
  have hstart : Timely t.walk {} :=
    ⟨h.calls_ordered [], nofun, nofun⟩
  have horderly := orderly_visits t [] h hended .nil
  rw [List.append_nil] at horderly
  exact (hstart.follow horderly).chronological

/-- In the outline of a text that is read without a report, the calls of every class and of every method
are in the order of the text, and those of a method stand on its lines. This holds whatever rule the
text is read as, however the walk ends, and also if classes have the same name. -/
theorem calls_chronological :
    (∀ text t, t.ReadFrom text → t.Ended →
      (collect {} t).collector.outline.Chronological) ∧
    ∀ text rule level p, Parse.ofText? text rule level = some p → p.reports = [] →
      (collect {} p.tree).collector.outline.Chronological :=
  ⟨fun _ _ h hended => chronological_collect h hended, fun _ _ _ _ h hclean =>
    chronological_collect (Parse.readFrom_of_reports_nil h hclean)
      (Parse.ended_of_reports_nil h hclean)⟩

open Callscope.Tree in
/-- A class inside of another one of the same name, and a method after it. -/
def renamed : Tree :=
  lined (classOf "A" [classOf "A" [methodOf "n" [] [calling "e"]],
    methodOf "m" [] [calling "f", calling "g"]])

def renamedText : String :=
  "class A \x7b class A \x7b void n ( ) \x7b e ( ) ; \x7d \x7d void m ( ) \x7b f ( ) ; g ( ) ; \x7d \x7d"

theorem readFrom_renamed : renamed.ReadFrom renamedText :=
  Tree.readFrom_of_visible (.atEnd ⟨77, 1, 77⟩ 63) (by decide +kernel) (by decide +kernel)
    (by decide +kernel)

/-- The calls of both methods are in order and stand on the lines of their methods. -/
theorem calls_chronological_renamed :
    renamed.ReadFrom renamedText ∧ renamed.Ended ∧
    (collect {} renamed).collector.outline.classes.map (fun x => (x.1, x.2.methods.map fun y =>
      (y.1, y.2.calls))) =
      [("A", [("n", [⟨"e", 1, 33⟩]), ("m", [⟨"f", 1, 58⟩, ⟨"g", 1, 66⟩])])] ∧
    (collect {} renamed).collector.outline.Chronological := by
  have hended : renamed.Ended := Tree.ended_of_isEnded _ (by decide +kernel)
  exact ⟨readFrom_renamed, hended, by decide +kernel,
    calls_chronological.1 renamedText renamed readFrom_renamed hended⟩

end Collector

end Callscope
